import TachyonEngine.Bytecode.ControlFlow

/-!
# Linear environment depths

`validateClassEnvironments` runs over the words once and counts the environments that are entered
and not left. `environmentsAt` is that count as a list: the slot counts of the environments that
stand at an offset when the code before it is read from the first word to the last.
`environmentsChecked` collects what an accepted function satisfies at every instruction.
-/

namespace TachyonEngine.Bytecode

open Lib.MachineWord Lib.CodeStream

namespace Opcode

def entersEnvironment : Opcode → Bool
  | .enterClassEnvironment | .enterLexicalEnvironment => true
  | _ => false

def leavesEnvironment : Opcode → Bool
  | .leaveClassEnvironment | .leaveLexicalEnvironment => true
  | _ => false

def initializesEnvironment : Opcode → Bool
  | .initializeClassEnvironment | .initializeLexicalEnvironment => true
  | _ => false

/-- A transfer that runs finalizers. -/
def isAbruptTransfer : Opcode → Bool
  | .breakThroughFinally | .continueThroughFinally => true
  | _ => false

variable {op : Opcode}

theorem entersEnvironment_cases (h : op.entersEnvironment = true) :
    op = .enterClassEnvironment ∨ op = .enterLexicalEnvironment := by
  simp only [entersEnvironment] at h
  split at h
  · exact .inl rfl
  · exact .inr rfl
  · cases h

theorem leavesEnvironment_cases (h : op.leavesEnvironment = true) :
    op = .leaveClassEnvironment ∨ op = .leaveLexicalEnvironment := by
  simp only [leavesEnvironment] at h
  split at h
  · exact .inl rfl
  · exact .inr rfl
  · cases h

theorem initializesEnvironment_cases (h : op.initializesEnvironment = true) :
    op = .initializeClassEnvironment ∨ op = .initializeLexicalEnvironment := by
  simp only [initializesEnvironment] at h
  split at h
  · exact .inl rfl
  · exact .inr rfl
  · cases h

/-- The three kinds of environment opcodes exclude each other. -/
theorem initializesEnvironment_only (h : op.initializesEnvironment = true) :
    op.entersEnvironment = false ∧ op.leavesEnvironment = false := by
  rcases initializesEnvironment_cases h with rfl | rfl
  · exact ⟨rfl, rfl⟩
  · exact ⟨rfl, rfl⟩

theorem leavesEnvironment_only (h : op.leavesEnvironment = true) :
    op.entersEnvironment = false ∧ op.initializesEnvironment = false := by
  rcases leavesEnvironment_cases h with rfl | rfl
  · exact ⟨rfl, rfl⟩
  · exact ⟨rfl, rfl⟩

theorem entersEnvironment_only (h : op.entersEnvironment = true) :
    op.leavesEnvironment = false ∧ op.initializesEnvironment = false := by
  rcases entersEnvironment_cases h with rfl | rfl
  · exact ⟨rfl, rfl⟩
  · exact ⟨rfl, rfl⟩

end Opcode

/-- The slot counts behind an instruction, the innermost environment first. -/
def environmentsAfter (instr : DecodedInstruction) (slots : List UInt32) : List UInt32 :=
  if instr.opcode.entersEnvironment then instr.operands.get ⟨0, Nat.succ_pos 2⟩ :: slots
  else if instr.opcode.leavesEnvironment then slots.tail
  else slots

/-- The slot counts at an offset. -/
def CompiledFunction.environmentsAt (fn : CompiledFunction) : Nat → List UInt32
  | 0 => []
  | off + 1 =>
    if fn.bytecode.starts[off]?.getD false then
      match decodeAt fn.words off with
      | .error _ => fn.environmentsAt off
      | .ok instr => environmentsAfter instr (fn.environmentsAt off)
    else fn.environmentsAt off

section Function

variable {fn : CompiledFunction} {trace : List (Nat × DecodedInstruction)}

variable {off : Nat} {instr : DecodedInstruction}

/-- Behind an instruction stand the environments that it leaves. -/
theorem environmentsAt_next (hstream : VerifiedStream fn.bytecode trace)
    (hm : (off, instr) ∈ trace) : fn.environmentsAt (off + instr.length) =
      environmentsAfter instr (fn.environmentsAt off) := by
  have hpos : 0 < instr.length := hstream.trace_zero.width_pos hm
  have hst := (hstream.starts_iff off).mpr ⟨instr, hm⟩
  have hdec : decodeAt fn.words off = .ok instr := (hstream.decode_start hm).2
  -- the words between the two offsets start no instruction
  have hins : ∀ k, k < instr.length → fn.environmentsAt (off + 1 + k) =
      environmentsAfter instr (fn.environmentsAt off) := by
    intro k
    induction k with
    | zero =>
      intro _
      simp only [CompiledFunction.environmentsAt, hst, if_true, hdec]
    | succ k ih =>
      intro hk
      have hn : fn.bytecode.starts[off + 1 + k]?.getD false ≠ true := by
        intro hsome
        obtain ⟨other, ho⟩ := (hstream.starts_iff _).mp hsome
        have hle : off + instr.length ≤ off + 1 + k := hstream.trace_zero.disjoint hm ho (by omega)
        omega
      have hstep : fn.environmentsAt (off + 1 + k + 1) = fn.environmentsAt (off + 1 + k) := by
        simp only [CompiledFunction.environmentsAt, if_neg hn]
      rw [← Nat.add_assoc, hstep]
      exact ih (by omega)
  have hl := hins (instr.length - 1) (by omega)
  have heq : off + 1 + (instr.length - 1) = off + instr.length := by omega
  rwa [heq] at hl

/-- What the first pass checks at an instruction. -/
structure EnvironmentUse (slots : List UInt32) (instr : DecodedInstruction) : Prop where
  leaves : instr.opcode.leavesEnvironment = true → slots ≠ []
  initializes : instr.opcode.initializesEnvironment = true →
    ∃ slotCount outer, slots = slotCount :: outer ∧ instr.operands.get 1 < slotCount

/-- A scan that stands at an offset has the slot counts of the environments there. -/
structure ScansAt (fn : CompiledFunction) (scan : EnvironmentScan) (off : Nat) : Prop where
  slots : scan.slotCounts = fn.environmentsAt off
  depth : scan.depth.toNat = (fn.environmentsAt off).length

section

variable (id : FunctionId) (scan : EnvironmentScan) (off : Nat)

/-! The scan at each kind of opcode. -/

theorem scanEnvironment_enters (h : instr.opcode.entersEnvironment = true) :
    scanEnvironment id scan off instr = match checkedAdd scan.depth 1 with
      | none => reject (.invalidClassEnvironmentDepth id (WordOffset.new off) maxWord scan.depth)
      | some depth => .ok
          { depthAt := scan.depthAt.set off (some scan.depth)
            slotCounts := instr.operands.get 0 :: scan.slotCounts, depth } := by
  rcases Opcode.entersEnvironment_cases h with hop | hop
  · rw [scanEnvironment, hop] <;> rfl
  · rw [scanEnvironment, hop] <;> rfl

theorem scanEnvironment_leaves (h : instr.opcode.leavesEnvironment = true) :
    scanEnvironment id scan off instr = match checkedSub scan.depth 1 with
      | none => reject (.invalidClassEnvironmentDepth id (WordOffset.new off) 1 0)
      | some depth => .ok
          { depthAt := scan.depthAt.set off (some scan.depth)
            slotCounts := scan.slotCounts.tail, depth } := by
  rcases Opcode.leavesEnvironment_cases h with hop | hop
  · rw [scanEnvironment, hop] <;> rfl
  · rw [scanEnvironment, hop] <;> rfl

theorem scanEnvironment_initializes (h : instr.opcode.initializesEnvironment = true) :
    scanEnvironment id scan off instr = match scan.slotCounts with
      | [] => reject (.invalidClassEnvironmentDepth id (WordOffset.new off) 1 0)
      | slotCount :: _ =>
        if instr.operands.get 1 ≥ slotCount then
          reject (.classEnvironmentSlotOutOfRange id (WordOffset.new off)
            (instr.operands.get 1) slotCount)
        else .ok { scan with depthAt := scan.depthAt.set off (some scan.depth) } := by
  rcases Opcode.initializesEnvironment_cases h with hop | hop
  · rw [scanEnvironment, hop] <;> rfl
  · rw [scanEnvironment, hop] <;> rfl

theorem scanEnvironment_other (henter : instr.opcode.entersEnvironment = false)
    (hleave : instr.opcode.leavesEnvironment = false)
    (hobject : instr.opcode.initializesEnvironment = false) : scanEnvironment id scan off instr =
      .ok { scan with depthAt := scan.depthAt.set off (some scan.depth) } := by
  simp only [scanEnvironment]
  split
  all_goals
    rename_i hop
    first
      | rfl
      | exact absurd henter (by rw [hop]; decide)
      | exact absurd hleave (by rw [hop]; decide)
      | exact absurd hobject (by rw [hop]; decide)

end

variable {id : FunctionId}

section

variable (hstream : VerifiedStream fn.bytecode trace)

include hstream

/-- A step of the scan checks the instruction and stands behind it afterwards. -/
theorem scanEnvironment_ok {scan next : EnvironmentScan} (hm : (off, instr) ∈ trace)
    (hscan : ScansAt fn scan off) (h : scanEnvironment id scan off instr = .ok next) :
    EnvironmentUse (fn.environmentsAt off) instr ∧ ScansAt fn next (off + instr.length) ∧
      next.depthAt = scan.depthAt.set off (some scan.depth) := by
  have hnx := environmentsAt_next hstream hm
  obtain ⟨hslots, hdepth⟩ := hscan
  by_cases henter : instr.opcode.entersEnvironment = true
  · obtain ⟨hleave, hobject⟩ := Opcode.entersEnvironment_only henter
    rw [environmentsAfter, if_pos henter] at hnx
    rw [scanEnvironment_enters id scan off henter, checkedAdd] at h
    split at h
    · cases h
    next depth hadd =>
      cases h
      split at hadd
      next hsm =>
        cases hadd
        refine ⟨⟨fun hop => ?_, fun hop => ?_⟩, ⟨?_, ?_⟩, rfl⟩
        · rw [hleave] at hop
          cases hop
        · rw [hobject] at hop
          cases hop
        · rw [hnx, hslots]
          rfl
        · rw [hnx, List.length_cons, ← hdepth]
          exact Nat.mod_eq_of_lt hsm
      · cases hadd
  · by_cases hleave : instr.opcode.leavesEnvironment = true
    · obtain ⟨-, hobject⟩ := Opcode.leavesEnvironment_only hleave
      rw [environmentsAfter, if_neg henter, if_pos hleave] at hnx
      rw [scanEnvironment_leaves id scan off hleave, checkedSub] at h
      split at h
      · cases h
      next depth hsub =>
        cases h
        split at hsub
        next hle =>
          cases hsub
          have hone : 1 ≤ scan.depth.toNat := hle
          refine ⟨⟨fun _ hnil => ?_, fun hop => ?_⟩, ⟨?_, ?_⟩, rfl⟩
          · rw [hnil, List.length_nil] at hdepth
            omega
          · rw [hobject] at hop
            cases hop
          · rw [hnx, hslots]
          · rw [hnx, List.length_tail, ← hdepth, UInt32.toNat_sub_of_le _ _ hle]
            rfl
        · cases hsub
    · have henter : instr.opcode.entersEnvironment = false := Bool.not_eq_true _ ▸ henter
      have hleave : instr.opcode.leavesEnvironment = false := Bool.not_eq_true _ ▸ hleave
      rw [environmentsAfter, henter, hleave] at hnx
      simp only [Bool.false_eq_true, if_false] at hnx
      have hn : instr.opcode.leavesEnvironment = true → fn.environmentsAt off ≠ [] := fun hop => by
        rw [hleave] at hop
        cases hop
      by_cases hobject : instr.opcode.initializesEnvironment = true
      · rw [scanEnvironment_initializes id scan off hobject] at h
        split at h
        · cases h
        next slotCount outer hcounts =>
          split_ifs at h with hsl
          · cases h
          · cases h
            refine ⟨⟨hn, fun _ => ⟨slotCount, outer, ?_, ?_⟩⟩, ⟨?_, ?_⟩, rfl⟩
            · rw [← hslots, hcounts]
            · exact UInt32.not_le.mp hsl
            · rw [hnx, hslots]
            · rw [hnx, ← hdepth]
      · have hobject : instr.opcode.initializesEnvironment = false := Bool.not_eq_true _ ▸ hobject
        rw [scanEnvironment_other id scan off henter hleave hobject] at h
        cases h
        refine ⟨⟨hn, fun hop => ?_⟩, ⟨?_, ?_⟩, rfl⟩
        · rw [hobject] at hop
          cases hop
        · rw [hnx, hslots]
        · rw [hnx, ← hdepth]

/-- The scan over the rest of the trace leaves the depths before it alone and records the depth
of every instruction in it. -/
theorem foldBody_scanEnvironment {scan final : EnvironmentScan}
    {rest : List (Nat × DecodedInstruction)} (hrest : InstructionTrace fn.words off rest)
    (hsub : ∀ ent ∈ rest, ent ∈ trace) (hscan : ScansAt fn scan off)
    (hlen : fn.words.length < scan.depthAt.length)
    (h : foldBody (scanEnvironment id) rest scan = .ok final) :
    (∀ pre < off, final.depthAt[pre]? = scan.depthAt[pre]?) ∧ ∀ pc instr, (pc, instr) ∈ rest →
        EnvironmentUse (fn.environmentsAt pc) instr ∧
          ∃ depth, final.depthAt[pc]? = some (some depth) ∧
            depth.toNat = (fn.environmentsAt pc).length := by
  induction hrest generalizing scan with
  | done _ =>
    cases h
    exact ⟨fun _ _ => rfl, fun _ _ hm => absurd hm List.not_mem_nil⟩
  | @step off instr rest hin hdec hrest ih =>
    simp only [foldBody] at h
    split at h
    · cases h
    next next hn =>
      have hm := hsub (off, instr) List.mem_cons_self
      have hpos : 0 < instr.length := hstream.trace_zero.width_pos hm
      obtain ⟨huse, hscans, hdepths⟩ := scanEnvironment_ok hstream hm hscan hn
      have hnextLen : fn.words.length < next.depthAt.length := by
        rw [hdepths, List.length_set]
        exact hlen
      obtain ⟨hb, hins⟩ := ih (fun ent he => hsub ent (List.mem_cons_of_mem _ he)) hscans hnextLen h
      constructor
      · intro pre hlt
        rw [hb pre (by omega), hdepths, List.getElem?_set_ne (by omega)]
      · intro pc other ho
        rcases List.mem_cons.mp ho with heq | ho
        · cases heq
          refine ⟨huse, scan.depth, ?_, hscan.depth⟩
          rw [hb off (by omega), hdepths, List.getElem?_set_self (by omega)]
        · exact hins pc other ho

/-- The scan of `validateClassEnvironments`. -/
def environmentScan (fn : CompiledFunction) : Except BuildFailure EnvironmentScan :=
  scanInstructions fn.words (decodeInvariant fn.id) (scanEnvironment fn.id)
    { depthAt := List.replicate (fn.words.length + 1) none, slotCounts := [], depth := 0 }

/-- The depth that it computes at an offset. -/
def linearDepthAt (fn : CompiledFunction) (off : Nat) : Option UInt32 :=
  match environmentScan fn with
  | .error _ => none
  | .ok scan => scan.depthAt[off]?.join

/-- What an accepted function satisfies at its instructions and handlers. -/
structure EnvironmentsChecked (fn : CompiledFunction)
    (trace : List (Nat × DecodedInstruction)) : Prop where
  linear : ∀ pc instr, (pc, instr) ∈ trace →
    ∃ depth, linearDepthAt fn pc = some depth ∧ depth.toNat = (fn.environmentsAt pc).length
  use : ∀ pc instr, (pc, instr) ∈ trace → EnvironmentUse (fn.environmentsAt pc) instr
  jump : ∀ pc instr target, (pc, instr) ∈ trace →
    jumpTarget instr.opcode instr.operands = some target →
    instr.opcode.isAbruptTransfer = false →
    (fn.environmentsAt target.toNat).length = (fn.environmentsAt pc).length
  abrupt : ∀ pc instr target, (pc, instr) ∈ trace →
    jumpTarget instr.opcode instr.operands = some target →
    instr.opcode.isAbruptTransfer = true →
    (instr.operands.get 1).toNat = (fn.environmentsAt target.toNat).length ∧
      (fn.environmentsAt target.toNat).length ≤ (fn.environmentsAt pc).length
  handler : ∀ entry ∈ fn.metadata.handlers,
    entry.environmentDepth.toNat = (fn.environmentsAt entry.handler.index.toNat).length

/-- A scan of a verified stream runs its body over the trace. -/
theorem scanInstructions_fold {σ : Type} {onDecode : WordOffset → BuildFailure}
    {body : σ → Nat → DecodedInstruction → Except BuildFailure σ} {st res : σ}
    (h : scanInstructions fn.words onDecode body st = .ok res) :
    foldBody body trace st = .ok res := by
  obtain ⟨visited, hvis, hfold⟩ := walk_eq_foldBody h
  have hdec : forgetErrors (fun off => (decodeAt fn.words off).mapError
      fun _ => onDecode (WordOffset.new off)) = decodeOption fn.words := by
    funext off
    simp only [forgetErrors, decodeOption]
    cases decodeAt fn.words off <;> rfl
  rw [hdec] at hvis
  rw [hstream.trace_zero.unique hvis]
  exact hfold

end

theorem isAbruptTransfer_iff (op : Opcode) :
    (op = .breakThroughFinally ∨ op = .continueThroughFinally) ↔ op.isAbruptTransfer = true := by
  constructor
  · rintro (rfl | rfl)
    · rfl
    · rfl
  · intro h
    simp only [Opcode.isAbruptTransfer] at h
    split at h
    · exact .inl rfl
    · exact .inr rfl
    · cases h

/-- What the second pass checks of an edge. -/
theorem checkEdgeDepth_ok {depthAt : List (Option UInt32)} {pc : Nat}
    {tgt sourceDepth targetDepth : UInt32} (h : checkEdgeDepth id depthAt pc instr = .ok ())
    (ht : jumpTarget instr.opcode instr.operands = some tgt)
    (hsource : depthAt[pc]? = some (some sourceDepth))
    (hdepth : depthAt[tgt.toNat]? = some (some targetDepth)) :
    (instr.opcode.isAbruptTransfer = false → targetDepth = sourceDepth) ∧
      (instr.opcode.isAbruptTransfer = true →
        instr.operands.get 1 = targetDepth ∧ targetDepth ≤ sourceDepth) := by
  simp only [checkEdgeDepth, ht, environmentDepthAt, hsource, hdepth, bind, Except.bind,
    isAbruptTransfer_iff] at h
  split at h
  · cases h
  next hnamed =>
    split_ifs at h with hlevel
    · cases h
    · constructor
      · intro habrupt
        by_contra hne
        exact hlevel (.inl ⟨by rw [habrupt]; decide, fun heq => hne heq.symm⟩)
      · intro habrupt
        constructor
        · by_contra hne
          exact hnamed ⟨habrupt, hne⟩
        · by_contra hlt
          exact hlevel (.inr ⟨habrupt, UInt32.not_le.mp hlt⟩)

theorem environmentsChecked (hfn : CheckedFunction fn)
    (hstream : VerifiedStream fn.bytecode trace) : EnvironmentsChecked fn trace := by
  have hval := hfn.classEnvironments
  obtain ⟨scan, hscan, hval⟩ := bind_ok hval
  split at hval
  · cases hval
  · obtain ⟨hedges, hhandlers⟩ := andThen_ok hval
    have hinit : ScansAt fn
        { depthAt := List.replicate (fn.words.length + 1) none, slotCounts := [], depth := 0 }
        0 := ⟨rfl, rfl⟩
    obtain ⟨-, hdepths⟩ := foldBody_scanEnvironment hstream hstream.trace_zero (fun _ h => h)
      hinit (by simp) (scanInstructions_fold hstream hscan)
    have hedges := scanInstructions_fold hstream hedges
    have hscanned : environmentScan fn = .ok scan := hscan
    -- the entry behind the last word is none of a start
    have hkept : ∀ pc depth, pc < fn.words.length → scan.depthAt[pc]? = some (some depth) →
        (scan.depthAt.set fn.words.length (some scan.depth))[pc]? = some (some depth) := by
      intro pc depth hlt hget
      rw [List.getElem?_set_ne (by omega), hget]
    have hst : ∀ pc instr, (pc, instr) ∈ trace → ∃ depth,
        (scan.depthAt.set fn.words.length (some scan.depth))[pc]? = some (some depth) ∧
          depth.toNat = (fn.environmentsAt pc).length := by
      intro pc instr hm
      obtain ⟨-, depth, hget, hdepth⟩ := hdepths pc instr hm
      exact ⟨depth, hkept pc depth (hstream.decode_start hm).1 hget, hdepth⟩
    have hedge : ∀ pc instr tgt, (pc, instr) ∈ trace →
        jumpTarget instr.opcode instr.operands = some tgt →
        ∃ sourceDepth targetDepth : UInt32, sourceDepth.toNat = (fn.environmentsAt pc).length ∧
          targetDepth.toNat = (fn.environmentsAt tgt.toNat).length ∧
          (instr.opcode.isAbruptTransfer = false → targetDepth = sourceDepth) ∧
          (instr.opcode.isAbruptTransfer = true →
            instr.operands.get 1 = targetDepth ∧ targetDepth ≤ sourceDepth) := by
      intro pc instr tgt hm ht
      have hjump := hstream.jump_start pc instr tgt hm ht
      obtain ⟨other, ho⟩ := (hstream.starts_iff tgt.toNat).mp hjump
      obtain ⟨sourceDepth, hsource, hsourceLen⟩ := hst pc instr hm
      obtain ⟨targetDepth, htargetGet, htargetLen⟩ := hst tgt.toNat other ho
      obtain ⟨_, _, hchecks⟩ := foldBody_mem hedges hm
      exact ⟨sourceDepth, targetDepth, hsourceLen, htargetLen,
        checkEdgeDepth_ok hchecks ht hsource htargetGet⟩
    constructor
    case linear =>
      intro pc instr hm
      obtain ⟨-, depth, hget, hdepth⟩ := hdepths pc instr hm
      refine ⟨depth, ?_, hdepth⟩
      simp only [linearDepthAt, hscanned, hget, Option.join_some]
    case use =>
      intro pc instr hm
      exact (hdepths pc instr hm).1
    case jump =>
      intro pc instr tgt hm ht habrupt
      obtain ⟨sourceDepth, targetDepth, hsource, htargetLen, hs, -⟩ := hedge pc instr tgt hm ht
      rw [← htargetLen, hs habrupt, hsource]
    case abrupt =>
      intro pc instr tgt hm ht habrupt
      obtain ⟨sourceDepth, targetDepth, hsource, htargetLen, -, hlower⟩ := hedge pc instr tgt hm ht
      obtain ⟨hnamed, hle⟩ := hlower habrupt
      rw [hnamed, ← htargetLen, ← hsource]
      exact ⟨rfl, UInt32.le_iff_toNat_le.mp hle⟩
    case handler =>
      intro ent he
      have hcheck := forAll_ok hhandlers ent he
      obtain ⟨handlerDepth, hvalidated⟩ := hfn.handlers
      obtain ⟨instr, hm⟩ := (startsAt_iff_mem hstream).mp
        (startsAt_of_isInstructionStart hstream (validateHandlers_entry hvalidated he).1)
      obtain ⟨depth, hget, hdepth⟩ := hst ent.handler.index.toNat instr hm
      simp only [checkHandlerDepth, environmentDepthAt, hget, bind, Except.bind] at hcheck
      split_ifs at hcheck with heq
      · cases hcheck
      · rw [← hdepth, not_not.mp heq]

end Function

end TachyonEngine.Bytecode
