import TachyonEngine.Bytecode.EnvironmentDepth
import TachyonEngine.Vm.Abrupt

/-!
# Lexical environments of a frame

A frame enters environments for class bodies and loop iterations. The fiber keeps one entry for
each of them, and the frame points at the innermost one. The verifier computes depths by reading
the words in order; a run follows jumps, handlers and finalizers. `environments_sound` says along
which transfers the two agree.
-/

namespace TachyonEngine.Vm

open Bytecode List
open Gc (RawHeapRef)

variable {ν : Type}

/-! ## Environments on the heap -/

/-- A declarative environment: its parent, and which of its slots are initialized. -/
structure LexicalEnvironment where
  parent : Option RawHeapRef
  initialized : List Bool

abbrev EnvironmentHeap := RawHeapRef → Option LexicalEnvironment

namespace EnvironmentHeap

def environmentParent (heap : EnvironmentHeap) (reference : RawHeapRef) :
    Except ExecutionError (Option RawHeapRef) :=
  match heap reference with
  | none => .error (.invalidReference reference)
  | some environment => .ok environment.parent

/-- The host that reads environments from this heap. -/
def host (heap : EnvironmentHeap) (codes : List LoadedCode) : Host :=
  { codes := codes, environmentParent := heap.environmentParent }

/-- Allocates and installs an environment at a fresh reference. -/
def enterDeclarativeEnvironment (heap : EnvironmentHeap) (fiber : Fiber ν) (slotCount : UInt32)
    (reference : RawHeapRef) : Except ExecutionError (EnvironmentHeap × Fiber ν) :=
  if slotCount = 0 then .error .environmentStorageAllocationFailed
  else
    match fiber.frames.last with
    | none => .error .missingEnvironment
    | some frame =>
      let environment : LexicalEnvironment :=
        { parent := frame.environment, initialized := List.replicate slotCount.toNat false }
      let fiber := fiber.modifyTop fun frame => { frame with environment := some reference }
      .ok (Function.update heap reference (some environment),
        { fiber with lexicalEnvironments := fiber.lexicalEnvironments ++ [fiber.frames.len] })

/-- Initializes a slot of the innermost environment. -/
def initializeLexicalEnvironment (heap : EnvironmentHeap) (fiber : Fiber ν) (slot : UInt32) :
    Except ExecutionError EnvironmentHeap :=
  if fiber.lexicalEnvironments.getLast? ≠ some fiber.frames.len then .error .missingEnvironment
  else
    match fiber.frames.last.bind (·.environment) with
    | none => .error .missingEnvironment
    | some reference =>
      match heap reference with
      | none => .error (.invalidReference reference)
      | some environment =>
        match environment.initialized[slot.toNat]? with
        | none => .error (.invalidEnvironmentSlot 0 slot.toNat)
        | some true => .error (.environmentBindingAlreadyInitialized 0 slot.toNat)
        | some false =>
          .ok (Function.update heap reference (some
            { environment with initialized := environment.initialized.set slot.toNat true }))

end EnvironmentHeap

/-! ## The environments a frame stands in -/

/-- The chain of environments from a reference, with the slot counts, the innermost first. -/
def EnvironmentChain (heap : EnvironmentHeap) : Option RawHeapRef → List Nat → Prop
  | _, [] => True
  | none, _ :: _ => False
  | some reference, size :: outer =>
    ∃ environment, heap reference = some environment ∧ environment.initialized.length = size ∧
      EnvironmentChain heap environment.parent outer

/-- The running frame has entered environments of these sizes. -/
structure StandsIn (heap : EnvironmentHeap) (fiber : Fiber ν) (sizes : List Nat) : Prop where
  depth : fiber.lexicalDepth = sizes.length
  chain : ∃ frame, fiber.frames.last = some frame ∧ EnvironmentChain heap frame.environment sizes

/-- Updates that keep sizes and parents keep chains. -/
theorem EnvironmentChain.mono {heap other : EnvironmentHeap}
    (h : ∀ ref environment, heap ref = some environment →
      ∃ environment', other ref = some environment' ∧ environment'.parent = environment.parent ∧
        environment'.initialized.length = environment.initialized.length)
    {ref : Option RawHeapRef} {sizes : List Nat}
    (hchain : EnvironmentChain heap ref sizes) : EnvironmentChain other ref sizes := by
  induction sizes generalizing ref with
  | nil => cases ref <;> exact trivial
  | cons size outer ih =>
    cases ref with
    | none => exact hchain
    | some ref =>
      obtain ⟨environment, hget, hsize, houter⟩ := hchain
      obtain ⟨environment', hget', hp, hlen⟩ := h ref environment hget
      refine ⟨environment', hget', hlen.trans hsize, ?_⟩
      rw [hp]
      exact ih houter

namespace Fiber

variable {fiber : Fiber ν}

theorem modifyTop_last {frame : Frame} (h : fiber.frames.last = some frame) (f : Frame → Frame) :
    (fiber.modifyTop f).frames.last = some (f frame) := by
  obtain ⟨rest, hes⟩ := getLast?_eq_some_iff.mp h
  rw [Stack.last, modifyTop_entries hes, getLast?_concat]

theorem modifyTop_len (fiber : Fiber ν) (f : Frame → Frame) :
    (fiber.modifyTop f).frames.len = fiber.frames.len := by
  simp only [modifyTop, Stack.len, length_modify]

/-- The innermost entry is of the running frame exactly when it has entered an environment. -/
theorem lexicalDepth_pos :
    0 < fiber.lexicalDepth ↔ fiber.lexicalEnvironments.getLast? = some fiber.frames.len := by
  rcases eq_nil_or_concat fiber.lexicalEnvironments with hnil | ⟨rest, last, hl⟩
  · simp [lexicalDepth, hnil]
  · by_cases hown : last = fiber.frames.len
    · simp [lexicalDepth, hl, hown]
    · simp [lexicalDepth, hl, hown]

end Fiber

namespace StandsIn

variable {heap : EnvironmentHeap} {fiber : Fiber ν} {size : Nat} {outer sizes : List Nat}

/-- A frame that stands in an environment can leave it. -/
theorem leave (h : StandsIn heap fiber (size :: outer)) (codes : List LoadedCode) :
    ∃ post, fiber.leaveLexicalEnvironment (heap.host codes) = .ok post ∧
      StandsIn heap post outer ∧ post.lexicalDepth + 1 = fiber.lexicalDepth := by
  obtain ⟨frame, hfr, hchain⟩ := h.chain
  have hpos : 0 < fiber.lexicalDepth := by
    rw [h.depth]
    exact Nat.succ_pos _
  have hl := Fiber.lexicalDepth_pos.mp hpos
  cases henv : frame.environment with
  | none =>
    rw [henv] at hchain
    exact absurd hchain id
  | some ref =>
    rw [henv] at hchain
    obtain ⟨environment, hget, -, houter⟩ := hchain
    have hp : (heap.host codes).environmentParent ref = .ok environment.parent := by
      simp only [EnvironmentHeap.host, EnvironmentHeap.environmentParent, hget]
    have hleave : fiber.leaveLexicalEnvironment (heap.host codes) =
        .ok { fiber.modifyTop fun frame => { frame with environment := environment.parent } with
          lexicalEnvironments := fiber.lexicalEnvironments.dropLast } := by
      simp only [Fiber.leaveLexicalEnvironment, hl, hfr, Option.bind_some, henv, hp, ne_eq]
      rfl
    have hdepth : (fiber.lexicalEnvironments.dropLast.rtakeWhile
        (· == fiber.frames.len)).length + 1 = fiber.lexicalDepth := by
      obtain ⟨rest, hrest⟩ := getLast?_eq_some_iff.mp hl
      simp [Fiber.lexicalDepth, hrest]
    have ha : (Fiber.lexicalDepth { fiber.modifyTop fun frame =>
        { frame with environment := environment.parent } with
          lexicalEnvironments := fiber.lexicalEnvironments.dropLast }) + 1 =
            fiber.lexicalDepth := by
      rw [← hdepth]
      simp only [Fiber.lexicalDepth, Fiber.modifyTop_len]
    refine ⟨_, hleave, ⟨?_, ?_⟩, ha⟩
    · have hsizes := h.depth
      rw [← ha] at hsizes
      exact Nat.succ.inj hsizes
    · exact ⟨_, Fiber.modifyTop_last hfr _, houter⟩

section

variable (h : StandsIn heap fiber sizes)

include h

theorem leaves (codes : List LoadedCode) (cnt : Nat) (hle : cnt ≤ sizes.length) :
    ∃ post, fiber.leaveLexicalEnvironments (heap.host codes) cnt = .ok post ∧
      StandsIn heap post (sizes.drop cnt) := by
  induction cnt generalizing fiber sizes with
  | zero => exact ⟨fiber, rfl, h⟩
  | succ cnt ih =>
    cases sizes with
    | nil => exact absurd hle (Nat.not_succ_le_zero _)
    | cons size outer =>
      obtain ⟨left, hl, hstands, -⟩ := h.leave codes
      obtain ⟨post, ha, hdrop⟩ := ih hstands (Nat.le_of_succ_le_succ hle)
      refine ⟨post, ?_, hdrop⟩
      simp only [Fiber.leaveLexicalEnvironments, hl, ha]

variable {tgt : Nat}

/-- The depth of a handler or a target is restored exactly when it is not greater. -/
theorem restore (codes : List LoadedCode) (hle : tgt ≤ sizes.length) :
    ∃ post, fiber.restoreLexicalEnvironmentDepth (heap.host codes) tgt = .ok post ∧
      StandsIn heap post (sizes.drop (sizes.length - tgt)) := by
  obtain ⟨post, ha, hstands⟩ := h.leaves codes (sizes.length - tgt) (Nat.sub_le _ _)
  refine ⟨post, ?_, hstands⟩
  have hnot : ¬fiber.lexicalDepth < tgt := by
    rw [h.depth]
    exact not_lt.mpr hle
  rw [Fiber.restoreLexicalEnvironmentDepth, if_neg hnot, h.depth, ha]

theorem restore_iff (codes : List LoadedCode) :
    (∃ post, fiber.restoreLexicalEnvironmentDepth (heap.host codes) tgt = .ok post) ↔
      tgt ≤ sizes.length := by
  constructor
  · rintro ⟨post, ha⟩
    by_contra hlt
    have hless : fiber.lexicalDepth < tgt := by
      rw [h.depth]
      exact Nat.lt_of_not_le hlt
    rw [Fiber.restoreLexicalEnvironmentDepth, if_pos hless] at ha
    cases ha
  · intro hle
    obtain ⟨post, ha, -⟩ := h.restore codes hle
    exact ⟨post, ha⟩

variable {heap' : EnvironmentHeap}

/-- An environment at a fresh reference becomes the innermost one. -/
theorem enter {slotCount : UInt32} {ref : RawHeapRef} {post : Fiber ν} (hfresh : heap ref = none)
    (henter : heap.enterDeclarativeEnvironment fiber slotCount ref = .ok (heap', post)) :
    StandsIn heap' post (slotCount.toNat :: sizes) := by
  obtain ⟨frame, hfr, hchain⟩ := h.chain
  simp only [EnvironmentHeap.enterDeclarativeEnvironment, hfr] at henter
  split_ifs at henter
  cases henter
  have hkeeps : ∀ other environment, heap other = some environment →
      ∃ environment', Function.update heap ref (some
        { parent := frame.environment
          initialized := replicate slotCount.toNat false }) other = some environment' ∧
        environment'.parent = environment.parent ∧
        environment'.initialized.length = environment.initialized.length := by
    intro other environment ho
    have hne : other ≠ ref := by
      rintro rfl
      rw [hfresh] at ho
      cases ho
    exact ⟨environment, by rw [Function.update_of_ne hne, ho], rfl, rfl⟩
  refine ⟨?_, { frame with environment := some ref }, Fiber.modifyTop_last hfr _, ?_⟩
  · have hdepth := h.depth
    simp only [Fiber.lexicalDepth] at hdepth
    simp only [Fiber.lexicalDepth, Fiber.modifyTop_len]
    rw [show (fiber.modifyTop fun frame =>
      { frame with environment := some ref }).lexicalEnvironments =
        fiber.lexicalEnvironments from rfl, rtakeWhile_concat_pos _ _ _ (by simp),
      length_append, hdepth]
    rfl
  · refine ⟨_, Function.update_self _ _ _, length_replicate, ?_⟩
    exact hchain.mono hkeeps

/-- Initializing a slot keeps the environments. -/
theorem initializeSlot {slot : UInt32} (hsl : heap.initializeLexicalEnvironment fiber slot = .ok
    heap') : StandsIn heap' fiber sizes := by
  obtain ⟨frame, hfr, hchain⟩ := h.chain
  refine ⟨h.depth, frame, hfr, ?_⟩
  simp only [EnvironmentHeap.initializeLexicalEnvironment] at hsl
  split_ifs at hsl
  split at hsl
  · cases hsl
  next ref _ =>
    split at hsl
    · cases hsl
    next environment hget =>
      split at hsl
      · cases hsl
      · cases hsl
      · cases hsl
        refine hchain.mono ?_
        intro other found ho
        by_cases heq : other = ref
        · subst heq
          rw [hget] at ho
          cases ho
          exact ⟨_, Function.update_self _ _ _, rfl, length_set⟩
        · exact ⟨found, by rw [Function.update_of_ne heq, ho], rfl, rfl⟩

end

/-- The innermost environment of the frame. -/
theorem top (h : StandsIn heap fiber (size :: outer)) :
    ∃ frame ref environment, fiber.frames.last = some frame ∧
      frame.environment = some ref ∧ heap ref = some environment ∧
      environment.initialized.length = size := by
  obtain ⟨frame, hfr, hchain⟩ := h.chain
  cases henv : frame.environment with
  | none =>
    rw [henv] at hchain
    exact absurd hchain id
  | some ref =>
    rw [henv] at hchain
    obtain ⟨environment, hget, hsize, -⟩ := hchain
    exact ⟨frame, ref, environment, hfr, henv, hget, hsize⟩

end StandsIn

/-! ## Paths through a function -/

/-- A frame at an instruction. -/
structure EnvironmentState (ν : Type) where
  pc : Nat
  heap : EnvironmentHeap
  fiber : Fiber ν

/-- The environments at the target are among those at the source: the target is reached without
a change of the environments. -/
def SameEnvironments (fn : CompiledFunction) (source target : Nat) : Prop :=
  List.Forall₂ (· ≤ ·) (fn.environmentsAt target) (fn.environmentsAt source)

/-- The environments at the target are among the outer ones at the source: the target is reached
by leaving inner environments. -/
def OuterEnvironments (fn : CompiledFunction) (source target : Nat) : Prop :=
  List.Forall₂ (· ≤ ·) (fn.environmentsAt target) ((fn.environmentsAt source).drop
      ((fn.environmentsAt source).length - (fn.environmentsAt target).length))

/-- One transfer of control in a frame. A jump and the normal entry of a finalizer keep the
environments; a break, its replay behind a finalizer and the entry of a handler restore the depth
of their target. Each transfer meets the condition on the environments at its two ends. -/
inductive EnvironmentStep (fn : CompiledFunction) (codes : List LoadedCode) :
    EnvironmentState ν → EnvironmentState ν → Prop where
  | enter {state : EnvironmentState ν} {instruction : DecodedInstruction} {reference : RawHeapRef}
      {heap : EnvironmentHeap} {fiber : Fiber ν}
      (decodes : decodeAt fn.words state.pc = .ok instruction)
      (enters : instruction.opcode.entersEnvironment = true)
      (fresh : state.heap reference = none)
      (entered : state.heap.enterDeclarativeEnvironment state.fiber (instruction.operands.get 0)
        reference = .ok (heap, fiber)) :
      EnvironmentStep fn codes state ⟨state.pc + instruction.length, heap, fiber⟩
  | leave {state : EnvironmentState ν} {instruction : DecodedInstruction} {fiber : Fiber ν}
      (decodes : decodeAt fn.words state.pc = .ok instruction)
      (leaves : instruction.opcode.leavesEnvironment = true)
      (left : state.fiber.leaveLexicalEnvironment (state.heap.host codes) = .ok fiber) :
      EnvironmentStep fn codes state ⟨state.pc + instruction.length, state.heap, fiber⟩
  | initializeSlot {state : EnvironmentState ν} {instruction : DecodedInstruction}
      {heap : EnvironmentHeap}
      (decodes : decodeAt fn.words state.pc = .ok instruction)
      (initializes : instruction.opcode.initializesEnvironment = true)
      (initialized : state.heap.initializeLexicalEnvironment state.fiber
        (instruction.operands.get 1) =
        .ok heap) :
      EnvironmentStep fn codes state ⟨state.pc + instruction.length, heap, state.fiber⟩
  | fallThrough {state : EnvironmentState ν} {instruction : DecodedInstruction}
      (decodes : decodeAt fn.words state.pc = .ok instruction)
      (ordinary : instruction.opcode.isTerminal = false)
      (enters : instruction.opcode.entersEnvironment = false)
      (leaves : instruction.opcode.leavesEnvironment = false)
      (initializes : instruction.opcode.initializesEnvironment = false) :
      EnvironmentStep fn codes state ⟨state.pc + instruction.length, state.heap, state.fiber⟩
  | jump {state : EnvironmentState ν} {instruction : DecodedInstruction} {target : UInt32}
      (decodes : decodeAt fn.words state.pc = .ok instruction)
      (targets : jumpTarget instruction.opcode instruction.operands = some target)
      (ordinary : instruction.opcode.isAbruptTransfer = false)
      (safe : SameEnvironments fn state.pc target.toNat) :
      EnvironmentStep fn codes state ⟨target.toNat, state.heap, state.fiber⟩
  | enterFinally {state : EnvironmentState ν} {instruction : DecodedInstruction}
      {entry : HandlerEntry}
      (decodes : decodeAt fn.words state.pc = .ok instruction)
      (enters : instruction.opcode = .enterFinally)
      (entry_mem : entry ∈ fn.metadata.handlers)
      (covers : entry.covers (WordOffset.new state.pc) = true)
      (safe : SameEnvironments fn state.pc entry.handler.index.toNat) :
      EnvironmentStep fn codes state ⟨entry.handler.index.toNat, state.heap, state.fiber⟩
  | transfer {state : EnvironmentState ν} {instruction : DecodedInstruction} {target : UInt32}
      {fiber : Fiber ν}
      (decodes : decodeAt fn.words state.pc = .ok instruction)
      (targets : jumpTarget instruction.opcode instruction.operands = some target)
      (abrupt : instruction.opcode.isAbruptTransfer = true)
      (restored : state.fiber.restoreLexicalEnvironmentDepth (state.heap.host codes)
        (instruction.operands.get 1).toNat = .ok fiber)
      (safe : OuterEnvironments fn state.pc target.toNat) :
      EnvironmentStep fn codes state ⟨target.toNat, state.heap, fiber⟩
  | replay {state : EnvironmentState ν} {origin : Nat} {resume instruction : DecodedInstruction}
      {target : UInt32} {fiber : Fiber ν}
      (resumes : decodeAt fn.words state.pc = .ok resume)
      (opcode : resume.opcode = .resumeCompletion)
      (starts : fn.StartsAt origin)
      (decodes : decodeAt fn.words origin = .ok instruction)
      (targets : jumpTarget instruction.opcode instruction.operands = some target)
      (abrupt : instruction.opcode.isAbruptTransfer = true)
      (restored : state.fiber.restoreLexicalEnvironmentDepth (state.heap.host codes)
        (instruction.operands.get 1).toNat = .ok fiber)
      (safe : OuterEnvironments fn state.pc target.toNat) :
      EnvironmentStep fn codes state ⟨target.toNat, state.heap, fiber⟩
  | handler {state : EnvironmentState ν} {entry : HandlerEntry} {fiber : Fiber ν}
      (entry_mem : entry ∈ fn.metadata.handlers)
      (covers : entry.covers (WordOffset.new state.pc) = true)
      (restored : state.fiber.restoreLexicalEnvironmentDepth (state.heap.host codes)
        entry.environmentDepth.toNat = .ok fiber)
      (safe : OuterEnvironments fn state.pc entry.handler.index.toNat) :
      EnvironmentStep fn codes state ⟨entry.handler.index.toNat, state.heap, fiber⟩

/-- The frame stands in environments that are at least as large as the linear ones. -/
def Fits (slots : List UInt32) (sizes : List Nat) : Prop :=
  List.Forall₂ (fun slot size => slot.toNat ≤ size) slots sizes

/-- The outer environments are not more than those at the source. -/
theorem OuterEnvironments.length_le {fn : CompiledFunction} {source target : Nat}
    (h : OuterEnvironments fn source target) :
    (fn.environmentsAt target).length ≤ (fn.environmentsAt source).length := by
  have hlen := List.Forall₂.length_eq h
  rw [length_drop] at hlen
  omega

namespace Fits

variable {slots outer : List UInt32} {sizes : List Nat}

theorem of_le (hfits : Fits slots sizes) (h : List.Forall₂ (· ≤ ·) outer slots) :
    Fits outer sizes := by
  induction h generalizing sizes with
  | nil => exact hfits
  | cons hle _ ih =>
    cases hfits with
    | cons hsize hrest =>
      exact .cons (le_trans (UInt32.le_iff_toNat_le.mp hle) hsize) (ih hrest)

/-- Restoring the depth of the outer environments leaves sizes that fit them. -/
theorem restore (hfits : Fits slots sizes)
    (h : List.Forall₂ (· ≤ ·) outer (slots.drop (slots.length - outer.length))) :
    Fits outer (sizes.drop (sizes.length - outer.length)) := by
  rw [← List.Forall₂.length_eq hfits]
  exact of_le (forall₂_drop _ hfits) h

end Fits

/-- What holds of a frame at an instruction: it stands in environments that fit the linear ones. -/
structure EnvironmentsFit (fn : CompiledFunction) (state : EnvironmentState ν) : Prop where
  starts : fn.StartsAt state.pc
  stands : ∃ sizes, StandsIn state.heap state.fiber sizes ∧ Fits (fn.environmentsAt state.pc) sizes

section Function

variable {fn : CompiledFunction} {codes : List LoadedCode}
  {trace : List (Nat × DecodedInstruction)}

variable {st : EnvironmentState ν}

/-- A transfer that restores the depth of its target. -/
theorem EnvironmentsFit.restored {tgt depth : Nat} {fiber : Fiber ν} (h : EnvironmentsFit fn st)
    (hst : fn.StartsAt tgt) (hdepth : depth = (fn.environmentsAt tgt).length) (hrestored :
    st.fiber.restoreLexicalEnvironmentDepth (st.heap.host codes) depth = .ok fiber) (hsafe :
    OuterEnvironments fn st.pc tgt) : EnvironmentsFit fn ⟨tgt, st.heap, fiber⟩ := by
  obtain ⟨sizes, hstands, hfits⟩ := h.stands
  have hle := (hstands.restore_iff codes).mp ⟨fiber, hrestored⟩
  obtain ⟨post, ha, hdrop⟩ := hstands.restore codes hle
  rw [hrestored] at ha
  cases ha
  refine ⟨hst, _, hdrop, ?_⟩
  rw [hdepth]
  exact hfits.restore hsafe

theorem EnvironmentsFit.step {pre post : EnvironmentState ν}
    (hfn : CheckedFunction fn) (hst : VerifiedStream fn.bytecode trace)
    (h : EnvironmentsFit fn pre) (hstep : EnvironmentStep fn codes pre post) :
    EnvironmentsFit fn post := by
  have hcheck := environmentsChecked hfn hst
  obtain ⟨sizes, hstands, hfits⟩ := h.stands
  -- behind an instruction that is not terminal stands another one
  have hn : ∀ instr, decodeAt fn.words pre.pc = .ok instr → instr.opcode.isTerminal = false →
      fn.StartsAt (pre.pc + instr.length) ∧ fn.environmentsAt (pre.pc + instr.length) =
          environmentsAfter instr (fn.environmentsAt pre.pc) := by
    intro instr hdec hop
    have hm := mem_of_decodeAt hst h.starts hdec
    exact ⟨startsAt_fallThrough hst hm hop, environmentsAt_next hst hm⟩
  cases hstep with
  | @enter instr ref heap fiber hdec henters hfr hentered =>
    have hop : instr.opcode.isTerminal = false := by
      rcases Opcode.entersEnvironment_cases henters with heq | heq <;> rw [heq] <;> rfl
    obtain ⟨hstart, henvs⟩ := hn instr hdec hop
    refine ⟨hstart, _, hstands.enter hfr hentered, ?_⟩
    rw [henvs, environmentsAfter, if_pos henters]
    exact .cons (le_refl _) hfits
  | @leave instr fiber hdec hleaves hl =>
    have hop : instr.opcode.isTerminal = false := by
      rcases Opcode.leavesEnvironment_cases hleaves with heq | heq <;> rw [heq] <;> rfl
    obtain ⟨hstart, henvs⟩ := hn instr hdec hop
    rw [environmentsAfter, (Opcode.leavesEnvironment_only hleaves).1, if_pos hleaves] at henvs
    have hm := mem_of_decodeAt hst h.starts hdec
    have hne := (hcheck.use _ _ hm).leaves hleaves
    cases hslots : fn.environmentsAt pre.pc with
    | nil => exact absurd hslots hne
    | cons slot outer =>
      rw [hslots] at hfits henvs
      cases hfits with
      | cons hsize hrest =>
        obtain ⟨left, hleave, houter, -⟩ := hstands.leave codes
        rw [hl] at hleave
        cases hleave
        refine ⟨hstart, _, houter, ?_⟩
        rw [henvs]
        exact hrest
  | @initializeSlot instr heap hdec hinitializes hinitialized =>
    have hop : instr.opcode.isTerminal = false := by
      rcases Opcode.initializesEnvironment_cases hinitializes with heq | heq <;> rw [heq] <;> rfl
    obtain ⟨hstart, henvs⟩ := hn instr hdec hop
    obtain ⟨henter, hleave⟩ := Opcode.initializesEnvironment_only hinitializes
    rw [environmentsAfter, henter, hleave] at henvs
    refine ⟨hstart, sizes, hstands.initializeSlot hinitialized, ?_⟩
    rw [henvs]
    exact hfits
  | @fallThrough instr hdec hordinary henter hleave hobject =>
    obtain ⟨hstart, henvs⟩ := hn instr hdec hordinary
    rw [environmentsAfter, henter, hleave] at henvs
    refine ⟨hstart, sizes, hstands, ?_⟩
    rw [henvs]
    exact hfits
  | jump hdec ht hordinary hsafe =>
    exact ⟨startsAt_jump hst h.starts hdec ht, sizes, hstands, hfits.of_le hsafe⟩
  | enterFinally hdec henters he hcovers hsafe =>
    obtain ⟨depth, hhandlers⟩ := hfn.handlers
    exact ⟨startsAt_of_isInstructionStart hst (validateHandlers_entry hhandlers he).1,
      sizes, hstands, hfits.of_le hsafe⟩
  | transfer hdec ht habrupt hrestored hsafe =>
    have hm := mem_of_decodeAt hst h.starts hdec
    exact h.restored (startsAt_jump hst h.starts hdec ht)
      (hcheck.abrupt _ _ _ hm ht habrupt).1 hrestored hsafe
  | replay hresumes hop hstarts hdec ht habrupt hrestored hsafe =>
    have hm := mem_of_decodeAt hst hstarts hdec
    exact h.restored (startsAt_jump hst hstarts hdec ht)
      (hcheck.abrupt _ _ _ hm ht habrupt).1 hrestored hsafe
  | handler he hcovers hrestored hsafe =>
    obtain ⟨depth, hhandlers⟩ := hfn.handlers
    exact h.restored (startsAt_of_isInstructionStart hst (validateHandlers_entry hhandlers he).1)
      (hcheck.handler _ he) hrestored hsafe

theorem EnvironmentsFit.run {start : EnvironmentState ν} (hfn : CheckedFunction fn) (hst :
    VerifiedStream fn.bytecode trace) (hstart : EnvironmentsFit fn start) (hrun :
    Relation.ReflTransGen (EnvironmentStep fn codes) start st) : EnvironmentsFit fn st := by
  induction hrun with
  | refl => exact hstart
  | tail _ hstep ih => exact ih.step hfn hst hstep

/-- A frame at the first instruction stands in no environment. -/
theorem EnvironmentsFit.start {start : EnvironmentState ν}
    (hst : VerifiedStream fn.bytecode trace) (hpc : start.pc = 0)
    (hfr : ∃ frame, start.fiber.frames.last = some frame)
    (hdepth : start.fiber.lexicalDepth = 0) : EnvironmentsFit fn start := by
  obtain ⟨frame, hl⟩ := hfr
  refine ⟨?_, [], ⟨hdepth, frame, hl, ?_⟩, ?_⟩
  · rw [hpc]
    exact startsAt_zero hst
  · cases frame.environment <;> exact trivial
  · rw [hpc]
    exact .nil

end Function

/-- In every function of a built module, along every path from the first instruction whose
transfers go to environments that are among those at their source: the frame has entered as many
environments as the verifier counted, an environment is left only when one is there, a slot is
initialized inside the environment on top, a handler can be entered exactly when its depth is not
greater than the one the verifier counted, and that is so for every handler of the instruction that
stands in outer environments of it. -/
theorem environments_sound (source : String) (constants : List BytecodeConstant)
    (scopeNames : List String) (templates : List CompiledFunctionTemplate)
    (entryFunction : FunctionId) (mdl : CompiledModule)
    (hnew : CompiledModule.new source constants scopeNames templates entryFunction = .ok mdl)
    (fn : CompiledFunction) (hfn : fn ∈ mdl.functions)
    (codes : List LoadedCode) (start st : EnvironmentState ν) (hpc : start.pc = 0)
    (hfr : ∃ frame, start.fiber.frames.last = some frame) (hdepth : start.fiber.lexicalDepth = 0)
    (hrun : Relation.ReflTransGen (EnvironmentStep fn codes) start st) :
    ∃ depth, linearDepthAt fn st.pc = some depth ∧ st.fiber.lexicalDepth = depth.toNat ∧
      (∀ instr, decodeAt fn.words st.pc = .ok instr → instr.opcode.leavesEnvironment = true →
        ∃ fiber, st.fiber.leaveLexicalEnvironment (st.heap.host codes) = .ok fiber) ∧
      (∀ instr, decodeAt fn.words st.pc = .ok instr → instr.opcode.initializesEnvironment = true →
        ∃ frame ref environment, st.fiber.frames.last = some frame ∧
          frame.environment = some ref ∧ st.heap ref = some environment ∧
          instr.operands[1].toNat < environment.initialized.length) ∧
      ∀ ent ∈ fn.metadata.handlers,
        ((∃ fiber, st.fiber.restoreLexicalEnvironmentDepth (st.heap.host codes)
          ent.environmentDepth.toNat = .ok fiber) ↔ ent.environmentDepth ≤ depth) ∧
        (ent.covers (WordOffset.new st.pc) = true →
          OuterEnvironments fn st.pc ent.handler.index.toNat → ent.environmentDepth ≤ depth) := by
  have hcheck := new_functions hnew fn hfn
  obtain ⟨bytecode, ctx, hverify⟩ := hcheck.verified
  obtain ⟨-, trace, hst⟩ := verify_stream hverify
  have henvs := environmentsChecked hcheck hst
  have hfit := (EnvironmentsFit.start hst hpc hfr hdepth).run hcheck hst hrun
  obtain ⟨sizes, hstands, hfits⟩ := hfit.stands
  obtain ⟨cur, hcur⟩ := (startsAt_iff_mem hst).mp hfit.starts
  obtain ⟨depth, hlinear, hlen⟩ := henvs.linear _ _ hcur
  have hsizes : sizes.length = depth.toNat := by rw [hlen, List.Forall₂.length_eq hfits]
  refine ⟨depth, hlinear, hstands.depth.trans hsizes, ?_, ?_, ?_⟩
  · intro instr hdec hleaves
    have hm := mem_of_decodeAt hst hfit.starts hdec
    have hne := (henvs.use _ _ hm).leaves hleaves
    cases sizes with
    | nil =>
      have hnil := List.Forall₂.length_eq hfits
      exact absurd (length_eq_zero_iff.mp hnil) hne
    | cons size outer =>
      obtain ⟨post, hleave, -⟩ := hstands.leave codes
      exact ⟨post, hleave⟩
  · intro instr hdec hinitializes
    have hm := mem_of_decodeAt hst hfit.starts hdec
    obtain ⟨slotCount, outer, hslots, hsl⟩ := (henvs.use _ _ hm).initializes hinitializes
    rw [hslots] at hfits
    cases hfits with
    | cons hsize _ =>
      obtain ⟨frame, ref, environment, hl, href, hget, hsizeEq⟩ := hstands.top
      refine ⟨frame, ref, environment, hl, href, hget, ?_⟩
      rw [hsizeEq]
      exact lt_of_lt_of_le (UInt32.lt_iff_toNat_lt.mp hsl) hsize
  · intro ent he
    refine ⟨?_, fun _ houter => ?_⟩
    · rw [hstands.restore_iff codes, hsizes]
      exact UInt32.le_iff_toNat_le.symm
    · rw [UInt32.le_iff_toNat_le, henvs.handler ent he, hlen]
      exact houter.length_le

/-- A script of the given code. -/
def environmentTemplate (words : List UInt32) (handlers : List HandlerEntry) :
    CompiledFunctionTemplate :=
  { id := ⟨0⟩
    bytecode := ⟨words⟩
    metadata :=
      { kind := .script, role := .ordinary, strictness := .sloppy
        layout := { registerCount := 1, maxHandlerDepth := 1 }
        sourceMap := [], handlers := handlers, suspendPoints := []
        feedbackSites := [], bindingPlan := [], environmentSlots := [] }
    sourceRange := .unavailable }

def environmentFunction (words : List UInt32) (starts : List Bool) (handlers : List HandlerEntry) :
    CompiledFunction :=
  { id := ⟨0⟩
    bytecode := ⟨⟨words⟩, starts⟩
    metadata := (environmentTemplate words handlers).metadata
    sourceRange := .unavailable }

/-- The first instruction throws outside of the environment in which its handler stands. -/
def deepHandler : HandlerEntry :=
  { protectedStart := ⟨0⟩, protectedEnd := ⟨1⟩, handler := ⟨3⟩, handlerEnd := ⟨3⟩, kind := .catch_
    environmentDepth := 1 }

def deepFunction : CompiledFunction :=
  environmentFunction [12, 231, 1, 233, 46] [true, true, false, true, true] [deepHandler]

/-- The function that enters an environment with one slot, leaves it and returns. -/
def scopedFunction : CompiledFunction :=
  environmentFunction [231, 1, 233, 46] [true, false, true, true] []

/-- Where the heap puts a new environment. -/
def freshReference : RawHeapRef := ⟨0, Gc.firstOffset⟩

/-- The entry state of a script. -/
def scriptEntry : EnvironmentState Unit :=
  { pc := 0, heap := fun _ => none, fiber := scriptFiber ⟨0⟩ [] [] }

theorem new_scopedFunction :
    CompiledModule.new "" [] [] [environmentTemplate [231, 1, 233, 46] []] ⟨0⟩ =
      .ok { source := "", constants := [], scopeNames := [], functions := [scopedFunction]
            entryFunction := ⟨0⟩ } := by rfl

theorem new_deepFunction :
    CompiledModule.new "" [] [] [environmentTemplate [12, 231, 1, 233, 46] [deepHandler]] ⟨0⟩ =
      .ok { source := "", constants := [], scopeNames := [], functions := [deepFunction]
            entryFunction := ⟨0⟩ } := by rfl

/-- The environment that was entered can be left. -/
theorem environments_sound_scopedFunction :
    ∃ st : EnvironmentState Unit, st.pc = 2 ∧
      Relation.ReflTransGen (EnvironmentStep scopedFunction []) scriptEntry st ∧
      st.fiber.lexicalDepth = 1 ∧
      ∃ fiber, st.fiber.leaveLexicalEnvironment (st.heap.host []) = .ok fiber := by
  have hfr : scriptEntry.heap freshReference = none := rfl
  have hrun : Relation.ReflTransGen (EnvironmentStep scopedFunction []) scriptEntry _ :=
    .single (.enter rfl rfl hfr rfl)
  obtain ⟨depth, hlinear, hdepth, hleave, -⟩ := environments_sound _ _ _ _ _ _ new_scopedFunction
    scopedFunction mem_cons_self [] _ _ rfl ⟨_, rfl⟩ rfl hrun
  refine ⟨_, rfl, hrun, ?_, hleave _ rfl rfl⟩
  cases hlinear
  exact hdepth

/-- The handler covers the throw and needs an environment that was not entered. -/
theorem not_environments_sound_deepFunction :
    ∃ mdl, CompiledModule.new "" [] []
        [environmentTemplate [12, 231, 1, 233, 46] [deepHandler]] ⟨0⟩ = .ok mdl ∧
      deepFunction ∈ mdl.functions ∧ deepHandler ∈ deepFunction.metadata.handlers ∧
      deepHandler.covers (WordOffset.new scriptEntry.pc) = true ∧
      scriptEntry.fiber.lexicalDepth = 0 ∧
      scriptEntry.fiber.restoreLexicalEnvironmentDepth (scriptEntry.heap.host [])
        deepHandler.environmentDepth.toNat = .error .missingEnvironment :=
  ⟨_, new_deepFunction, mem_cons_self, mem_cons_self, rfl, rfl, rfl⟩

end TachyonEngine.Vm
