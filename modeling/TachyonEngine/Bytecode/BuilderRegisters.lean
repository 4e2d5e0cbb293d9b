import TachyonEngine.Bytecode.BuilderLayout

/-!
# The register count of a builder against the register checks

The builder counts the registers that an instruction uses, the verifier checks them against that
count, and each has a table of its own. The tables agree except on five opcodes, where the verifier
checks an operand or the register behind one that the builder leaves out, and the builder counts
nothing for an abrupt jump, whatever its opcode: `RegistersCovered` and `AbruptCovered` say what the
count has to exceed there. Where the code decodes to the emitted instructions, its register checks
pass exactly when both hold of each of them (`passesRegisterChecks_iff`).
-/

namespace TachyonEngine.Bytecode

open Lib Lib.MachineWord Lib.CodeStream

/-! ## Failures of the register checks -/

/-- The two errors of the register checks. -/
def VerifyError.isRegisterFailure : VerifyError → Bool
  | .registerOutOfRange .. | .invalidCallArgumentWindow .. => true
  | _ => false

def RegisterFailure {α : Type} (result : Except VerifyError α) : Prop :=
  ∃ err, result = .error err ∧ err.isRegisterFailure

section Checks

variable {ctx : VerifyContext} {off : WordOffset}

variable {α : Type}

theorem not_registerFailure_ok {a : α} : ¬ RegisterFailure (.ok a) := by
  rintro ⟨err, herr, -⟩
  cases herr

variable {err : VerifyError}

theorem not_registerFailure_error (h : err.isRegisterFailure = false) :
    ¬ RegisterFailure (.error err : Except VerifyError α) := by
  rintro ⟨other, ho, hfailure⟩
  cases ho
  rw [h] at hfailure
  cases hfailure

variable {condition : Prop}

theorem not_registerFailure_else [Decidable condition] {other : Except VerifyError Unit} (h :
    err.isRegisterFailure = false) (hother : ¬ RegisterFailure other) :
    ¬ RegisterFailure (if condition then .error err else other) := by
  split
  · exact not_registerFailure_error h
  · exact hother

theorem not_registerFailure_ite [Decidable condition] (h : err.isRegisterFailure = false) :
    ¬ RegisterFailure (if condition then .error err else .ok () : Except VerifyError Unit) :=
  not_registerFailure_else h not_registerFailure_ok

variable {rest : Unit → Except VerifyError Unit}

variable {first : Except VerifyError Unit}

theorem registerFailure_bind :
    RegisterFailure (first >>= rest) ↔ RegisterFailure first ∨ first = .ok () ∧ RegisterFailure
    (rest ()) := by
  rcases first with err | ⟨⟩
  · constructor
    · exact .inl
    · rintro (h | ⟨hok, -⟩)
      · exact h
      · cases hok
  · constructor
    · exact fun h => .inr ⟨rfl, h⟩
    · rintro (h | ⟨-, h⟩)
      · exact absurd h not_registerFailure_ok
      · exact h

theorem not_registerFailure_bind (hfirst : ¬ RegisterFailure first) (hrest : ¬ RegisterFailure (rest
    ())) : ¬ RegisterFailure (first >>= rest) := by
  rw [registerFailure_bind]
  rintro (h | ⟨-, h⟩)
  · exact hfirst h
  · exact hrest h

variable {register : UInt32}

/-- A register check behind a check that passes, or fails as one. -/
theorem registerFailure_of_check (hrest : RegisterFailure (rest ())) :
    RegisterFailure (checkRegister ctx off register >>= rest) := by
  rw [registerFailure_bind]
  by_cases hlt : register < ctx.registerCount
  · exact .inr ⟨if_pos hlt, hrest⟩
  · exact .inl ⟨_, if_neg hlt, rfl⟩

theorem check_of_not_bind (h : ¬ RegisterFailure (checkRegister ctx off register >>= rest)) :
    register.toNat < ctx.registerCount.toNat ∧ ¬ RegisterFailure (rest ()) := by
  rw [registerFailure_bind, not_or, not_and] at h
  by_cases hlt : register < ctx.registerCount
  · exact ⟨UInt32.lt_iff_toNat_lt.mp hlt, h.2 (if_pos hlt)⟩
  · exact absurd ⟨_, if_neg hlt, rfl⟩ h.1

theorem not_registerFailure_check (h : register.toNat < ctx.registerCount.toNat) :
    ¬ RegisterFailure (checkRegister ctx off register) := by
  have hlt : register < ctx.registerCount := UInt32.lt_iff_toNat_lt.mpr h
  rw [checkRegister, if_pos hlt]
  exact not_registerFailure_ok

theorem registerFailure_check (h : ¬ register.toNat < ctx.registerCount.toNat) :
    RegisterFailure (checkRegister ctx off register) :=
  ⟨_, if_neg fun hlt => h (UInt32.lt_iff_toNat_lt.mp hlt), rfl⟩

/-- The computed register is one that the limit exceeds. -/
def ComputedBelow (limit : UInt32) (register : Option UInt32) : Prop :=
  ∃ computed, register = some computed ∧ computed.toNat < limit.toNat

theorem not_registerFailure_computed {register : Option UInt32}
    (h : ComputedBelow ctx.registerCount register) :
    ¬ RegisterFailure (checkComputedRegister ctx off register) := by
  obtain ⟨computed, rfl, hlt⟩ := h
  exact not_registerFailure_check hlt

theorem registerFailure_computed {register : Option UInt32}
    (h : ¬ ComputedBelow ctx.registerCount register) :
    RegisterFailure (checkComputedRegister ctx off register) := by
  cases register with
  | none => exact ⟨_, rfl, rfl⟩
  | some computed => exact registerFailure_check fun hlt => h ⟨computed, rfl, hlt⟩

variable {last : Option UInt32}

theorem windowOutOfRange_iff :
    windowOutOfRange ctx last = true ↔ ¬ ComputedBelow ctx.registerCount last := by
  cases last with
  | none => exact iff_of_true rfl (by rintro ⟨_, hn, -⟩; cases hn)
  | some register =>
    simp only [windowOutOfRange, decide_eq_true_eq, ComputedBelow, Option.some.injEq,
      exists_eq_left',
      UInt32.le_iff_toNat_le, not_lt]

theorem not_registerFailure_window [Decidable condition] (h : condition → ComputedBelow
    ctx.registerCount last) :
    ¬ RegisterFailure (if windowOutOfRange ctx last ∧ condition then .error err else .ok () :
        Except VerifyError Unit) := by
  rw [if_neg]
  · exact not_registerFailure_ok
  · rintro ⟨hout, hcondition⟩
    exact windowOutOfRange_iff.mp hout (h hcondition)

end Checks

/-! ## What the builder counts -/

namespace BytecodeBuilder

variable {ops : List UInt32}

theorem counts_noteIndexes {indexes : List Nat} {idx : Nat} (hm : idx ∈ indexes) (hi : idx <
    ops.length) : Counts (ops.getD idx 0).toNat (noteIndexes ops indexes) := by
  induction indexes with
  | nil => cases hm
  | cons first rest ih =>
    rw [noteIndexes]
    rcases List.mem_cons.mp hm with rfl | hm
    · rw [List.getD_eq_getElem _ _ hi, List.getElem?_eq_getElem hi]
      exact Counts.bind_left (counts_noteRegister _) (onlyCounts_noteIndexes _ _)
    · cases ops[first]? with
      | none => exact ih hm
      | some register => exact Counts.bind_right (onlyCounts_noteRegister register) (ih hm)

/-- Registers below a limit are counted without passing it. -/
theorem noteIndexes_below {limit : UInt32} (indexes : List Nat) (hbelow : ∀ idx ∈ indexes, (ops.getD
    idx 0).toNat < limit.toNat) (builder : BytecodeBuilder) (hb : builder.registerCount.toNat ≤
    limit.toNat) : (noteIndexes ops indexes).Ends
      (fun _ post => post.registerCount.toNat ≤ limit.toNat) (fun _ _ => False) builder := by
  induction indexes generalizing builder with
  | nil => exact hb
  | cons first rest ih =>
    obtain ⟨hfirst, hrest⟩ := List.forall_mem_cons.mp hbelow
    rw [noteIndexes]
    cases hget : ops[first]? with
    | none => exact ih hrest builder hb
    | some register =>
      rw [List.getD_eq_getElem?_getD, hget, Option.getD_some] at hfirst
      have hlimit := limit.toNat_lt
      show ((noteRegister register) >>= fun _ => noteIndexes ops rest).Ends _ _ builder
      rw [Attempt.ends_bind]
      refine (noteRegister_ends register builder).imp ?_ fun _ _ hfull => by omega
      rintro ⟨⟩ post ⟨cnt, -, -, hmax, rfl⟩
      exact ih hrest _ (le_trans hmax (Nat.max_le.mpr ⟨hb, hfirst⟩))

end BytecodeBuilder

namespace EmittedInstruction

open BytecodeBuilder

/-- The number exceeds every register that the builder counts for the instruction. -/
def Noted (instr : EmittedInstruction) (registerCount : UInt32) : Prop :=
  ∀ register, Counts register (noteRegisters instr.opcode instr.operands) →
    register < registerCount.toNat

/-- What the number of registers has to exceed besides: the second register of the heritage pair,
the receiver's callee, and the scope name of a class accessor. -/
def RegistersCovered (registerCount : UInt32) (instr : EmittedInstruction) : Prop :=
  match instr.opcode with
  | .createClass => ComputedBelow registerCount (checkedAdd (instr.operands.getD 2 0) 1)
  | .callSpreadWithReceiver | .tailCallSpreadWithReceiver =>
    ComputedBelow registerCount (checkedAdd (instr.operands.getD 1 0) 1)
  | .defineClassGetterById | .defineClassSetterById =>
    (instr.operands.getD 2 0).toNat < registerCount.toNat
  | _ => True

/-- The registers that the builder would count for an instruction with two operands. An exclusion
list has its length as second operand, which is counted but not checked. -/
def PairNoted (registerCount : UInt32) (instr : EmittedInstruction) : Prop :=
  if instr.opcode = .createExclusionList then (instr.operands.getD 0 0).toNat < registerCount.toNat
  else instr.Noted registerCount

/-- The builder counts no register for an abrupt jump. With the opcode of another instruction its
operands, the offset of the label and the environment depth, are what that instruction uses. -/
def AbruptCovered (labels : List (Option WordOffset)) (registerCount : UInt32)
    (instr : EmittedInstruction) : Prop :=
  ¬ instr.Native → (instr.resolve labels).PairNoted registerCount

/-- What the number of registers has to exceed for an instruction. -/
def Covered (labels : List (Option WordOffset)) (registerCount : UInt32)
    (instr : EmittedInstruction) : Prop :=
  instr.RegistersCovered registerCount ∧ instr.AbruptCovered labels registerCount

variable {instr : EmittedInstruction} {registerCount : UInt32}

theorem registersCovered_of_two (htwo : instr.opcode.operandCount = 2) :
    instr.RegistersCovered registerCount := by
  rw [RegistersCovered]
  split <;> first | trivial | (rename_i hop; rw [hop] at htwo; cases htwo)

variable {indexes : List Nat}

/-- The registers of the indexes and those that the rest counts. -/
theorem Noted.bind (h : instr.Noted registerCount) {rest : Unit → BuilderM Unit} (hnotes :
    noteRegisters instr.opcode instr.operands = noteIndexes instr.operands indexes >>= rest) (hrest
    : OnlyCounts (rest ())) :
    (∀ idx ∈ indexes, idx < instr.operands.length →
      (instr.operands.getD idx 0).toNat < registerCount.toNat) ∧
    ∀ register, Counts register (rest ()) → register < registerCount.toNat := by
  refine ⟨fun idx hm hi => ?_, fun register hcounts => ?_⟩
  · exact h _ (hnotes ▸ Counts.bind_left (counts_noteIndexes hm hi) hrest)
  · exact h _ (hnotes ▸ Counts.bind_right (onlyCounts_noteIndexes _ _) hcounts)

theorem Noted.index (h : instr.Noted registerCount) {idx : Nat} (hnotes : noteRegisters instr.opcode
    instr.operands = noteIndexes instr.operands indexes) (hm : idx ∈ indexes) (hi : idx <
    instr.operands.length) : (instr.operands.getD idx 0).toNat < registerCount.toNat :=
  h _ (hnotes ▸ counts_noteIndexes hm hi)

variable {register : Option UInt32}

/-- A counted computed register is below the number; one that overflows is never counted. -/
theorem computedBelow_of_counts (h : ∀ idx, Counts idx (noteComputed register) → idx <
    registerCount.toNat) : ComputedBelow registerCount register := by
  cases register with
  | none => exact absurd (h registerCount.toNat fun _ => trivial) (lt_irrefl _)
  | some register => exact ⟨register, rfl, h _ (counts_noteRegister register)⟩

/-- The same where the register is counted only for a window that is not empty. -/
theorem computedBelow_of_counts_window {length : UInt32} (h : ∀ idx, Counts idx (if length ≠ 0 then
    noteComputed register else pure ()) → idx < registerCount.toNat) (hlen : length ≠ 0) :
    ComputedBelow registerCount register := by
  simp only [if_pos hlen] at h
  exact computedBelow_of_counts h

variable {ctx : VerifyContext} {ops : Vector UInt32 3}

/-- The operand checks pass, except on the five opcodes. -/
theorem registerFailure_domains_iff (off : WordOffset) (hc : instr.operands.length =
    instr.opcode.operandCount) (hs : ∀ idx (h : idx < 3), ops[idx] = instr.operands.getD idx 0)
    (hnoted : instr.Noted ctx.registerCount) :
    RegisterFailure (checkOperandDomains ctx off instr.opcode ops) ↔
      ¬ instr.RegistersCovered ctx.registerCount := by
  obtain ⟨_, op, given, label, span⟩ := instr
  replace hc : given.length = op.operandCount := hc
  have hbl : ∀ idx (h : idx < 3), (given.getD idx 0).toNat < ctx.registerCount.toNat →
      ¬ RegisterFailure (checkRegister ctx off ops[idx]) := by
    intro idx h hlt
    apply not_registerFailure_check
    rwa [hs idx h]
  have hcheck : ∀ idx (h : idx < 3),
      (∃ indexes, noteRegisters op given = noteIndexes given indexes ∧ idx ∈ indexes) →
      idx < op.operandCount → ¬ RegisterFailure (checkRegister ctx off ops[idx]) := by
    rintro idx h ⟨indexes, hnotes, hm⟩ hi
    exact hbl idx h (hnoted.index hnotes hm (hc ▸ hi))
  cases op
  -- Opcodes without a window.
  all_goals try
    refine iff_of_false ?_ (not_not_intro trivial)
    first
    | exact not_registerFailure_bind (hcheck 0 _ ⟨_, rfl, by decide⟩ (by decide))
        (not_registerFailure_bind (hcheck 1 _ ⟨_, rfl, by decide⟩ (by decide))
          (hcheck 2 _ ⟨_, rfl, by decide⟩ (by decide)))
    | exact not_registerFailure_bind (hcheck 0 _ ⟨_, rfl, by decide⟩ (by decide))
        (hcheck 1 _ ⟨_, rfl, by decide⟩ (by decide))
    | exact hcheck 0 _ ⟨_, rfl, by decide⟩ (by decide)
    | exact not_registerFailure_ok
    | exact not_registerFailure_bind (hcheck 0 _ ⟨_, rfl, by decide⟩ (by decide))
        (not_registerFailure_ite rfl)
    | exact not_registerFailure_bind (hcheck 0 _ ⟨_, rfl, by decide⟩ (by decide))
        (not_registerFailure_bind (hcheck 1 _ ⟨_, rfl, by decide⟩ (by decide))
          (not_registerFailure_ite rfl))
  case enterClassEnvironment | enterLexicalEnvironment =>
    refine iff_of_false ?_ (not_not_intro trivial)
    exact not_registerFailure_else rfl (not_registerFailure_ite rfl)
  case call | tailCall | directEval | construct | superConstruct =>
    obtain ⟨hi, hrest⟩ := hnoted.bind rfl (onlyCounts_window _ _)
    refine iff_of_false ?_ (not_not_intro trivial)
    refine not_registerFailure_bind (hbl 0 _ (hi 0 (by decide) (hc ▸ by decide)))
      (not_registerFailure_bind (hbl 1 _ (hi 1 (by decide) (hc ▸ by decide)))
        (not_registerFailure_window fun hne => ?_))
    rw [hs 2] at hne
    rw [hs 1, hs 2]
    exact computedBelow_of_counts_window hrest hne
  case callWithReceiver | tailCallWithReceiver =>
    obtain ⟨hi, hrest⟩ := hnoted.bind rfl (onlyCounts_noteComputed _)
    refine iff_of_false ?_ (not_not_intro trivial)
    refine not_registerFailure_bind (hbl 0 _ (hi 0 (by decide) (hc ▸ by decide)))
      (not_registerFailure_bind (hbl 1 _ (hi 1 (by decide) (hc ▸ by decide))) ?_)
    simp only [hs 1, hs 2]
    rw [if_neg]
    · exact not_registerFailure_ok
    · exact fun hout => windowOutOfRange_iff.mp hout (computedBelow_of_counts hrest)
  case yieldWithKind =>
    obtain ⟨hi, hrest⟩ := hnoted.bind rfl (onlyCounts_noteComputed _)
    refine iff_of_false ?_ (not_not_intro trivial)
    refine not_registerFailure_bind (hbl 0 _ (hi 0 (by decide) (hc ▸ by decide)))
      (not_registerFailure_bind (hbl 1 _ (hi 1 (by decide) (hc ▸ by decide))) ?_)
    simp only [hs 1]
    exact not_registerFailure_computed (computedBelow_of_counts hrest)
  case attachInstanceFields =>
    refine iff_of_false ?_ (not_not_intro trivial)
    refine not_registerFailure_bind (hbl 0 _ ?_) ?_
    · exact hnoted _ (Counts.bind_left (counts_noteRegister _) (onlyCounts_window _ _))
    · simp only [hs 1, hs 2]
      split_ifs with hne
      · apply not_registerFailure_computed
        exact computedBelow_of_counts_window
          (fun idx hcounts => hnoted idx (Counts.bind_right (onlyCounts_noteRegister _)
            hcounts)) hne
      · exact not_registerFailure_ok
  case callSpread | tailCallSpread | directEvalSpread | constructSpread =>
    refine iff_of_false ?_ (not_not_intro trivial)
    refine not_registerFailure_bind (hcheck 0 _ ⟨_, rfl, by decide⟩ (by decide))
      (not_registerFailure_bind (hcheck 1 _ ⟨_, rfl, by decide⟩ (by decide))
        (not_registerFailure_bind (hcheck 2 _ ⟨_, rfl, by decide⟩ (by decide)) ?_))
    exact not_registerFailure_ok
  -- The opcodes on which the tables differ.
  case callSpreadWithReceiver | tailCallSpreadWithReceiver =>
    constructor
    · intro hfailure hcov
      refine not_registerFailure_bind (hcheck 0 _ ⟨_, rfl, by decide⟩ (by decide))
        (not_registerFailure_bind (hcheck 1 _ ⟨_, rfl, by decide⟩ (by decide))
          (not_registerFailure_bind (hcheck 2 _ ⟨_, rfl, by decide⟩ (by decide)) ?_)) hfailure
      simp only [hs 1]
      rw [if_neg]
      · exact not_registerFailure_ok
      · exact fun hout => windowOutOfRange_iff.mp hout.2 hcov
    · intro hnot
      refine registerFailure_of_check (registerFailure_of_check (registerFailure_of_check ?_))
      simp only [hs 1]
      rw [if_pos ⟨by simp, windowOutOfRange_iff.mpr hnot⟩]
      exact ⟨_, rfl, rfl⟩
  case createClass =>
    constructor
    · intro hfailure hcov
      refine not_registerFailure_bind (hcheck 0 _ ⟨_, rfl, by decide⟩ (by decide))
        (not_registerFailure_bind (hcheck 2 _ ⟨_, rfl, by decide⟩ (by decide)) ?_) hfailure
      simp only [hs 2]
      exact not_registerFailure_computed hcov
    · intro hnot
      refine registerFailure_of_check (registerFailure_of_check ?_)
      simp only [hs 2]
      exact registerFailure_computed hnot
  case defineClassGetterById | defineClassSetterById =>
    constructor
    · intro hfailure hcov
      exact not_registerFailure_bind (hcheck 0 _ ⟨_, rfl, by decide⟩ (by decide))
        (not_registerFailure_bind (hcheck 1 _ ⟨_, rfl, by decide⟩ (by decide))
          (hbl 2 _ hcov)) hfailure
    · intro hnot
      refine registerFailure_of_check (registerFailure_of_check (registerFailure_check ?_))
      rwa [hs 2]

/-- With two operands, what the verifier checks is what the builder would count. -/
theorem registerFailure_pair_iff {off : WordOffset} (htwo : instr.opcode.operandCount = 2) (hlen :
    instr.operands.length = 2) (hs : ∀ idx (h : idx < 3), ops[idx] = instr.operands.getD idx 0) :
    RegisterFailure (checkOperandDomains ctx off instr.opcode ops) ↔
      ¬ instr.PairNoted ctx.registerCount := by
  have hcheck : ∀ idx (h : idx < 3), RegisterFailure (checkRegister ctx off ops[idx]) ↔
      ¬ (instr.operands.getD idx 0).toNat < ctx.registerCount.toNat := by
    intro idx h
    rw [← hs idx h]
    exact ⟨fun hfailure hlt => not_registerFailure_check hlt hfailure, registerFailure_check⟩
  by_cases hlist : instr.opcode = .createExclusionList
  · rw [PairNoted, if_pos hlist, hlist]
    exact hcheck 0 (by decide)
  · rw [PairNoted, if_neg hlist]
    refine ⟨fun hfailure hnoted => (registerFailure_domains_iff off (hlen.trans htwo.symm) hs
      hnoted).mp hfailure (registersCovered_of_two htwo), fun hnot => ?_⟩
    by_contra hpass
    apply hnot
    have hcount : ∀ indexes, noteRegisters instr.opcode instr.operands =
        noteIndexes instr.operands indexes →
        (∀ idx ∈ indexes, (instr.operands.getD idx 0).toNat < ctx.registerCount.toNat) →
        instr.Noted ctx.registerCount := by
      intro indexes hnotes hbelow register hcounts
      obtain ⟨⟨⟩, post, hpost, hle⟩ :=
        (noteIndexes_below indexes hbelow .empty (Nat.zero_le _)).exists_ok
      rw [hnotes] at hcounts
      exact lt_of_lt_of_le ((hcounts .empty).of_ok hpost) hle
    have hlast := fun idx h => Decidable.not_not.mp ∘ mt (hcheck idx h).mpr
    have hfirst : ∀ rest : Unit → Except VerifyError Unit,
        ¬ RegisterFailure (checkRegister ctx off ops[0] >>= rest) →
        (instr.operands.getD 0 0).toNat < ctx.registerCount.toNat ∧ ¬ RegisterFailure
          (rest ()) := by
      intro rest hpass
      obtain ⟨hlt, hrest⟩ := check_of_not_bind hpass
      rw [hs 0] at hlt
      exact ⟨hlt, hrest⟩
    obtain ⟨_, op, given, label, span⟩ := instr
    replace htwo : op.operandCount = 2 := htwo
    cases op
    all_goals
      first
      | cases htwo; done
      | exact absurd rfl hlist
      | exact hcount [] rfl (List.forall_mem_nil _)
      | exact hcount [0] rfl (List.forall_mem_singleton.mpr (hlast 0 _ hpass))
      | exact hcount [0] rfl (List.forall_mem_singleton.mpr (hfirst _ hpass).1)
      | obtain ⟨hlt, hrest⟩ := hfirst _ hpass
        exact hcount [0, 1] rfl (List.forall_mem_cons.mpr
          ⟨hlt, List.forall_mem_singleton.mpr (hlast 1 _ hrest)⟩)

end EmittedInstruction

/-! ## The finished code -/

variable {decoded : DecodedInstruction} {off : WordOffset} {ctx : VerifyContext}

/-- Only the operand checks of an instruction fail as register checks. -/
theorem registerFailure_verifyInstruction_iff {starts : List Bool} :
    RegisterFailure (verifyInstruction decoded off starts ctx) ↔
      RegisterFailure (checkOperandDomains ctx off decoded.opcode decoded.operands) := by
  rw [verifyInstruction, registerFailure_bind]
  refine or_iff_left ?_
  rintro ⟨-, hfailure⟩
  revert hfailure
  refine not_registerFailure_bind ?_ (not_registerFailure_bind ?_ (not_registerFailure_bind
    (not_registerFailure_ite rfl) (not_registerFailure_bind (not_registerFailure_ite rfl)
      (not_registerFailure_bind (not_registerFailure_ite rfl) ?_))))
  · simp only [checkConstant]
    split
    · split
      · exact not_registerFailure_error rfl
      · exact not_registerFailure_ok
      · exact not_registerFailure_ite rfl
    · exact not_registerFailure_ok
  · simp only [checkScopeName]
    split
    · exact not_registerFailure_ok
    · exact not_registerFailure_ite rfl
  · simp only [checkJumpTarget]
    split
    · exact not_registerFailure_ok
    · split
      · exact not_registerFailure_ok
      · exact not_registerFailure_error rfl

/-- A failing register check of the whole verification is one of an instruction. -/
theorem exists_of_registerFailure_verify {bytecode : Bytecode} (h : RegisterFailure (verify bytecode
    ctx)) :
    ∃ trace, InstructionTrace bytecode.words 0 trace ∧ ∃ visited ∈ trace, ∃ starts,
      RegisterFailure (verifyInstruction visited.2 (.new visited.1) starts ctx) := by
  obtain ⟨err, herr, hfailure⟩ := h
  simp only [verify] at herr
  split at herr
  · cases herr
    cases hfailure
  · cases hpass : firstPass bytecode.words with
    | error passError =>
      rw [hpass] at herr
      cases herr
      rcases walk_error hpass with rfl | ⟨place, hdec⟩ | ⟨pre, place, instr, hbody⟩
      · cases hfailure
      · cases hat : decodeAt bytecode.words place with
        | error decodeError =>
          rw [hat] at hdec
          cases hdec
          cases hfailure
        | ok instr =>
          rw [hat] at hdec
          cases hdec
      · cases hbody
    | ok pass =>
      rw [hpass] at herr
      simp only at herr
      refine ⟨pass.offsets, (firstPass_trace hpass).1, ?_⟩
      split at herr
      · split at herr
        next other hsec =>
          cases herr
          -- The second pass stops at the first instruction that fails.
          generalize pass.offsets = trace at hsec
          induction trace with
          | nil => cases hsec
          | cons visited rest ih =>
            rw [verifyInstructions] at hsec
            split at hsec
            next hvis =>
              cases hsec
              exact ⟨visited, List.mem_cons_self, pass.starts, _, hvis, hfailure⟩
            · obtain ⟨other, hm, ho⟩ := ih hsec
              exact ⟨other, List.mem_cons_of_mem _ hm, ho⟩
        · cases herr
      · cases herr
        cases hfailure

theorem BuilderRun.noted {builder : BytecodeBuilder} {log : BuilderLog}
    (run : BuilderRun builder log) :
    ∀ instr ∈ log.emitted, instr.Native → instr.Noted builder.registerCount := by
  induction run with
  | start => exact fun _ hm => absurd hm List.not_mem_nil
  | @call builder post log _ call event step ih =>
    have hmore : (log ++ [event]).emitted = log.emitted ++ BuilderLog.emitted [event] :=
      List.filterMap_append
    intro instr hm
    rw [hmore, List.mem_append] at hm
    cases BuilderCall.run_effect step with
    | created hroom | bound label hfree =>
      exact hm.elim (ih instr) (fun hn => absurd hn List.not_mem_nil)
    | emitted emitted cnt hformed hoff hroom hc hnoted =>
      intro hnative register hcounts
      rcases hm with hm | hm
      · exact lt_of_lt_of_le (ih instr hm hnative register hcounts) hc
      · obtain rfl := List.mem_singleton.mp hm
        show register < cnt.toNat
        exact (hcounts builder).of_ok (hnoted hnative)

variable {labels : List (Option WordOffset)} {instr : EmittedInstruction}

/-- A jump to a label: the place that waits is no register. -/
theorem registerFailure_jump_iff {waiting : Label × Nat} (hlabel : instr.label = some waiting)
    (hjump : labelOperand instr.opcode = some waiting.2) (hdecodes : Decodes decoded (instr.resolve
    labels)) :
    RegisterFailure (checkOperandDomains ctx off instr.opcode decoded.operands) ↔
      RegisterFailure (checkOperandDomains ctx off instr.opcode
      (paddedOperands instr.operands)) := by
  have hfirst : waiting.2 ≠ 0 → decoded.operands[0] = (paddedOperands instr.operands)[0] := by
    intro hne
    rw [hdecodes.operands 0 (by decide)]
    simp [paddedOperands, EmittedInstruction.resolve, hlabel, List.getElem?_set_ne hne]
  generalize waiting.2 = idx at hjump hfirst
  generalize instr.opcode = op at hjump ⊢
  simp only [labelOperand] at hjump
  split at hjump <;> cases hjump
  -- The three jumps have no check, the conditional ones check their condition.
  · exact Iff.rfl
  · exact Iff.rfl
  · exact Iff.rfl
  all_goals
    have hregister := congrArg (checkRegister ctx off) (hfirst (by decide))
    exact iff_of_eq (congrArg RegisterFailure hregister)

/-- The operand checks of a decoded instruction are those of the operands that were given. -/
theorem registerFailure_emitted_iff {visited : Nat × DecodedInstruction} (hdecodes : Decodes
    visited.2 (instr.resolve labels)) (hformed : instr.WellFormed) (haligned : instr.Aligned)
    (hnoted : instr.Native → instr.Noted ctx.registerCount) (starts : List Bool) :
    RegisterFailure (verifyInstruction visited.2 (.new visited.1) starts ctx) ↔
      ¬ instr.Covered labels ctx.registerCount := by
  have hcount := hformed.length_eq haligned
  rw [registerFailure_verifyInstruction_iff, hdecodes.opcode, EmittedInstruction.Covered]
  by_cases hnative : instr.Native
  · have habrupt : instr.AbruptCovered labels ctx.registerCount := fun hnot => absurd hnative hnot
    rw [and_iff_left habrupt, EmittedInstruction.resolve_opcode]
    cases hlabel : instr.label with
    | none =>
      have hs : instr.resolve labels = instr := by simp only [EmittedInstruction.resolve, hlabel]
      rw [hs] at hdecodes
      exact EmittedInstruction.registerFailure_domains_iff _ hcount hdecodes.operands
        (hnoted hnative)
    | some waiting =>
      rw [registerFailure_jump_iff hlabel (hnative waiting hlabel) hdecodes]
      exact EmittedInstruction.registerFailure_domains_iff _ hcount
        (fun idx hi => by simp [paddedOperands]) (hnoted hnative)
  · have htwo : instr.opcode.operandCount = 2 := hcount.symm.trans (hformed.abrupt hnative)
    have htwo' : (instr.resolve labels).opcode.operandCount = 2 := by
      rwa [EmittedInstruction.resolve_opcode]
    have hresolved : (instr.resolve labels).WellFormed := hformed.resolve
    have hlen := hresolved.length_eq haligned.resolve
    rw [EmittedInstruction.registerFailure_pair_iff htwo' (hlen.trans htwo') hdecodes.operands,
      and_iff_right (EmittedInstruction.registersCovered_of_two htwo),
        EmittedInstruction.AbruptCovered,
      forall_prop_of_true hnative]

/-- The register checks of the code pass: in no context that has this number of registers does an
instruction fail one of them. -/
def PassesRegisterChecks (words : List UInt32) (registerCount : UInt32) : Prop :=
  ∀ trace, InstructionTrace words 0 trace → ∀ visited ∈ trace, ∀ starts (ctx : VerifyContext),
    ctx.registerCount = registerCount →
      ¬ RegisterFailure (verifyInstruction visited.2 (.new visited.1) starts ctx)

theorem not_registerFailure_verify {words : List UInt32} {registerCount : UInt32}
    (h : PassesRegisterChecks words registerCount) (ctx : VerifyContext)
    (hcontext : ctx.registerCount = registerCount) : ¬ RegisterFailure (verify ⟨words⟩ ctx) := by
  intro hfailure
  obtain ⟨trace, htr, visited, hvis, starts, hinstr⟩ := exists_of_registerFailure_verify hfailure
  exact h trace htr visited hvis starts ctx hcontext hinstr

/-- Related entries that satisfy their conditions together. -/
theorem forall_mem_iff_of_forall₂ {α β : Type} {p : α → Prop} {q : β → Prop} {first : List α}
    {second : List β} (h : List.Forall₂ (fun a b => p a ↔ q b) first second) :
    (∀ a ∈ first, p a) ↔ ∀ b ∈ second, q b := by
  induction h with
  | nil => simp
  | cons hhead _ ih => rw [List.forall_mem_cons, List.forall_mem_cons, hhead, ih]

/-- Where every label jump has a form that decodes to it, the register checks of the finished code
pass exactly when the number of registers covers each emitted instruction. -/
theorem passesRegisterChecks_iff {builder : BytecodeBuilder} {log : BuilderLog}
    (run : BuilderRun builder log) (haligned : ∀ instr ∈ log.emitted, instr.Aligned)
    {words : List UInt32} {sourceMap : List SourceMapEntry} {registerCount : UInt32}
    (hfin : builder.finish = .ok (words, sourceMap, registerCount)) :
    (PassesRegisterChecks words registerCount ↔
      ∀ instr ∈ log.emitted, instr.Covered builder.labels registerCount) ∧
    ((∀ instr ∈ log.emitted, instr.Covered builder.labels registerCount) →
      ∀ ctx : VerifyContext, ctx.registerCount = registerCount →
        ¬ RegisterFailure (verify ⟨words⟩ ctx)) := by
  obtain ⟨trace, htr, hdecodes, -⟩ := run.laid.decodes haligned hfin
  obtain rfl : builder.registerCount = registerCount := by
    rw [BytecodeBuilder.finish] at hfin
    split at hfin
    · cases hfin
    · cases hfin
      rfl
  have hchecks : PassesRegisterChecks words builder.registerCount ↔
      ∀ instr ∈ log.emitted, instr.Covered builder.labels builder.registerCount := by
    refine Iff.trans ?_ (forall_mem_iff_of_forall₂ ((forall₂_with_mem hdecodes).imp
      (S := fun visited instr => (∀ starts (ctx : VerifyContext),
        ctx.registerCount = builder.registerCount →
          ¬ RegisterFailure (verifyInstruction visited.2 (.new visited.1) starts ctx)) ↔
        instr.Covered builder.labels builder.registerCount) ?_))
    · constructor
      · exact fun h => h trace htr
      · rintro h other ho
        rwa [ho.unique htr]
    · rintro visited instr ⟨hm, -, h⟩
      have hformed := run.laid.laid.formed instr hm
      have haligned := haligned instr hm
      have hnoted := run.noted instr hm
      constructor
      · intro hpass
        by_contra hnot
        refine hpass [] ⟨builder.registerCount, [], 0, 0, 0⟩ rfl ?_
        exact (registerFailure_emitted_iff h hformed haligned hnoted []).mpr hnot
      · rintro hcov starts ctx hcontext hfailure
        rw [← hcontext] at hnoted hcov
        exact (registerFailure_emitted_iff h hformed haligned hnoted starts).mp hfailure hcov
  exact ⟨hchecks, fun hcov => not_registerFailure_verify (hchecks.mpr hcov)⟩

/-- A call with two arguments: every register of its window is counted. -/
theorem passesRegisterChecks_call :
    ∃ words registerCount, registerCount = 6 ∧ PassesRegisterChecks words registerCount := by
  have run := BuilderRun.start.perform (show performCalls
    [.emit .call [0, 3, 2] ⟨0, 5⟩, .emit .ret [0] ⟨5, 6⟩] (.empty, []) = some (_, _) from rfl)
  have hplain : ∀ {instr : EmittedInstruction}, instr.label = none →
      instr.opcode = .call ∨ instr.opcode = .ret →
      instr.Aligned ∧ ∀ labels cnt, instr.Covered labels cnt := by
    intro instr hlabel hop
    have hnone : ∀ waiting, instr.label ≠ some waiting := fun _ hsome => by
      rw [hlabel] at hsome
      cases hsome
    refine ⟨fun _ hsome => absurd hsome (hnone _), fun labels cnt => ⟨?_, fun hnot =>
      absurd (fun _ hsome => absurd hsome (hnone _)) hnot⟩⟩
    rcases hop with hop | hop
    · rw [EmittedInstruction.RegistersCovered, hop]
      trivial
    · rw [EmittedInstruction.RegistersCovered, hop]
      trivial
  refine ⟨_, _, rfl, (passesRegisterChecks_iff run ?_ rfl).1.mpr ?_⟩
  · exact List.forall_mem_cons.mpr ⟨(hplain rfl (.inl rfl)).1,
      List.forall_mem_singleton.mpr (hplain rfl (.inr rfl)).1⟩
  · exact List.forall_mem_cons.mpr ⟨(hplain rfl (.inl rfl)).2 _ _,
      List.forall_mem_singleton.mpr ((hplain rfl (.inr rfl)).2 _ _)⟩

/-- The scope name of a class getter is checked as a register, but not counted as one. -/
theorem exists_registerFailure_classGetter :
    ∃ builder log words sourceMap registerCount ctx, BuilderRun builder log ∧
      BytecodeBuilder.finish builder = .ok (words, sourceMap, registerCount) ∧
      ctx.registerCount = registerCount ∧ RegisterFailure (verify ⟨words⟩ ctx) := by
  have run := BuilderRun.start.perform (show performCalls
    [.emit .defineClassGetterById [0, 1, 7] ⟨0, 5⟩, .emit .returnUndefined [] ⟨5, 6⟩] (.empty, []) =
      some (_, _) from rfl)
  exact ⟨_, _, _, _, _, ⟨2, [], 0, 8, 0⟩, run, rfl, rfl, .registerOutOfRange ⟨0⟩ 7 2, rfl, rfl⟩

end TachyonEngine.Bytecode
