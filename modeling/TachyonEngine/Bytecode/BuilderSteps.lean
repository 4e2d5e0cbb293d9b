import TachyonEngine.Bytecode.Builder

/-!
# What the calls of a builder do

A successful call creates a label, binds one, or appends one instruction (`run_effect`). The words
of an emitted instruction follow from its opcode and its operands alone
(`EmittedInstruction.words`), so they are the same for every value of the place that waits, and the
effect lemma names them. An abrupt jump takes any opcode: its words are those of an instruction only
when it is `EmittedInstruction.Aligned`.
-/

namespace TachyonEngine.Lib.Attempt

variable {σ ε α : Type} {returns : α → σ → Prop} {fails : ε → σ → Prop} {st : σ}

variable {run : Attempt σ ε α}

/-- An outcome satisfies its condition and is what the computation returns. -/
theorem Ends.with_outcome (h : run.Ends returns fails st) :
    run.Ends (fun a post => returns a post ∧ run.outcome st = (.ok a, post)) fails st := by
  simp only [Ends] at h ⊢
  split
  next heq =>
    rw [heq] at h
    exact ⟨h, heq⟩
  next heq =>
    rw [heq] at h
    exact h

theorem Ends.exists_ok (h : run.Ends returns (fun _ _ => False) st) :
    ∃ a post, run.outcome st = (.ok a, post) ∧ returns a post := by
  rw [Ends] at h
  cases hrun : run.outcome st with
  | mk res post =>
    rw [hrun] at h
    cases res with
    | error err => exact h.elim
    | ok a => exact ⟨a, post, rfl, h⟩

theorem Ends.of_ok (h : run.Ends returns fails st) {a : α} {post : σ} (hrun : run.outcome st = (.ok
    a, post)) : returns a post := by
  simp only [Ends, hrun] at h
  exact h

end TachyonEngine.Lib.Attempt

namespace TachyonEngine.Bytecode

open Lib Lib.MachineWord

/-! ## Registers -/

namespace BytecodeBuilder

/-- A call that succeeds changes nothing but the number of registers, which does not fall. -/
def OnlyCounts (run : BuilderM Unit) : Prop :=
  ∀ builder, run.Ends (fun _ after => ∃ count, builder.registerCount.toNat ≤ count.toNat ∧
      after = { builder with registerCount := count })
    (fun _ _ => True) builder

/-- A call that succeeds counts a register. -/
def Counts (register : Nat) (run : BuilderM Unit) : Prop :=
  ∀ builder, run.Ends (fun _ after => register < after.registerCount.toNat)
    (fun _ _ => True) builder

theorem onlyCounts_pure : OnlyCounts (pure ()) :=
    fun builder => ⟨builder.registerCount, le_refl _, rfl⟩

variable {first : BuilderM Unit} {rest : Unit → BuilderM Unit}

theorem OnlyCounts.bind (hfirst : OnlyCounts first) (hrest : OnlyCounts (rest ())) :
    OnlyCounts (first >>= rest) := by
  intro builder
  rw [Attempt.ends_bind]
  refine (hfirst builder).imp ?_ (fun _ _ _ => trivial)
  rintro ⟨⟩ middle ⟨cnt, hle, rfl⟩
  refine (hrest _).imp ?_ (fun _ _ _ => trivial)
  rintro ⟨⟩ post ⟨cnt', hle', rfl⟩
  exact ⟨cnt', le_trans hle hle', rfl⟩

variable {register : Nat}

/-- What the first part counts stays counted. -/
theorem Counts.bind_left (hfirst : Counts register first) (hrest : OnlyCounts (rest ())) :
    Counts register (first >>= rest) := by
  intro builder
  rw [Attempt.ends_bind]
  refine (hfirst builder).imp ?_ (fun _ _ _ => trivial)
  rintro ⟨⟩ middle hlt
  refine (hrest middle).imp ?_ (fun _ _ _ => trivial)
  rintro ⟨⟩ post ⟨cnt, hle, rfl⟩
  exact lt_of_lt_of_le hlt hle

theorem Counts.bind_right (hfirst : OnlyCounts first) (hrest : Counts register (rest ())) :
    Counts register (first >>= rest) := by
  intro builder
  rw [Attempt.ends_bind]
  exact (hfirst builder).imp (fun _ middle _ => hrest middle) (fun _ _ _ => trivial)

theorem noteRegister_ends (register : UInt32) (builder : BytecodeBuilder) :
    (noteRegister register).Ends
      (fun _ post => ∃ cnt, builder.registerCount.toNat ≤ cnt.toNat ∧ register.toNat < cnt.toNat ∧
        cnt.toNat ≤ max builder.registerCount.toNat (register.toNat + 1) ∧
        post = { builder with registerCount := cnt })
      (fun _ _ => 2 ^ 32 ≤ register.toNat + 1) builder := by
  simp only [noteRegister, checkedAdd]
  by_cases hroom : register.toNat + UInt32.toNat 1 < 2 ^ 32
  · rw [if_pos hroom]
    have hn : (register + 1).toNat = register.toNat + 1 := Nat.mod_eq_of_lt hroom
    have hmax : (max builder.registerCount (register + 1)).toNat =
        max builder.registerCount.toNat (register + 1).toNat := by
      show (if builder.registerCount ≤ register + 1 then register + 1
        else builder.registerCount).toNat = _
      by_cases hle : builder.registerCount ≤ register + 1
      · rw [if_pos hle]
        exact (max_eq_right hle).symm
      · rw [if_neg hle]
        exact (max_eq_left (Nat.le_of_not_le hle)).symm
    refine ⟨max builder.registerCount (register + 1), ?_, ?_, ?_, rfl⟩ <;> omega
  · rw [if_neg hroom]
    exact Nat.le_of_not_lt hroom

theorem onlyCounts_noteRegister (register : UInt32) : OnlyCounts (noteRegister register) := by
  intro builder
  refine (noteRegister_ends register builder).imp ?_ (fun _ _ _ => trivial)
  rintro ⟨⟩ post ⟨cnt, hle, -, -, ha⟩
  exact ⟨cnt, hle, ha⟩

theorem counts_noteRegister (register : UInt32) : Counts register.toNat
    (noteRegister register) := by
  intro builder
  refine (noteRegister_ends register builder).imp ?_ (fun _ _ _ => trivial)
  rintro ⟨⟩ post ⟨cnt, -, hlt, -, rfl⟩
  exact hlt

theorem onlyCounts_noteComputed (register : Option UInt32) :
    OnlyCounts (noteComputed register) := by
  cases register with
  | none => exact fun _ => trivial
  | some register => exact onlyCounts_noteRegister register

theorem onlyCounts_window (length : UInt32) (register : Option UInt32) :
    OnlyCounts (if length ≠ 0 then noteComputed register else pure ()) := by
  split
  · exact onlyCounts_noteComputed register
  · exact onlyCounts_pure

theorem onlyCounts_noteIndexes (ops : List UInt32) (indexes : List Nat) :
    OnlyCounts (noteIndexes ops indexes) := by
  induction indexes with
  | nil => exact onlyCounts_pure
  | cons idx rest ih =>
    rw [noteIndexes]
    cases ops[idx]? with
    | none => exact ih
    | some register => exact OnlyCounts.bind (onlyCounts_noteRegister register) ih

/-- The register table touches no other part of the builder. -/
theorem onlyCounts_noteRegisters (op : Opcode) (ops : List UInt32) :
    OnlyCounts (noteRegisters op ops) := by
  have hnote := onlyCounts_noteIndexes ops
  have hcomputed := onlyCounts_noteComputed
  have hwindow := onlyCounts_window
  cases op
  all_goals
    first
    | exact hnote _
    | exact OnlyCounts.bind (hnote _) (hwindow _ _)
    | exact OnlyCounts.bind (hnote _) (hcomputed _)
    | exact OnlyCounts.bind (onlyCounts_noteRegister _) (hwindow _ _)

/-! ## Offsets and capacity -/

theorem ensureLabel_ends (label : Label) (builder : BytecodeBuilder) :
    (ensureLabel label).Ends (fun _ post => builder = post) (fun _ _ => True) builder := by
  simp only [ensureLabel, Attempt.ends_bind, Attempt.ends_get]
  split
  · exact rfl
  · trivial

theorem ensureWordCapacity_ends (additional : Nat) (builder : BytecodeBuilder) :
    (ensureWordCapacity additional).Ends
      (fun _ post => builder = post ∧ builder.words.length + additional < 2 ^ 32)
      (fun _ _ => True) builder := by
  simp only [ensureWordCapacity, Attempt.ends_bind, Attempt.ends_get]
  split_ifs with hroom
  · exact ⟨rfl, hroom⟩
  · trivial

theorem nextWordOffset_ends (builder : BytecodeBuilder) : nextWordOffset.Ends
      (fun off post => builder = post ∧ off = .new builder.words.length ∧
        builder.words.length < 2 ^ 32) (fun _ _ => True) builder := by
  simp only [nextWordOffset, Attempt.ends_bind, Attempt.ends_get]
  split_ifs with hroom
  · exact ⟨rfl, rfl, hroom⟩
  · trivial

end BytecodeBuilder

/-! ## Instructions -/

/-- The operand of a jump that waits for a label. -/
def labelOperand : Opcode → Option Nat
  | .jump | .breakThroughFinally | .continueThroughFinally => some 0
  | .jumpIfFalse | .jumpIfTrue | .jumpIfNotNullish => some 1
  | _ => none

namespace EmittedInstruction

open BytecodeBuilder

/-- The code: the smallest form, or the fixed-width form of a jump to a label. -/
def words (instruction : EmittedInstruction) : List UInt32 :=
  match instruction.label with
  | none => (encodeInstruction instruction.opcode instruction.operands).toOption.getD []
  | some _ => wideHeader instruction.opcode :: instruction.operands

/-- The operand word that waits for a label. -/
def patch (instruction : EmittedInstruction) : Option JumpPatch :=
  instruction.label.map fun waiting =>
    ⟨waiting.1, ⟨instruction.offset.index + UInt32.ofNat (waiting.2 + 1)⟩⟩

/-- The label stands at the operand that is the target of a jump. -/
def Native (instruction : EmittedInstruction) : Prop :=
  ∀ waiting, instruction.label = some waiting → labelOperand instruction.opcode = some waiting.2

/-- The wide form of a jump to a label is that of an instruction: the opcode takes as many operands,
and has a number that the header can hold. This is so for every opcode of a jump. -/
def Aligned (instruction : EmittedInstruction) : Prop :=
  ∀ waiting, instruction.label = some waiting →
    instruction.operands.length = instruction.opcode.operandCount ∧
      instruction.opcode.discriminant < 128

/-- What every call gives: the smallest form has the operands that its opcode takes, an operand of a
jump waits, and an abrupt jump has two. -/
structure WellFormed (instruction : EmittedInstruction) : Prop where
  count : instruction.label = none → instruction.operands.length = instruction.opcode.operandCount
  waiting : ∀ waiting, instruction.label = some waiting → waiting.2 < instruction.operands.length
  abrupt : ¬ instruction.Native → instruction.operands.length = 2

variable {instr : EmittedInstruction}

theorem WellFormed.length_eq (h : instr.WellFormed) (haligned : instr.Aligned) :
    instr.operands.length = instr.opcode.operandCount := by
  cases hlabel : instr.label with
  | none => exact h.count hlabel
  | some waiting => exact (haligned waiting hlabel).1

theorem WellFormed.of_label {waiting : Label × Nat} (hlabel : instr.label = some waiting) (hwait :
    waiting.2 < instr.operands.length) (habrupt : ¬ instr.Native → instr.operands.length = 2) :
    instr.WellFormed := by
  refine ⟨fun hn => ?_, fun other hsome => ?_, habrupt⟩
  · rw [hlabel] at hn
    cases hn
  · cases hlabel.symm.trans hsome
    exact hwait

/-- Appends an instruction, and takes over a number of registers. -/
def append (instruction : EmittedInstruction) (count : UInt32) (builder : BytecodeBuilder) :
    BytecodeBuilder :=
  { builder with
    words := builder.words ++ instruction.words
    patches := builder.patches ++ instruction.patch.toList
    sourceMap := builder.sourceMap ++ [⟨instruction.offset, instruction.span⟩]
    registerCount := count }

end EmittedInstruction

/-- What a successful call does. -/
inductive BuilderEffect (builder : BytecodeBuilder) : BuilderEvent → BytecodeBuilder → Prop
  | created (hroom : builder.labels.length < 2 ^ 32) :
      BuilderEffect builder (.created ⟨UInt32.ofNat builder.labels.length⟩)
        { builder with labels := builder.labels ++ [none] }
  | bound (label : Label) (hfree : builder.labels[label.index.toNat]? = some none) :
      BuilderEffect builder (.bound label (.new builder.words.length))
        { builder with
          labels := builder.labels.set label.index.toNat (some (.new builder.words.length)) }
  | emitted (instruction : EmittedInstruction) (count : UInt32) (hformed : instruction.WellFormed)
      (hoff : instruction.offset = .new builder.words.length)
      (hroom : builder.words.length + instruction.words.length < 2 ^ 32)
      (hc : builder.registerCount.toNat ≤ count.toNat)
      (hnoted : instruction.Native →
        (BytecodeBuilder.noteRegisters instruction.opcode instruction.operands).outcome builder =
          (.ok (), { builder with registerCount := count })) :
      BuilderEffect builder (.emitted instruction) (instruction.append count builder)

namespace BytecodeBuilder

variable (builder : BytecodeBuilder)

/-- Registers are noted, then an instruction with a waiting operand is appended. -/
theorem appendPatched_ends (instr : EmittedInstruction) (label : Label) (operandWord : UInt32)
    (hlabel : instr.label = some (label, operandWord.toNat - 1)) (hword : 0 < operandWord.toNat)
    (hformed : instr.WellFormed) (cnt : UInt32) (hc : builder.registerCount.toNat ≤ cnt.toNat)
    (hnoted : instr.Native → (noteRegisters instr.opcode instr.operands).outcome builder =
      (.ok (), { builder with registerCount := cnt })) :
    (appendPatched (wideHeader instr.opcode :: instr.operands) label operandWord instr.span).Ends
      (fun off post => BuilderEffect builder (.emitted { instr with offset := off }) post)
      (fun _ _ => True) { builder with registerCount := cnt } := by
  rw [appendPatched, Attempt.ends_bind]
  refine (ensureWordCapacity_ends _ _).imp ?_ (fun _ _ _ => trivial)
  rintro ⟨⟩ middle ⟨rfl, hroom⟩
  rw [Attempt.ends_bind]
  refine (nextWordOffset_ends _).imp ?_ (fun _ _ _ => trivial)
  rintro off middle ⟨rfl, rfl, -⟩
  have happend : { builder with
        words := builder.words ++ wideHeader instr.opcode :: instr.operands
        patches := builder.patches ++
          [⟨label, ⟨(WordOffset.new builder.words.length).index + operandWord⟩⟩]
        sourceMap := builder.sourceMap ++ [⟨.new builder.words.length, instr.span⟩]
        registerCount := cnt } =
      EmittedInstruction.append { instr with offset := .new builder.words.length } cnt builder := by
    have hn : UInt32.ofNat (operandWord.toNat - 1 + 1) = operandWord := by
      rw [Nat.sub_add_cancel hword, UInt32.ofNat_toNat]
    simp only [EmittedInstruction.append, EmittedInstruction.words, EmittedInstruction.patch,
      hlabel,
      Option.map_some, Option.toList_some, hn]
  have hwords : EmittedInstruction.words { instr with offset := .new builder.words.length } =
      wideHeader instr.opcode :: instr.operands := by
    simp only [EmittedInstruction.words, hlabel]
  rw [Attempt.ends_bind, Attempt.ends_modify]
  show BuilderEffect builder _ _
  rw [happend]
  exact .emitted _ cnt ⟨hformed.count, hformed.waiting, hformed.abrupt⟩ rfl
    (by rwa [hwords]) hc hnoted

theorem emit_ends (op : Opcode) (ops : List UInt32) (span : SourceSpan) : (emit op ops span).Ends
      (fun off post => BuilderEffect builder (.emitted ⟨off, op, ops, none, span⟩) post)
      (fun _ _ => True) builder := by
  rw [emit]
  cases hcode : encodeInstruction op ops with
  | error err => trivial
  | ok words =>
    rw [Attempt.ends_bind]
    refine (ensureWordCapacity_ends _ builder).imp ?_ (fun _ _ _ => trivial)
    rintro ⟨⟩ middle ⟨rfl, hroom⟩
    rw [Attempt.ends_bind]
    refine ((onlyCounts_noteRegisters op ops builder).with_outcome).imp ?_ (fun _ _ _ => trivial)
    rintro ⟨⟩ middle ⟨⟨cnt, hc, rfl⟩, hnoted⟩
    rw [Attempt.ends_bind]
    refine (nextWordOffset_ends _).imp ?_ (fun _ _ _ => trivial)
    rintro off middle ⟨rfl, rfl, -⟩
    have hformed : ops.length = op.operandCount := by
      by_contra hnot
      rw [encodeInstruction, if_pos hnot] at hcode
      cases hcode
    let instr : EmittedInstruction := ⟨.new builder.words.length, op, ops, none, span⟩
    have hwords : instr.words = words := by
      simp only [instr, EmittedInstruction.words, hcode, Except.toOption, Option.getD_some]
    have happend : { builder with
          words := builder.words ++ words
          sourceMap := builder.sourceMap ++ [⟨.new builder.words.length, span⟩]
          registerCount := cnt } = instr.append cnt builder := by
      rw [EmittedInstruction.append, hwords]
      simp only [instr, EmittedInstruction.patch, Option.map_none, Option.toList_none,
        List.append_nil]
    rw [Attempt.ends_bind, Attempt.ends_modify]
    show BuilderEffect builder _ _
    rw [happend]
    have hnative : instr.Native := fun _ hsome => by cases hsome
    exact .emitted instr cnt ⟨fun _ => hformed, fun _ hsome => (by cases hsome),
      (absurd hnative ·)⟩ rfl
      (by rwa [hwords]) hc fun _ => hnoted

theorem emitJump_ends (label : Label) (span : SourceSpan) : (emitJump label span).Ends
      (fun off post =>
        BuilderEffect builder (.emitted ⟨off, .jump, [0], some (label, 0), span⟩) post)
      (fun _ _ => True) builder := by
  rw [emitJump, Attempt.ends_bind]
  refine (ensureLabel_ends label builder).imp ?_ (fun _ _ _ => trivial)
  rintro ⟨⟩ middle rfl
  refine appendPatched_ends builder ⟨.new 0, .jump, [0], some (label, 0), span⟩ label 1 rfl
    (by decide)
    (.of_label rfl one_pos (absurd ?_ ·)) builder.registerCount le_rfl fun _ => rfl
  exact fun _ hsome => by cases hsome; rfl

theorem emitAbruptJump_ends (op : Opcode) (label : Label) (environmentDepth : UInt32)
    (span : SourceSpan) : (emitAbruptJump op label environmentDepth span).Ends
      (fun off post => BuilderEffect builder
        (.emitted ⟨off, op, [0, environmentDepth], some (label, 0), span⟩) post)
      (fun _ _ => True) builder := by
  rw [emitAbruptJump, Attempt.ends_bind]
  refine (ensureLabel_ends label builder).imp ?_ (fun _ _ _ => trivial)
  rintro ⟨⟩ middle rfl
  refine appendPatched_ends builder ⟨.new 0, op, [0, environmentDepth], some (label, 0),
    span⟩ label 1
    rfl (by decide) (.of_label rfl two_pos fun _ => rfl) builder.registerCount le_rfl
      fun hnative => ?_
  -- the jumps whose first operand is the target use no register
  have hjump := hnative (label, 0) rfl
  simp only [labelOperand] at hjump
  split at hjump <;> cases hjump <;> rfl

theorem emitConditionalJump_ends (op : Opcode) (condition : RegisterId) (label : Label)
    (span : SourceSpan) (hcases : op = .jumpIfFalse ∨ op = .jumpIfTrue ∨ op = .jumpIfNotNullish) :
    (emitConditionalJump op condition label span).Ends (fun off post => BuilderEffect builder
        (.emitted ⟨off, op, [condition.index, 0], some (label, 1), span⟩) post)
      (fun _ _ => True) builder := by
  rw [emitConditionalJump, Attempt.ends_bind]
  refine (ensureLabel_ends label builder).imp ?_ (fun _ _ _ => trivial)
  rintro ⟨⟩ middle rfl
  rw [Attempt.ends_bind]
  refine ((onlyCounts_noteRegister condition.index builder).with_outcome).imp ?_
    (fun _ _ _ => trivial)
  rintro ⟨⟩ middle ⟨⟨cnt, hc, rfl⟩, hnoted⟩
  have hs : noteIndexes [condition.index, 0] [0] = noteRegister condition.index := bind_pure_unit
  rw [← hs] at hnoted
  rcases hcases with rfl | rfl | rfl
  all_goals
    exact appendPatched_ends builder ⟨.new 0, _, [condition.index, 0], some (label, 1),
      span⟩ label 2
      rfl (by decide) (.of_label rfl one_lt_two fun _ => rfl) cnt hc fun _ => hnoted

theorem newLabel_ends :
    newLabel.Ends (fun label post => BuilderEffect builder (.created label) post) (fun _ _ => True)
      builder := by
  simp only [newLabel, Attempt.ends_bind, Attempt.ends_get]
  split_ifs with hroom
  · exact .created hroom
  · trivial

theorem bindLabel_ends (label : Label) : (bindLabel label).Ends
      (fun _ post => BuilderEffect builder (.bound label (.new builder.words.length)) post)
      (fun _ _ => True) builder := by
  rw [bindLabel, Attempt.ends_bind]
  refine (nextWordOffset_ends _).imp ?_ (fun _ _ _ => trivial)
  rintro off middle ⟨rfl, rfl, -⟩
  rw [Attempt.ends_bind, Attempt.ends_get]
  split
  · trivial
  · trivial
  next hfree =>
    exact .bound label hfree

end BytecodeBuilder

variable {builder post : BytecodeBuilder}

/-- A successful call has one of the three effects. -/
theorem BuilderCall.run_effect {call : BuilderCall} {event : BuilderEvent} (h : call.run.outcome
    builder = (.ok event, post)) : BuilderEffect builder event post := by
  have hends : call.run.Ends (fun event post => BuilderEffect builder event post) (fun _ _ => True)
      builder := by
    cases call with
    | newLabel => exact (Attempt.ends_bind _ _).mpr (BytecodeBuilder.newLabel_ends builder)
    | bindLabel label =>
      rw [run, Attempt.ends_bind]
      refine (BytecodeBuilder.nextWordOffset_ends builder).imp ?_ (fun _ _ _ => trivial)
      rintro off middle ⟨rfl, rfl, -⟩
      rw [Attempt.ends_bind]
      exact BytecodeBuilder.bindLabel_ends builder label
    | emit op ops span =>
      exact (Attempt.ends_bind _ _).mpr (BytecodeBuilder.emit_ends builder op ops span)
    | emitJump label span =>
      exact (Attempt.ends_bind _ _).mpr (BytecodeBuilder.emitJump_ends builder label span)
    | emitAbruptJump op label environmentDepth span =>
      exact (Attempt.ends_bind _ _).mpr
        (BytecodeBuilder.emitAbruptJump_ends builder op label environmentDepth span)
    | emitJumpIfFalse condition label span =>
      exact (Attempt.ends_bind _ _).mpr
        (BytecodeBuilder.emitConditionalJump_ends builder _ condition label span (.inl rfl))
    | emitJumpIfTrue condition label span =>
      exact (Attempt.ends_bind _ _).mpr
        (BytecodeBuilder.emitConditionalJump_ends builder _ condition label span (.inr (.inl rfl)))
    | emitJumpIfNotNullish condition label span =>
      exact (Attempt.ends_bind _ _).mpr
        (BytecodeBuilder.emitConditionalJump_ends builder _ condition label span (.inr (.inr rfl)))
  exact hends.of_ok h

/-- Performs calls, as long as they succeed. -/
def performCalls : List BuilderCall → BytecodeBuilder × BuilderLog → Option
    (BytecodeBuilder × BuilderLog)
  | [], st => some st
  | call :: rest, (builder, log) =>
    match call.run.outcome builder with
    | (.ok event, after) => performCalls rest (after, log ++ [event])
    | (.error _, _) => none

theorem BuilderRun.perform {calls : List BuilderCall} {log afterLog : BuilderLog} (run : BuilderRun
    builder log) (h : performCalls calls (builder, log) = some (post, afterLog)) :
    BuilderRun post afterLog := by
  induction calls generalizing builder log with
  | nil =>
    cases h
    exact run
  | cons call rest ih =>
    rw [performCalls] at h
    split at h
    next event middle hstep =>
      exact ih (run.call hstep) h
    · cases h

end TachyonEngine.Bytecode
