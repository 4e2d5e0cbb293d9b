import TachyonEngine.Bytecode.Encoding
import TachyonEngine.Lib.CodeStream

/-!
# Stream verification

`verify` decodes a word stream from offset zero, records which offsets start an
instruction, requires a terminal last opcode, and then checks the operand
domains of every instruction; jumps may only name recorded starts. The result
carries the start map, read by `isInstructionStart`.

`VerifiedStream` says what a verified stream is: one trace of decoded
instructions whose offsets are exactly the starts, ending in a terminal opcode,
with every jump target again a start. `verify_stream` shows that `verify`
returns nothing else.
-/

namespace TachyonEngine.Bytecode

open Lib.MachineWord Lib.CodeStream

/-- An immutable constant-pool entry. -/
inductive BytecodeConstant where
  | numberBits (bits : UInt64)
  | string (codeUnits : List UInt16)
  | bigInt (text : String)
  | regExp (pattern : List UInt16) (flags : UInt8)
  | templateSite (cooked : List (Option (List UInt16))) (raw : List (List UInt16))

/-- Pool sizes against which operands are checked. -/
structure VerifyContext where
  registerCount : UInt32
  constants : List BytecodeConstant
  functionCount : UInt32
  scopeNameCount : UInt32
  maxEnvironmentSlotCount : UInt32

/-- Reasons for which a stream is rejected. -/
inductive VerifyError where
  | decode (error : DecodeError)
  | codeTooLarge (wordCount : Nat)
  | registerOutOfRange (off : WordOffset) (register registerCount : UInt32)
  | constantOutOfRange (off : WordOffset) (constant constantCount : UInt32)
  | templateSiteConstantRequired (off : WordOffset) (constant : UInt32)
  | scopeNameOutOfRange (off : WordOffset) (scopeName scopeNameCount : UInt32)
  | functionOutOfRange (off : WordOffset) (function functionCount : UInt32)
  | environmentSlotOutOfRange (off : WordOffset) (slot maxEnvironmentSlotCount : UInt32)
  | invalidBooleanOperand (off : WordOffset) (operand : UInt32)
  | invalidCallArgumentWindow (off : WordOffset) (callee argumentCount registerCount : UInt32)
  | invalidJumpTarget (off : WordOffset) (target : UInt32)
  | missingTerminalInstruction

/-- An unverified word stream. -/
structure Bytecode where
  words : List UInt32

/-- A word stream with the map of its instruction starts. -/
structure VerifiedBytecode where
  bytecode : Bytecode
  starts : List Bool

/-- Whether an instruction of the stream starts at the offset. -/
def VerifiedBytecode.isInstructionStart (code : VerifiedBytecode) (off : WordOffset) : Bool :=
  (code.starts[off.index.toNat]?).getD false

/-! ## Operand domains -/

section Operands

variable (ctx : VerifyContext) (off : WordOffset)

def checkRegister (register : UInt32) : Except VerifyError Unit :=
  if register < ctx.registerCount then .ok ()
  else .error (.registerOutOfRange off register ctx.registerCount)

/-- A register computed with checked arithmetic; overflow reports the largest
word as the register. -/
def checkComputedRegister (register : Option UInt32) : Except VerifyError Unit :=
  match register with
  | none => .error (.registerOutOfRange off maxWord ctx.registerCount)
  | some register => checkRegister ctx off register

/-- The last register of a computed window is missing or out of range. -/
def windowOutOfRange (last : Option UInt32) : Bool :=
  match last with
  | none => true
  | some register => ctx.registerCount ≤ register

/-- Register, slot and window checks of one opcode. -/
def checkOperandDomains (opcode : Opcode) (operands : Vector UInt32 3) :
    Except VerifyError Unit :=
  let check := checkRegister ctx off
  match opcode with
  | .nop | .jump | .enterFinally | .resumeCompletion | .breakThroughFinally
  | .continueThroughFinally | .returnUndefined | .declareScope | .declareGlobalLexical
  | .leaveClassEnvironment | .leaveLexicalEnvironment => .ok ()
  | .enterClassEnvironment | .enterLexicalEnvironment =>
    if operands[0] = 0 ∨ operands[0] > ctx.maxEnvironmentSlotCount then
      .error (.environmentSlotOutOfRange off (saturatingSub operands[0] 1)
        ctx.maxEnvironmentSlotCount)
    else if opcode = .enterLexicalEnvironment ∧ operands[1] > 1 then
      .error (.invalidBooleanOperand off operands[1])
    else .ok ()
  | .loadUndefined | .loadNull | .loadFalse | .loadTrue | .loadImmediate | .loadConstant
  | .loadTemplateObject | .loadScope => check operands[0]
  | .createPrivateName => do
      check operands[0]
      if operands[1] ≥ ctx.scopeNameCount then
        .error (.scopeNameOutOfRange off operands[1] ctx.scopeNameCount)
      else .ok ()
  | .createObject | .createArray | .loadException | .loadThis | .loadNewTarget
  | .loadArgumentsLength | .loadArgumentsObject | .initializeThis | .superConstructForwardAll
  | .checkConstructor | .loadIteratorSymbol | .loadAsyncIteratorSymbol | .checkObject
  | .loadSuperBase => check operands[0]
  | .createAsyncFromSyncIterator => do
      check operands[0]
      check operands[1]
      check operands[2]
  | .initializeClassEnvironment | .initializeLexicalEnvironment => do
      check operands[0]
      if operands[1] ≥ ctx.maxEnvironmentSlotCount then
        .error (.environmentSlotOutOfRange off operands[1] ctx.maxEnvironmentSlotCount)
      else .ok ()
  | .move => do
      check operands[0]
      check operands[1]
  | .not | .negate | .typeof | .toNumber | .toString | .bitwiseNot | .typeofScope
  | .createForInIterator | .forInNext | .excludePropertyKey | .collectRestArguments => do
      check operands[0]
      check operands[1]
  | .update | .setAccessorFunctionName => do
      check operands[0]
      check operands[1]
      if operands[2] > 1 then .error (.invalidBooleanOperand off operands[2]) else .ok ()
  | .createExclusionList | .setFunctionName => check operands[0]
  | .add | .sub | .mul | .div | .strictEqual | .lessThan | .bitwiseAnd | .bitwiseOr
  | .bitwiseXor | .shiftLeft | .shiftRight | .shiftRightUnsigned | .remainder | .exponentiate
  | .greaterThan | .lessEqual | .greaterEqual | .looseEqual | .looseNotEqual | .hasProperty
  | .deleteById | .deleteByValue | .instanceOf | .getByValue | .setByValue | .toPropertyKey
  | .toPropertyKeyForIn | .defineGetterById | .defineSetterById | .defineGetterByValue
  | .defineSetterByValue | .defineClassGetterById | .defineClassSetterById
  | .defineClassMethodByValue | .defineClassGetterByValue | .defineClassSetterByValue
  | .defineFieldByValue | .createDataPropertyByValue | .getPrivate | .setPrivate
  | .createAccessorPair | .definePrivateField | .definePrivateMethod | .definePrivateAccessor
  | .hasPrivate | .copyDataProperties | .dynamicImport | .getSuperByValue => do
      check operands[0]
      check operands[1]
      check operands[2]
  | .setFunctionNameByValue => do
      check operands[0]
      check operands[1]
  | .getSuperById => check operands[0]
  | .loadEnvironment | .storeEnvironment | .initializeEnvironment => check operands[0]
  | .initializeInstanceElements => check operands[0]
  | .getById | .setById | .defineClassMethodById | .defineFieldById | .createDataPropertyById
  | .setFunctionHomeObject | .setObjectLiteralPrototype => do
      check operands[0]
      check operands[1]
  | .call | .tailCall | .directEval | .construct | .superConstruct => do
      check operands[0]
      check operands[1]
      if windowOutOfRange ctx (checkedAdd operands[1] operands[2]) ∧ operands[2] ≠ 0 then
        .error (.invalidCallArgumentWindow off operands[1] operands[2] ctx.registerCount)
      else .ok ()
  | .callWithReceiver | .tailCallWithReceiver => do
      check operands[0]
      check operands[1]
      let last := (checkedAdd operands[1] 1).bind fun callee => checkedAdd callee operands[2]
      if windowOutOfRange ctx last then
        .error (.invalidCallArgumentWindow off (saturatingAdd operands[1] 1) operands[2]
          ctx.registerCount)
      else .ok ()
  | .callSpread | .tailCallSpread | .callSpreadWithReceiver | .tailCallSpreadWithReceiver
  | .directEvalSpread | .constructSpread => do
      check operands[0]
      check operands[1]
      check operands[2]
      if (opcode = .callSpreadWithReceiver ∨ opcode = .tailCallSpreadWithReceiver) ∧
          windowOutOfRange ctx (checkedAdd operands[1] 1) then
        .error (.invalidCallArgumentWindow off (saturatingAdd operands[1] 1) 0 ctx.registerCount)
      else .ok ()
  | .superConstructSpread => do
      check operands[0]
      check operands[1]
  | .initialYield => .ok ()
  | .await | .yield => do
      check operands[0]
      check operands[1]
  | .yieldWithKind => do
      check operands[0]
      check operands[1]
      checkComputedRegister ctx off (checkedAdd operands[1] 1)
  | .jumpIfFalse | .jumpIfTrue | .jumpIfNotNullish => check operands[0]
  | .ret | .throw => check operands[0]
  | .createClosure | .createBaseClass => check operands[0]
  | .createClass => do
      check operands[0]
      check operands[2]
      checkComputedRegister ctx off (checkedAdd operands[2] 1)
  | .attachInstanceFields => do
      check operands[0]
      if operands[2] ≠ 0 then
        let last := (checkedMul operands[2] 4).bind fun length =>
          (checkedAdd operands[1] length).bind fun windowEnd => checkedSub windowEnd 1
        checkComputedRegister ctx off last
      else .ok ()
  | .storeScope | .storeResolvedScope | .initializeGlobalLexical => check operands[0]

/-- Constant-pool references. -/
def checkConstant (opcode : Opcode) (operands : Vector UInt32 3) : Except VerifyError Unit :=
  if opcode = .loadConstant ∨ opcode = .loadTemplateObject then
    match ctx.constants[operands[1].toNat]? with
    | none =>
      .error (.constantOutOfRange off operands[1]
        ((tryFromLength ctx.constants.length).getD maxWord))
    | some (.templateSite _ _) => .ok ()
    | some _ =>
      if opcode = .loadTemplateObject then
        .error (.templateSiteConstantRequired off operands[1])
      else .ok ()
  else .ok ()

/-- The operand that indexes the scope-name pool. -/
def scopeNameOperand (opcode : Opcode) (operands : Vector UInt32 3) : Option UInt32 :=
  match opcode with
  | .loadScope | .storeScope | .storeResolvedScope => some operands[1]
  | .declareScope => some operands[0]
  | .declareGlobalLexical => some operands[0]
  | .initializeGlobalLexical => some operands[1]
  | .getSuperById => some operands[1]
  | .getById | .setById | .defineGetterById | .defineSetterById | .defineClassMethodById
  | .defineClassGetterById | .defineClassSetterById | .defineFieldById
  | .createDataPropertyById => some operands[2]
  | _ => none

def checkScopeName (opcode : Opcode) (operands : Vector UInt32 3) : Except VerifyError Unit :=
  match scopeNameOperand opcode operands with
  | none => .ok ()
  | some scopeName =>
    if scopeName ≥ ctx.scopeNameCount then
      .error (.scopeNameOutOfRange off scopeName ctx.scopeNameCount)
    else .ok ()

def checkFunction (opcode : Opcode) (operands : Vector UInt32 3) : Except VerifyError Unit :=
  if (opcode = .createClosure ∨ opcode = .createClass ∨ opcode = .createBaseClass) ∧
      operands[1] ≥ ctx.functionCount then
    .error (.functionOutOfRange off operands[1] ctx.functionCount)
  else .ok ()

def checkEnvironmentSlot (opcode : Opcode) (operands : Vector UInt32 3) :
    Except VerifyError Unit :=
  if (opcode = .loadEnvironment ∨ opcode = .storeEnvironment) ∧
      operands[2] ≥ ctx.maxEnvironmentSlotCount then
    .error (.environmentSlotOutOfRange off operands[2] ctx.maxEnvironmentSlotCount)
  else .ok ()

def checkMutability (opcode : Opcode) (operands : Vector UInt32 3) : Except VerifyError Unit :=
  if opcode = .declareGlobalLexical ∧ operands[1] > 1 then
    .error (.invalidBooleanOperand off operands[1])
  else .ok ()

end Operands

/-- The word offset a jump, break-through or continue-through transfers to. -/
def jumpTarget (opcode : Opcode) (operands : Vector UInt32 3) : Option UInt32 :=
  match opcode with
  | .jump | .breakThroughFinally | .continueThroughFinally => some operands[0]
  | .jumpIfFalse | .jumpIfTrue | .jumpIfNotNullish => some operands[1]
  | _ => none

def checkJumpTarget (off : WordOffset) (starts : List Bool) (opcode : Opcode)
    (operands : Vector UInt32 3) : Except VerifyError Unit :=
  match jumpTarget opcode operands with
  | none => .ok ()
  | some target =>
    if (starts[target.toNat]?).getD false then .ok ()
    else .error (.invalidJumpTarget off target)

/-- Checks operand domains after the first pass has established every
instruction boundary. -/
def verifyInstruction (instr : DecodedInstruction) (off : WordOffset)
    (starts : List Bool) (ctx : VerifyContext) : Except VerifyError Unit := do
  checkOperandDomains ctx off instr.opcode instr.operands
  checkConstant ctx off instr.opcode instr.operands
  checkScopeName ctx off instr.opcode instr.operands
  checkFunction ctx off instr.opcode instr.operands
  checkEnvironmentSlot ctx off instr.opcode instr.operands
  checkMutability off instr.opcode instr.operands
  checkJumpTarget off starts instr.opcode instr.operands

/-! ## The two passes -/

/-- What the first pass has found so far. -/
structure FirstPass where
  starts : List Bool
  offsets : List (Nat × DecodedInstruction)
  lastOpcode : Option Opcode

/-- Decodes at a `usize` offset, as the stream passes do. -/
def decodeAt (words : List UInt32) (off : Nat) : Except DecodeError DecodedInstruction :=
  decodeInstruction words (WordOffset.new off)

/-- Words an instruction occupies. -/
def DecodedInstruction.length (instr : DecodedInstruction) : Nat := instr.wordLen.toNat

/-- Records one decoded instruction. -/
def recordInstruction (pass : FirstPass) (off : Nat) (instr : DecodedInstruction) :
    Except VerifyError FirstPass :=
  .ok { starts := pass.starts.set off true
        offsets := pass.offsets ++ [(off, instr)]
        lastOpcode := some instr.opcode }

/-- The first pass. Every instruction takes at least one word, so as much fuel
as there are words never runs out. -/
def firstPass (words : List UInt32) : Except VerifyError FirstPass :=
  walk words.length (fun off => (decodeAt words off).mapError VerifyError.decode)
    DecodedInstruction.length .missingTerminalInstruction recordInstruction words.length 0
    { starts := List.replicate words.length false, offsets := [], lastOpcode := none }

/-- Whether the last decoded opcode ends the stream. -/
def endsTerminal : Option Opcode → Bool
  | none => false
  | some opcode => opcode.isTerminal

/-- The second pass over the recorded instructions. -/
def verifyInstructions (starts : List Bool) (ctx : VerifyContext) :
    List (Nat × DecodedInstruction) → Except VerifyError Unit
  | [] => .ok ()
  | (off, instr) :: rest =>
    match verifyInstruction instr (WordOffset.new off) starts ctx with
    | .error e => .error e
    | .ok () => verifyInstructions starts ctx rest

/-- Verifies the complete stream in two passes so jumps can only land on decoded
instruction boundaries. -/
def verify (bytecode : Bytecode) (ctx : VerifyContext) :
    Except VerifyError VerifiedBytecode :=
  if bytecode.words.length > maxWord.toNat then
    .error (.codeTooLarge bytecode.words.length)
  else
    match firstPass bytecode.words with
    | .error e => .error e
    | .ok pass =>
      if endsTerminal pass.lastOpcode then
        match verifyInstructions pass.starts ctx pass.offsets with
        | .error e => .error e
        | .ok () => .ok { bytecode, starts := pass.starts }
      else .error .missingTerminalInstruction

/-! ## What a decoded instruction occupies -/

variable {words : List UInt32} {instr : DecodedInstruction}

variable {off : WordOffset}

/-- A decoded instruction has one to four words, all of them in the stream. -/
theorem decodeInstruction_extent (h : decodeInstruction words off = .ok instr) :
    0 < instr.length ∧ instr.length ≤ 4 ∧ off.index.toNat + instr.length ≤ words.length := by
  obtain ⟨header, op, hget, -, ⟨-, hform⟩ | ⟨-, hform⟩ | ⟨-, hform⟩⟩ := decodeInstruction_cases h
  · have hin : off.index.toNat < words.length := (List.getElem?_eq_some_iff.mp hget).1
    subst hform
    show 0 < 1 ∧ 1 ≤ 4 ∧ off.index.toNat + 1 ≤ words.length
    omega
  · have hthree := op.operandCount_le_three
    obtain ⟨hin, rfl⟩ := decodeNormal_ok hform
    simp only [DecodedInstruction.length, UInt8.toNat_ofNat']
    omega
  · have hthree := op.operandCount_le_three
    obtain ⟨hin, rfl⟩ := decodeEscape_ok hform
    simp only [DecodedInstruction.length, UInt8.toNat_ofNat']
    omega

/-- The same at a `usize` offset inside the 32-bit range. -/
theorem decodeAt_extent {off : Nat} (hoff : off < 2 ^ 32) (h : decodeAt words off = .ok instr) :
    0 < instr.length ∧ instr.length ≤ 4 ∧ off + instr.length ≤ words.length := by
  have hextent := decodeInstruction_extent h
  rw [index_toNat_new hoff] at hextent
  exact hextent

/-! ## The trace of a verified stream -/

/-- The decoder of a stream without its error values. -/
def decodeOption (words : List UInt32) (off : Nat) : Option DecodedInstruction :=
  (decodeAt words off).toOption

/-- The instructions of a stream from an offset on. -/
abbrev InstructionTrace (words : List UInt32) :
    Nat → List (Nat × DecodedInstruction) → Prop :=
  Trace words.length (decodeOption words) DecodedInstruction.length

theorem decodeOption_eq_some {off : Nat} :
    decodeOption words off = some instr ↔ decodeAt words off = .ok instr :=
  forgetErrors_eq_some

variable {ε : Type}

/-- Wrapping decode errors does not change which instructions decode. -/
theorem forgetErrors_mapError (words : List UInt32) (wrap : DecodeError → ε) :
    forgetErrors (fun off => (decodeAt words off).mapError wrap) = decodeOption words := by
  funext off
  simp only [forgetErrors, decodeOption]
  cases decodeAt words off <;> rfl

/-- The start map after a list of instructions has been recorded. -/
def markStarts (trace : List (Nat × DecodedInstruction)) (starts : List Bool) : List Bool :=
  trace.foldl (fun marked entry => marked.set entry.1 true) starts

theorem foldBody_recordInstruction (trace : List (Nat × DecodedInstruction)) (pass : FirstPass) :
    foldBody recordInstruction trace pass =
      .ok { starts := markStarts trace pass.starts
            offsets := pass.offsets ++ trace
            lastOpcode := (trace.getLast?.map fun ent => ent.2.opcode).or pass.lastOpcode } := by
  induction trace generalizing pass with
  | nil => simp [foldBody, markStarts]
  | cons ent rest ih =>
    simp only [foldBody, recordInstruction]
    rw [ih]
    rw [List.getLast?_cons]
    cases rest.getLast? <;> simp [markStarts]

/-- A marked offset was marked before or starts a recorded instruction. -/
theorem getD_markStarts (trace : List (Nat × DecodedInstruction)) (starts : List Bool)
    (hin : ∀ ent ∈ trace, ent.1 < starts.length) (off : Nat) :
    (markStarts trace starts)[off]?.getD false = true ↔
      starts[off]?.getD false = true ∨ ∃ instr, (off, instr) ∈ trace := by
  induction trace generalizing starts with
  | nil => simp [markStarts]
  | cons ent rest ih =>
    rcases ent with ⟨first, instr⟩
    have hfirst : first < starts.length := hin (first, instr) List.mem_cons_self
    have hrest : ∀ ent ∈ rest, ent.1 < (starts.set first true).length := by
      intro ent hm
      rw [List.length_set]
      exact hin ent (List.mem_cons_of_mem _ hm)
    have e : markStarts ((first, instr) :: rest) starts =
        markStarts rest (starts.set first true) := rfl
    rw [e, ih _ hrest, List.getElem?_set]
    by_cases hoff : first = off
    · subst hoff
      rw [if_pos rfl, if_pos hfirst]
      exact ⟨fun _ => .inr ⟨instr, List.mem_cons_self⟩, fun _ => .inl rfl⟩
    · rw [if_neg hoff]
      constructor
      · rintro (hold | ⟨i, hi⟩)
        · exact .inl hold
        · exact .inr ⟨i, List.mem_cons_of_mem _ hi⟩
      · rintro (hold | ⟨i, hi⟩)
        · exact .inl hold
        · rcases List.mem_cons.mp hi with heq | hi'
          · exact absurd (congrArg Prod.fst heq).symm hoff
          · exact .inr ⟨i, hi'⟩

/-- A stream whose recorded starts are exactly its instruction boundaries. -/
structure VerifiedStream (code : VerifiedBytecode)
    (trace : List (Nat × DecodedInstruction)) : Prop where
  small : code.bytecode.words.length < 2 ^ 32
  trace_zero : InstructionTrace code.bytecode.words 0 trace
  starts_iff : ∀ off, code.starts[off]?.getD false = true ↔
    ∃ instr, (off, instr) ∈ trace
  terminal_last : ∃ off instr, trace.getLast? = some (off, instr) ∧ instr.opcode.isTerminal = true
  jump_start : ∀ off instr target, (off, instr) ∈ trace →
    jumpTarget instr.opcode instr.operands = some target →
      code.starts[target.toNat]?.getD false = true

variable {starts : List Bool}

variable {tgt : UInt32}

theorem checkJumpTarget_ok {op : Opcode} {ops : Vector UInt32 3} (h : checkJumpTarget off starts op
    ops = .ok ()) (ht : jumpTarget op ops = some tgt) : starts[tgt.toNat]?.getD false = true := by
  simp only [checkJumpTarget, ht] at h
  by_cases hst : starts[tgt.toNat]?.getD false = true
  · exact hst
  · rw [if_neg hst] at h
    cases h

/-- A sequence of unit checks succeeds when each of them does. -/
theorem andThen_ok {first : Except ε Unit} {rest : Unit → Except ε Unit} (h : (first >>= rest) = .ok
    ()) : first = .ok () ∧ rest () = .ok () := by
  cases first with
  | error e => cases h
  | ok u => exact ⟨rfl, h⟩

variable {ctx : VerifyContext}

theorem verifyInstruction_jump (h : verifyInstruction instr off starts ctx = .ok ()) (ht :
    jumpTarget instr.opcode instr.operands = some tgt) : starts[tgt.toNat]?.getD false = true := by
  obtain ⟨-, h⟩ := andThen_ok h
  obtain ⟨-, h⟩ := andThen_ok h
  obtain ⟨-, h⟩ := andThen_ok h
  obtain ⟨-, h⟩ := andThen_ok h
  obtain ⟨-, h⟩ := andThen_ok h
  obtain ⟨-, h⟩ := andThen_ok h
  exact checkJumpTarget_ok h ht

theorem verifyInstructions_mem {trace : List (Nat × DecodedInstruction)} (h : verifyInstructions
    starts ctx trace = .ok ()) {off : Nat} (hm : (off, instr) ∈ trace) :
    verifyInstruction instr (WordOffset.new off) starts ctx = .ok () := by
  induction trace with
  | nil => cases hm
  | cons ent rest ih =>
    rcases ent with ⟨first, head⟩
    simp only [verifyInstructions] at h
    cases hhead : verifyInstruction head (WordOffset.new first) starts ctx with
    | error e => rw [hhead] at h; cases h
    | ok u =>
      rw [hhead] at h
      rcases List.mem_cons.mp hm with heq | hrest
      · cases heq
        exact hhead
      · exact ih h hrest

/-- The first pass finds a trace of the whole stream. -/
theorem firstPass_trace {pass : FirstPass} (h : firstPass words = .ok pass) :
    InstructionTrace words 0 pass.offsets ∧
      pass.starts = markStarts pass.offsets (List.replicate words.length false) ∧
      pass.lastOpcode = pass.offsets.getLast?.map fun ent => ent.2.opcode := by
  obtain ⟨trace, htr, hfold⟩ := walk_eq_foldBody h
  rw [forgetErrors_mapError] at htr
  rw [foldBody_recordInstruction] at hfold
  cases hfold
  refine ⟨htr, rfl, ?_⟩
  simp

/-- What verification returns is a verified stream. -/
theorem verify_stream {bytecode : Bytecode} {code : VerifiedBytecode} (h : verify bytecode ctx = .ok
    code) : code.bytecode = bytecode ∧ ∃ trace, VerifiedStream code trace := by
  simp only [verify] at h
  split_ifs at h
  cases hpass : firstPass bytecode.words with
  | error e => rw [hpass] at h; cases h
  | ok pass =>
    rw [hpass] at h
    simp only at h
    split at h
    next hterminal =>
      cases hsec : verifyInstructions pass.starts ctx pass.offsets with
      | error e => rw [hsec] at h; cases h
      | ok u =>
        rw [hsec] at h
        cases h
        obtain ⟨htr, hstarts, hl⟩ := firstPass_trace hpass
        refine ⟨rfl, pass.offsets, ?_, htr, ?_, ?_, ?_⟩
        · have e : maxWord.toNat = 2 ^ 32 - 1 := rfl
          show bytecode.words.length < 2 ^ 32
          omega
        · intro off
          have hin : ∀ ent ∈ pass.offsets,
              ent.1 < (List.replicate bytecode.words.length false).length := by
            intro ent hm
            rw [List.length_replicate]
            exact (htr.mem_facts hm).1
          show pass.starts[off]?.getD false = true ↔ _
          rw [hstarts, getD_markStarts _ _ hin off]
          refine or_iff_right ?_
          rw [List.getElem?_replicate]
          split <;> simp
        · rw [hl] at hterminal
          cases hget : pass.offsets.getLast? with
          | none => rw [hget] at hterminal; cases hterminal
          | some ent =>
            rw [hget] at hterminal
            exact ⟨ent.1, ent.2, rfl, hterminal⟩
        · intro off instr tgt hm ht
          exact verifyInstruction_jump (verifyInstructions_mem hsec hm) ht
    · cases h

namespace VerifiedStream

variable {code : VerifiedBytecode} {trace : List (Nat × DecodedInstruction)}

/-- At a recorded start the checked decoder returns the recorded instruction. -/
theorem decode_start (hcode : VerifiedStream code trace) {off : Nat}
    {instr : DecodedInstruction} (hm : (off, instr) ∈ trace) : off < code.bytecode.words.length ∧
      decodeAt code.bytecode.words off = .ok instr := by
  obtain ⟨hin, hdec⟩ := hcode.trace_zero.mem_facts hm
  exact ⟨hin, decodeOption_eq_some.mp hdec⟩

end VerifiedStream

end TachyonEngine.Bytecode
