import TachyonEngine.Bytecode.Metadata
import TachyonEngine.Bytecode.RoundTrip
import TachyonEngine.Lib.Surviving

/-!
# The bytecode builder

A builder appends instructions and keeps, beside the words, the labels, the operand words that wait
for the offset of a label, one source map entry an instruction, and the number of registers that the
operands use. `finish` writes the offsets of the labels into the words.
-/

namespace TachyonEngine.Bytecode

open Lib Lib.MachineWord

structure Label where
  index : UInt32
  deriving DecidableEq

inductive BuilderError where
  | encode (error : EncodeError)
  | invalidLabel (label : Label)
  | labelAlreadyBound (label : Label)
  | unboundLabel (label : Label)
  | labelCountOverflow
  | codeSizeOverflow
  | registerCountOverflow

structure JumpPatch where
  label : Label
  operandWord : WordOffset

structure BytecodeBuilder where
  words : List UInt32
  labels : List (Option WordOffset)
  patches : List JumpPatch
  sourceMap : List SourceMapEntry
  registerCount : UInt32

abbrev BuilderM := Attempt BytecodeBuilder BuilderError

namespace BytecodeBuilder

def empty : BytecodeBuilder :=
  { words := [], labels := [], patches := [], sourceMap := [], registerCount := 0 }

/-! ## Labels and offsets -/

def newLabel : BuilderM Label := do
  let builder ← get
  if builder.labels.length < 2 ^ 32 then
    modify fun builder => { builder with labels := builder.labels ++ [none] }
    pure ⟨UInt32.ofNat builder.labels.length⟩
  else throw .labelCountOverflow

def nextWordOffset : BuilderM WordOffset := do
  let builder ← get
  if builder.words.length < 2 ^ 32 then pure (.new builder.words.length)
  else throw .codeSizeOverflow

def bindLabel (label : Label) : BuilderM Unit := do
  let offset ← nextWordOffset
  let builder ← get
  match builder.labels[label.index.toNat]? with
  | none => throw (.invalidLabel label)
  | some (some _) => throw (.labelAlreadyBound label)
  | some none =>
    modify fun builder =>
      { builder with labels := builder.labels.set label.index.toNat (some offset) }

def ensureLabel (label : Label) : BuilderM Unit := do
  let builder ← get
  if label.index.toNat < builder.labels.length then pure ()
  else throw (.invalidLabel label)

def ensureWordCapacity (additional : Nat) : BuilderM Unit := do
  let builder ← get
  if builder.words.length + additional < 2 ^ 32 then pure ()
  else throw .codeSizeOverflow

/-! ## Registers -/

def noteRegister (register : UInt32) : BuilderM Unit :=
  match checkedAdd register 1 with
  | none => throw .registerCountOverflow
  | some count =>
    modify fun builder => { builder with registerCount := max builder.registerCount count }

/-- A register computed with checked arithmetic. -/
def noteComputed (register : Option UInt32) : BuilderM Unit :=
  match register with
  | none => throw .registerCountOverflow
  | some register => noteRegister register

/-- The operands at the indexes that there are. -/
def noteIndexes (operands : List UInt32) : List Nat → BuilderM Unit
  | [] => pure ()
  | index :: rest => do
      match operands[index]? with
      | some register => noteRegister register
      | none => pure ()
      noteIndexes operands rest

/-- Notes the registers among the operands, and those of the window behind an operand. -/
def noteRegisters (opcode : Opcode) (operands : List UInt32) : BuilderM Unit :=
  let note := noteIndexes operands
  let operand := fun index => operands.getD index 0
  match opcode with
  | .nop | .initialYield | .jump | .enterFinally | .resumeCompletion | .breakThroughFinally
  | .continueThroughFinally | .returnUndefined | .declareScope | .declareGlobalLexical
  | .leaveClassEnvironment | .leaveLexicalEnvironment => note []
  | .enterClassEnvironment | .enterLexicalEnvironment => note []
  | .loadUndefined | .loadNull | .loadFalse | .loadTrue | .loadImmediate | .loadConstant
  | .loadTemplateObject | .loadScope | .createClosure | .createBaseClass | .storeScope
  | .storeResolvedScope | .initializeGlobalLexical | .initializeClassEnvironment
  | .initializeLexicalEnvironment | .createPrivateName | .loadIteratorSymbol
  | .loadAsyncIteratorSymbol | .checkObject | .ret | .throw => note [0]
  | .createAsyncFromSyncIterator => note [0, 1, 2]
  | .createObject | .createArray | .loadException | .loadThis | .loadNewTarget
  | .loadArgumentsLength | .loadArgumentsObject | .initializeThis | .superConstructForwardAll
  | .checkConstructor | .loadSuperBase | .initializeInstanceElements => note [0]
  | .move | .not | .negate | .typeof | .toNumber | .toString | .bitwiseNot | .typeofScope
  | .createForInIterator | .forInNext | .createExclusionList | .excludePropertyKey
  | .collectRestArguments => note [0, 1]
  | .update => note [0, 1]
  | .jumpIfFalse | .jumpIfTrue | .jumpIfNotNullish => note [0]
  | .add | .sub | .mul | .div | .strictEqual | .lessThan | .bitwiseAnd | .bitwiseOr
  | .bitwiseXor | .shiftLeft | .shiftRight | .shiftRightUnsigned | .remainder | .exponentiate
  | .greaterThan | .lessEqual | .greaterEqual | .looseEqual | .looseNotEqual | .hasProperty
  | .deleteById | .deleteByValue | .instanceOf | .getByValue | .setByValue | .toPropertyKey
  | .toPropertyKeyForIn | .defineGetterById | .defineSetterById | .defineGetterByValue
  | .defineSetterByValue | .copyDataProperties | .getPrivate | .setPrivate
  | .createAccessorPair | .definePrivateField | .definePrivateMethod | .definePrivateAccessor
  | .hasPrivate => note [0, 1, 2]
  | .dynamicImport => note [0, 1, 2]
  | .setAccessorFunctionName => note [0, 1]
  | .setFunctionName => note [0]
  | .loadEnvironment | .storeEnvironment | .initializeEnvironment => note [0]
  | .getById | .setById => note [0, 1]
  | .defineClassMethodById | .defineClassGetterById | .defineClassSetterById => note [0, 1]
  | .setFunctionNameByValue => note [0, 1]
  | .defineClassMethodByValue | .defineClassGetterByValue | .defineClassSetterByValue
  | .defineFieldByValue => note [0, 1, 2]
  | .setFunctionHomeObject => note [0, 1]
  | .setObjectLiteralPrototype => note [0, 1]
  | .defineFieldById | .createDataPropertyById => note [0, 1]
  | .createDataPropertyByValue => note [0, 1, 2]
  | .getSuperById => note [0]
  | .getSuperByValue => note [0, 1, 2]
  | .call | .tailCall | .directEval | .construct | .superConstruct => do
      note [0, 1]
      if operand 2 ≠ 0 then noteComputed (checkedAdd (operand 1) (operand 2)) else pure ()
  | .createClass => note [0, 2]
  | .attachInstanceFields => do
      noteRegister (operand 0)
      if operand 2 ≠ 0 then
        noteComputed ((checkedMul (operand 2) 4).bind fun length =>
          (checkedAdd (operand 1) length).bind fun windowEnd => checkedSub windowEnd 1)
      else pure ()
  | .callWithReceiver | .tailCallWithReceiver => do
      note [0, 1]
      noteComputed ((checkedAdd (operand 1) 1).bind fun callee => checkedAdd callee (operand 2))
  | .callSpread | .tailCallSpread | .callSpreadWithReceiver | .tailCallSpreadWithReceiver
  | .directEvalSpread | .constructSpread => note [0, 1, 2]
  | .superConstructSpread => note [0, 1]
  | .yieldWithKind => do
      note [0, 1]
      noteComputed (checkedAdd (operand 1) 1)
  | .await | .yield => note [0, 1]

/-! ## Instructions -/

/-- Emits an instruction in its smallest form. -/
def emit (opcode : Opcode) (operands : List UInt32) (span : SourceSpan) : BuilderM WordOffset :=
  match encodeInstruction opcode operands with
  | .error error => throw (.encode error)
  | .ok words => do
      ensureWordCapacity words.length
      noteRegisters opcode operands
      let offset ← nextWordOffset
      modify fun builder =>
        { builder with
          words := builder.words ++ words
          sourceMap := builder.sourceMap ++ [⟨offset, span⟩] }
      pure offset

/-- The header of a fixed-width instruction. -/
def wideHeader (opcode : Opcode) : UInt32 :=
    (UInt8.ofNat opcode.discriminant ||| wideFormat).toUInt32

/-- Appends a fixed-width instruction of which one operand word waits for a label. -/
def appendPatched (words : List UInt32) (label : Label) (operandWord : UInt32) (span : SourceSpan) :
    BuilderM WordOffset := do
  ensureWordCapacity words.length
  let offset ← nextWordOffset
  modify fun builder =>
    { builder with
      words := builder.words ++ words
      patches := builder.patches ++ [⟨label, ⟨offset.index + operandWord⟩⟩]
      sourceMap := builder.sourceMap ++ [⟨offset, span⟩] }
  pure offset

def emitJump (label : Label) (span : SourceSpan) : BuilderM WordOffset := do
  ensureLabel label
  appendPatched [wideHeader .jump, 0] label 1 span

/-- Emits a jump through finalizers. That the opcode is one of these is asserted in debug builds
only. -/
def emitAbruptJump (opcode : Opcode) (label : Label) (environmentDepth : UInt32)
    (span : SourceSpan) :
    BuilderM WordOffset := do
  ensureLabel label
  appendPatched [wideHeader opcode, 0, environmentDepth] label 1 span

/-- Records one register-and-target branch. -/
def emitConditionalJump (opcode : Opcode) (condition : RegisterId) (label : Label)
    (span : SourceSpan) :
    BuilderM WordOffset := do
  ensureLabel label
  noteRegister condition.index
  appendPatched [wideHeader opcode, condition.index, 0] label 2 span

def emitJumpIfFalse (condition : RegisterId) (label : Label) (span : SourceSpan) :
    BuilderM WordOffset :=
  emitConditionalJump .jumpIfFalse condition label span

def emitJumpIfTrue (condition : RegisterId) (label : Label) (span : SourceSpan) :
    BuilderM WordOffset :=
  emitConditionalJump .jumpIfTrue condition label span

def emitJumpIfNotNullish (condition : RegisterId) (label : Label) (span : SourceSpan) :
    BuilderM WordOffset :=
  emitConditionalJump .jumpIfNotNullish condition label span

/-! ## Finishing -/

/-- Writes the offsets of the labels into the operand words. -/
def patchWords (labels : List (Option WordOffset)) :
    List JumpPatch → List UInt32 → Except BuilderError (List UInt32)
  | [], words => .ok words
  | patch :: rest, words =>
    match labels[patch.label.index.toNat]? with
    | none => .error (.invalidLabel patch.label)
    | some none => .error (.unboundLabel patch.label)
    | some (some target) =>
      patchWords labels rest (words.set patch.operandWord.index.toNat target.index)

/-- Freezes the words, the source map and the number of registers. -/
def finish (builder : BytecodeBuilder) :
    Except BuilderError (List UInt32 × List SourceMapEntry × UInt32) :=
  match patchWords builder.labels builder.patches builder.words with
  | .error error => .error error
  | .ok words => .ok (words, builder.sourceMap, builder.registerCount)

end BytecodeBuilder

/-! ## Sequences of calls -/

/-- An instruction as it was emitted: the operands that were given, with the place that waits for a
label. -/
structure EmittedInstruction where
  offset : WordOffset
  opcode : Opcode
  operands : List UInt32
  label : Option (Label × Nat)
  span : SourceSpan

inductive BuilderEvent where
  | created (label : Label)
  | bound (label : Label) (offset : WordOffset)
  | emitted (instruction : EmittedInstruction)

abbrev BuilderLog := List BuilderEvent

inductive BuilderCall where
  | newLabel
  | bindLabel (label : Label)
  | emit (opcode : Opcode) (operands : List UInt32) (span : SourceSpan)
  | emitJump (label : Label) (span : SourceSpan)
  | emitAbruptJump (opcode : Opcode) (label : Label) (environmentDepth : UInt32) (span : SourceSpan)
  | emitJumpIfFalse (condition : RegisterId) (label : Label) (span : SourceSpan)
  | emitJumpIfTrue (condition : RegisterId) (label : Label) (span : SourceSpan)
  | emitJumpIfNotNullish (condition : RegisterId) (label : Label) (span : SourceSpan)

namespace BuilderCall

open BytecodeBuilder

/-- Performs a call, and tells what it did. -/
def run : BuilderCall → BuilderM BuilderEvent
  | newLabel => do
      let label ← BytecodeBuilder.newLabel
      pure (.created label)
  | bindLabel label => do
      let offset ← nextWordOffset
      BytecodeBuilder.bindLabel label
      pure (.bound label offset)
  | emit opcode operands span => do
      let offset ← BytecodeBuilder.emit opcode operands span
      pure (.emitted { offset, opcode, operands, label := none, span })
  | emitJump label span => do
      let offset ← BytecodeBuilder.emitJump label span
      pure (.emitted { offset, opcode := .jump, operands := [0], label := some (label, 0), span })
  | emitAbruptJump opcode label environmentDepth span => do
      let offset ← BytecodeBuilder.emitAbruptJump opcode label environmentDepth span
      pure (.emitted
        { offset, opcode, operands := [0, environmentDepth], label := some (label, 0), span })
  | emitJumpIfFalse condition label span => do
      let offset ← BytecodeBuilder.emitJumpIfFalse condition label span
      pure (.emitted
        { offset, opcode := .jumpIfFalse, operands := [condition.index, 0], label :=
          some (label, 1), span })
  | emitJumpIfTrue condition label span => do
      let offset ← BytecodeBuilder.emitJumpIfTrue condition label span
      pure (.emitted
        { offset, opcode := .jumpIfTrue, operands := [condition.index, 0], label :=
          some (label, 1), span })
  | emitJumpIfNotNullish condition label span => do
      let offset ← BytecodeBuilder.emitJumpIfNotNullish condition label span
      pure (.emitted
        { offset, opcode := .jumpIfNotNullish, operands := [condition.index, 0]
          label := some (label, 1), span })

end BuilderCall

/-- The builders that sequences of successful calls lead to, with what the calls did. -/
inductive BuilderRun : BytecodeBuilder → BuilderLog → Prop
  | start : BuilderRun .empty []
  | call {builder after : BytecodeBuilder} {log : BuilderLog} (run : BuilderRun builder log)
      {call : BuilderCall} {event : BuilderEvent}
        (step : call.run.outcome builder = (.ok event, after)) :
      BuilderRun after (log ++ [event])

namespace BuilderLog

/-- The emitted instructions, in order. -/
def emitted (log : BuilderLog) : List EmittedInstruction := log.filterMap fun
    | .emitted instruction => some instruction
    | _ => none

/-- The bound labels, with the offsets that were recorded. -/
def bound (log : BuilderLog) : List (Label × WordOffset) := log.filterMap fun
    | .bound label offset => some (label, offset)
    | _ => none

end BuilderLog

end TachyonEngine.Bytecode
