import Mathlib.Data.List.Basic

/-!
# Opcodes of the register bytecode

The 146 semantic opcodes with their dense discriminants, the operand-count
table, and the two tables that recover an opcode from an encoded header: the
first 64 opcodes are named by a base number, the others by an index behind the
escape format. `fromBase_discriminant` and `fromExtended_discriminant` say that
the tables invert the discriminant; `discriminant_of_fromBase` and
`discriminant_of_fromExtended` say that they name nothing else.
-/

namespace TachyonEngine.Bytecode

/-- The semantic opcode, independent of its compact, normal or wide encoding
form. The constructors stand in the order of the source's discriminants. -/
inductive Opcode where
  | nop | loadImmediate | loadConstant | move | add | sub | mul | div | strictEqual | jump
  | jumpIfFalse | ret | throw | call | createClosure | loadScope | storeScope | await | yield
  | loadUndefined | loadNull | loadFalse | loadTrue | not | jumpIfTrue | jumpIfNotNullish
  | negate | createObject | getById | setById | callWithReceiver | loadException | construct
  | loadThis | loadNewTarget | lessThan | getByValue | setByValue | typeof | declareScope
  | instanceOf | storeResolvedScope | loadEnvironment | storeEnvironment | declareGlobalLexical
  | initializeGlobalLexical | returnUndefined | toNumber | bitwiseNot | bitwiseAnd | bitwiseOr
  | bitwiseXor | shiftLeft | shiftRight | shiftRightUnsigned | remainder | exponentiate
  | greaterThan | lessEqual | greaterEqual | looseEqual | looseNotEqual | hasProperty
  | typeofScope | deleteById | deleteByValue | createArray | createForInIterator | forInNext
  | loadArgumentsLength | enterFinally | resumeCompletion | breakThroughFinally
  | continueThroughFinally | toPropertyKey | toPropertyKeyForIn | setFunctionName
  | defineGetterById | defineSetterById | defineGetterByValue | defineSetterByValue
  | setAccessorFunctionName | createExclusionList | excludePropertyKey | copyDataProperties
  | collectRestArguments | loadArgumentsObject | createClass | superConstruct | initializeThis
  | checkConstructor | defineClassMethodById | superConstructForwardAll | createBaseClass
  | defineClassGetterById | defineClassSetterById | setFunctionNameByValue
  | defineClassMethodByValue | defineClassGetterByValue | defineClassSetterByValue
  | loadSuperBase | getSuperById | getSuperByValue | enterClassEnvironment
  | initializeClassEnvironment | leaveClassEnvironment | setFunctionHomeObject | defineFieldById
  | defineFieldByValue | attachInstanceFields | initializeInstanceElements | createPrivateName
  | getPrivate | setPrivate | createAccessorPair | definePrivateField | definePrivateMethod
  | definePrivateAccessor | hasPrivate | tailCall | tailCallWithReceiver | directEval
  | initializeEnvironment | createDataPropertyById | createDataPropertyByValue
  | loadIteratorSymbol | checkObject | yieldWithKind | callSpread | tailCallSpread
  | callSpreadWithReceiver | tailCallSpreadWithReceiver | directEvalSpread
  | loadAsyncIteratorSymbol | createAsyncFromSyncIterator | initialYield | dynamicImport
  | loadTemplateObject | setObjectLiteralPrototype | toString | update | enterLexicalEnvironment
  | initializeLexicalEnvironment | leaveLexicalEnvironment | constructSpread
  | superConstructSpread
  deriving DecidableEq

namespace Opcode

/-- The number the source's `opcode as usize` yields. -/
def discriminant (opcode : Opcode) : Nat := opcode.ctorIdx

/-- Number of semantic opcodes. -/
def count : Nat := 146

/-- Opcodes below this number have a base encoding; the others are escaped. -/
def baseOpcodeCount : Nat := 64

/-- Operand counts, indexed by discriminant. -/
def operandCounts : List Nat :=
  [0, 2, 2, 2, 3, 3, 3, 3, 3, 1, 2, 1, 1, 3, 2, 2, 2, 3, 3, 1, 1, 1, 1, 2, 2, 2, 2, 1, 3, 3, 3,
   1, 3, 1, 1, 3, 3, 3, 2, 1, 3, 2, 3, 3, 2, 2, 0, 2, 2, 3, 3, 3, 3, 3, 3, 3, 3, 3, 3, 3, 3, 3,
   3, 2, 3, 3, 1, 2, 2, 1, 0, 0, 2, 2, 3, 3, 2, 3, 3, 3, 3, 3, 2, 2, 3, 2, 1, 3, 3, 1, 1, 3, 1,
   2, 3, 3, 2, 3, 3, 3, 1, 2, 3, 1, 2, 0, 2, 3, 3, 3, 1, 2, 3, 3, 3, 3, 3, 3, 3, 3, 3, 3, 3, 3,
   3, 1, 1, 3, 3, 3, 3, 3, 3, 1, 3, 0, 3, 2, 2, 2, 3, 2, 2, 0, 3, 2]

/-- Number of operands the opcode takes. -/
def operandCount (opcode : Opcode) : Nat := operandCounts.getD opcode.discriminant 0

/-- Opcodes after which control never falls through to the next instruction. -/
def isTerminal : Opcode → Bool
  | jump | ret | returnUndefined | throw | enterFinally | breakThroughFinally
  | continueThroughFinally => true
  | _ => false

/-- Opcode of a base number. -/
def fromBase : Nat → Option Opcode
  | 0 => some nop
  | 1 => some loadImmediate
  | 2 => some loadConstant
  | 3 => some move
  | 4 => some add
  | 5 => some sub
  | 6 => some mul
  | 7 => some div
  | 8 => some strictEqual
  | 9 => some jump
  | 10 => some jumpIfFalse
  | 11 => some ret
  | 12 => some throw
  | 13 => some call
  | 14 => some createClosure
  | 15 => some loadScope
  | 16 => some storeScope
  | 17 => some await
  | 18 => some yield
  | 19 => some loadUndefined
  | 20 => some loadNull
  | 21 => some loadFalse
  | 22 => some loadTrue
  | 23 => some not
  | 24 => some jumpIfTrue
  | 25 => some jumpIfNotNullish
  | 26 => some negate
  | 27 => some createObject
  | 28 => some getById
  | 29 => some setById
  | 30 => some callWithReceiver
  | 31 => some loadException
  | 32 => some construct
  | 33 => some loadThis
  | 34 => some loadNewTarget
  | 35 => some lessThan
  | 36 => some getByValue
  | 37 => some setByValue
  | 38 => some typeof
  | 39 => some declareScope
  | 40 => some instanceOf
  | 41 => some storeResolvedScope
  | 42 => some loadEnvironment
  | 43 => some storeEnvironment
  | 44 => some declareGlobalLexical
  | 45 => some initializeGlobalLexical
  | 46 => some returnUndefined
  | 47 => some toNumber
  | 48 => some bitwiseNot
  | 49 => some bitwiseAnd
  | 50 => some bitwiseOr
  | 51 => some bitwiseXor
  | 52 => some shiftLeft
  | 53 => some shiftRight
  | 54 => some shiftRightUnsigned
  | 55 => some remainder
  | 56 => some exponentiate
  | 57 => some greaterThan
  | 58 => some lessEqual
  | 59 => some greaterEqual
  | 60 => some looseEqual
  | 61 => some looseNotEqual
  | 62 => some hasProperty
  | 63 => some typeofScope
  | _ => none

/-- Opcode of an escaped index. -/
def fromExtended : Nat → Option Opcode
  | 0 => some deleteById
  | 1 => some deleteByValue
  | 2 => some createArray
  | 3 => some createForInIterator
  | 4 => some forInNext
  | 5 => some loadArgumentsLength
  | 6 => some enterFinally
  | 7 => some resumeCompletion
  | 8 => some breakThroughFinally
  | 9 => some continueThroughFinally
  | 10 => some toPropertyKey
  | 11 => some toPropertyKeyForIn
  | 12 => some setFunctionName
  | 13 => some defineGetterById
  | 14 => some defineSetterById
  | 15 => some defineGetterByValue
  | 16 => some defineSetterByValue
  | 17 => some setAccessorFunctionName
  | 18 => some createExclusionList
  | 19 => some excludePropertyKey
  | 20 => some copyDataProperties
  | 21 => some collectRestArguments
  | 22 => some loadArgumentsObject
  | 23 => some createClass
  | 24 => some superConstruct
  | 25 => some initializeThis
  | 26 => some checkConstructor
  | 27 => some defineClassMethodById
  | 28 => some superConstructForwardAll
  | 29 => some createBaseClass
  | 30 => some defineClassGetterById
  | 31 => some defineClassSetterById
  | 32 => some setFunctionNameByValue
  | 33 => some defineClassMethodByValue
  | 34 => some defineClassGetterByValue
  | 35 => some defineClassSetterByValue
  | 36 => some loadSuperBase
  | 37 => some getSuperById
  | 38 => some getSuperByValue
  | 39 => some enterClassEnvironment
  | 40 => some initializeClassEnvironment
  | 41 => some leaveClassEnvironment
  | 42 => some setFunctionHomeObject
  | 43 => some defineFieldById
  | 44 => some defineFieldByValue
  | 45 => some attachInstanceFields
  | 46 => some initializeInstanceElements
  | 47 => some createPrivateName
  | 48 => some getPrivate
  | 49 => some setPrivate
  | 50 => some createAccessorPair
  | 51 => some definePrivateField
  | 52 => some definePrivateMethod
  | 53 => some definePrivateAccessor
  | 54 => some hasPrivate
  | 55 => some tailCall
  | 56 => some tailCallWithReceiver
  | 57 => some directEval
  | 58 => some initializeEnvironment
  | 59 => some createDataPropertyById
  | 60 => some createDataPropertyByValue
  | 61 => some loadIteratorSymbol
  | 62 => some checkObject
  | 63 => some yieldWithKind
  | 64 => some callSpread
  | 65 => some tailCallSpread
  | 66 => some callSpreadWithReceiver
  | 67 => some tailCallSpreadWithReceiver
  | 68 => some directEvalSpread
  | 69 => some loadAsyncIteratorSymbol
  | 70 => some createAsyncFromSyncIterator
  | 71 => some initialYield
  | 72 => some dynamicImport
  | 73 => some loadTemplateObject
  | 74 => some setObjectLiteralPrototype
  | 75 => some toString
  | 76 => some update
  | 77 => some enterLexicalEnvironment
  | 78 => some initializeLexicalEnvironment
  | 79 => some leaveLexicalEnvironment
  | 80 => some constructSpread
  | 81 => some superConstructSpread
  | _ => none

/-- Recovers an opcode from its dense index. -/
def fromIndex (index : Nat) : Option Opcode :=
  if index ≥ count then none
  else if index < baseOpcodeCount then fromBase index
  else fromExtended (index - baseOpcodeCount)

theorem discriminant_lt_count (op : Opcode) : op.discriminant < count := by
  cases op <;> decide

theorem fromIndex_discriminant (op : Opcode) : fromIndex op.discriminant = some op := by
  cases op <;> rfl

theorem operandCount_le_three (op : Opcode) : op.operandCount ≤ 3 := by
  have htable : ∀ c ∈ operandCounts, c ≤ 3 := by decide +kernel
  rw [operandCount, List.getD_eq_getElem?_getD]
  cases hc : operandCounts[op.discriminant]? with
  | none => exact Nat.zero_le 3
  | some c => exact htable c (List.mem_of_getElem? hc)

/-- A base number names the opcode with that discriminant. -/
theorem discriminant_of_fromBase {n : Nat} {op : Opcode} (h : fromBase n = some op) :
    op.discriminant = n := by
  have htable : ∀ n < 64, (fromBase n).all fun op => op.discriminant == n := by decide +kernel
  rcases Nat.lt_or_ge n 64 with hlt | hge
  · have hnamed := htable n hlt
    rw [h] at hnamed
    exact beq_iff_eq.mp hnamed
  · rw [← Nat.sub_add_cancel hge] at h
    cases h

/-- An escaped index names the opcode 64 places above it. -/
theorem discriminant_of_fromExtended {n : Nat} {op : Opcode}
    (h : fromExtended n = some op) : op.discriminant = baseOpcodeCount + n := by
  have htable : ∀ n < 82,
      (fromExtended n).all fun op => op.discriminant == baseOpcodeCount + n := by decide +kernel
  rcases Nat.lt_or_ge n 82 with hlt | hge
  · have hnamed := htable n hlt
    rw [h] at hnamed
    exact beq_iff_eq.mp hnamed
  · rw [← Nat.sub_add_cancel hge] at h
    cases h

end Opcode

end TachyonEngine.Bytecode
