import TachyonEngine.Bytecode.Opcode
import TachyonEngine.Gc.Heap
import TachyonEngine.Vm.BigIntShift
import TachyonEngine.Vm.Value

/-!
# Immediate and allocated BigInts

A BigInt of at most 48 bits is an immediate value, and any other one is a cell of the heap. The hot
path computes on immediates with checked 64-bit arithmetic and gives nothing where the general path
has to decide. A 64-bit integer is an `Int` here, and the checks of its range are written out.
-/

namespace TachyonEngine.Vm

open Bytecode (Opcode)
open Gc (RawHeapRef HeapAllocationError)
open Lib Lib.Capacity

/-! ## Immediates -/

def smallBigintMin : Int := -2 ^ 47

def smallBigintMax : Int := 2 ^ 47 - 1

/-- The integers that are immediates. -/
def IsSmall (n : Int) : Prop := smallBigintMin ≤ n ∧ n ≤ smallBigintMax

instance (n : Int) : Decidable (IsSmall n) := inferInstanceAs (Decidable (_ ∧ _))

def Value.fromSmallBigint (value : Int) : Option Value :=
  if value < smallBigintMin ∨ smallBigintMax < value then none else some (.smallBigint value)

def Value.asSmallBigint : Value → Option Int
  | .smallBigint value => some value
  | _ => none

/-! ## Checked 64-bit arithmetic -/

/-- A result of 64-bit arithmetic that did not overflow. -/
def checkedI64 (n : Int) : Option Int := if -2 ^ 63 ≤ n ∧ n < 2 ^ 63 then some n else none

/-- `checked_div`: nothing for a zero divisor, and nothing on overflow. -/
def checkedDivI64 (left right : Int) : Option Int :=
  if right = 0 then none else checkedI64 (left.tdiv right)

/-- `checked_shl`: only the count is checked, and what leaves the word is lost. -/
def checkedShlI64 (value : Int) (shift : Nat) : Option Int :=
  if shift < 64 then some ((value * 2 ^ shift).bmod (2 ^ 64)) else none

/-- `u32::try_from` of a number that is not negative. -/
def u32TryFrom (n : Nat) : Option Nat := if n < 2 ^ 32 then some n else none

/-- A shift whose direction the sign of the count reverses. -/
def smallBigintShift (value count : Int) (left : Bool) : Option Int :=
  let effectiveLeft := left != decide (count < 0)
  let magnitude := count.natAbs
  if ¬ effectiveLeft then
    some (if 64 ≤ magnitude then if value < 0 then -1 else 0 else value >>> magnitude)
  else
    match u32TryFrom magnitude with
    | none => none
    | some shift => (checkedShlI64 1 shift).bind fun factor => checkedI64 (value * factor)

/-- The result of a binary opcode in checked 64-bit arithmetic. -/
def smallBigintResult (opcode : Opcode) (left right : Int) : Option Int :=
  match opcode with
  | .add => checkedI64 (left + right)
  | .sub => checkedI64 (left - right)
  | .mul => checkedI64 (left * right)
  | .div => checkedDivI64 left right
  | .remainder => if right ≠ 0 then some (left.tmod right) else none
  | .exponentiate =>
    if 0 ≤ right then (u32TryFrom right.toNat).bind fun exponent => checkedI64 (left ^ exponent)
    else none
  | .bitwiseAnd => some (BitwiseOpcode.onInts .bitwiseAnd left right)
  | .bitwiseOr => some (BitwiseOpcode.onInts .bitwiseOr left right)
  | .bitwiseXor => some (BitwiseOpcode.onInts .bitwiseXor left right)
  | .shiftLeft => smallBigintShift left right true
  | .shiftRight => smallBigintShift left right false
  | _ => none

/-- The results of immediates that are immediates. Nothing covers errors and the general path. -/
def smallBigintBinaryHot (opcode : Opcode) (left right : Value) : Option Value := do
  let left ← left.asSmallBigint
  let right ← right.asSmallBigint
  let result ← smallBigintResult opcode left right
  Value.fromSmallBigint result

namespace BigIntValue

/-- The immediate of a value that has one. -/
def smallValue (value : BigIntValue) : Option Int :=
  match value.limbs with
  | [] => some 0
  | [magnitude] =>
    if value.negative then if magnitude.toNat ≤ 2 ^ 47 then some (-magnitude.toNat) else none
    else if magnitude.toNat < 2 ^ 47 then some magnitude.toNat else none
  | _ => none

def mathematicalCmp (left right : BigIntValue) : Ordering :=
  match left.negative, right.negative with
  | true, false => .lt
  | false, true => .gt
  | false, false => magnitudeCmp left.limbs right.limbs
  | true, true => (magnitudeCmp left.limbs right.limbs).swap

/-- Words against a number that fits in one word. -/
def wordCmp (limbs : List UInt64) (n : Nat) : Ordering :=
  match limbs with
  | [] => compare 0 n
  | [limb] => compare limb.toNat n
  | _ => .gt

/-- The comparison with an immediate, without a second magnitude. -/
def mathematicalCmpI64 (value : BigIntValue) (other : Int) : Ordering :=
  match value.negative, decide (other < 0) with
  | true, false => .lt
  | false, true => .gt
  | _, _ =>
    let magnitude := wordCmp value.limbs other.natAbs
    if value.negative then magnitude.swap else magnitude

def equalsSmall (value : BigIntValue) (small : Int) : Bool :=
  if small = 0 then value.limbs.isEmpty
  else value.negative == decide (small < 0) && value.limbs == [UInt64.ofNat small.natAbs]

end BigIntValue

/-! ## The heap -/

/-- The heap as BigInts see it. A request for a cell may be refused, and may be granted behind a
collection that only some of the cells survive. -/
structure BigIntHeap where
  cells : RawHeapRef → Option BigIntValue
  allocator : Allocator
  answers : Nat → Except HeapAllocationError (RawHeapRef × (RawHeapRef → Bool))
  requests : Nat

inductive BigIntError where
  | invalidBigIntValue (value : Value)
  | bigIntUnsignedRightShift
  | arithmetic (error : BigIntArithmeticError)
  | heapAllocation (error : HeapAllocationError)
  | unreachable

abbrev BigIntOperation := StateT BigIntHeap (Except BigIntError)

namespace BigIntHeap

/-- Stores a value in a new cell. -/
def allocateExternal (bigint : BigIntValue) : BigIntOperation Value := fun heap =>
  match heap.answers heap.requests with
  | .error error => .error (.heapAllocation error)
  | .ok (reference, survives) =>
    .ok (.heapRef reference,
      { heap with
        cells := fun other =>
          if other = reference then some bigint else if survives other then heap.cells
            other else none
        requests := heap.requests + 1 })

/-- Publishes a value as an immediate or as a cell. -/
def allocateBigint (bigint : BigIntValue) : BigIntOperation Value :=
  match bigint.smallValue with
  | some small =>
    match Value.fromSmallBigint small with
    | some value => pure value
    | none => throw .unreachable
  | none => allocateExternal bigint

def bigintReference (heap : BigIntHeap) (value : Value) : Except BigIntError BigIntValue :=
  match value.asHeapRef.bind heap.cells with
  | some bigint => .ok bigint
  | none => .error (.invalidBigIntValue value)

/-- Copies either representation. -/
def bigintValueSnapshot (value : Value) : BigIntOperation BigIntValue := fun heap =>
  match value.asSmallBigint with
  | some small => .ok (.fromI64 small, heap)
  | none => (heap.bigintReference value).map fun bigint => (bigint, heap)

/-- Runs arithmetic with the memory of the heap. -/
def arithmetic (run : Arithmetic BigIntValue) : BigIntOperation BigIntValue := fun heap =>
  match run heap.allocator with
  | .error error => .error (.arithmetic error)
  | .ok (bigint, allocator) => .ok (bigint, { heap with allocator })

/-- A binary opcode on two BigInts. -/
def bigintBinaryOperation (opcode : Opcode) (left right : Value) : BigIntOperation Value := do
  if opcode = .shiftRightUnsigned then throw .bigIntUnsignedRightShift
  else
    let left ← bigintValueSnapshot left
    let right ← bigintValueSnapshot right
    let result ← match opcode with
      | .add => arithmetic (left.add right)
      | .sub => arithmetic (left.subtract right)
      | .mul => arithmetic (left.multiply right)
      | .div => arithmetic (left.divideOrRemainder right false)
      | .remainder => arithmetic (left.divideOrRemainder right true)
      | .exponentiate => arithmetic (left.exponentiate right)
      | .bitwiseAnd => arithmetic (left.bitwise right .bitwiseAnd)
      | .bitwiseOr => arithmetic (left.bitwise right .bitwiseOr)
      | .bitwiseXor => arithmetic (left.bitwise right .bitwiseXor)
      | .shiftLeft => arithmetic (left.shift right true)
      | .shiftRight => arithmetic (left.shift right false)
      | _ => throw .unreachable
    allocateBigint result

def heapBigintEqualsSmall (heap : BigIntHeap) (value : Value) (small : Int) :
    Except BigIntError Bool :=
  (heap.bigintReference value).map fun bigint => bigint.equalsSmall small

def bigintEqual (heap : BigIntHeap) (left right : Value) : Except BigIntError Bool :=
  match left.asSmallBigint, right.asSmallBigint with
  | some left, some right => .ok (left = right)
  | some small, none => heap.heapBigintEqualsSmall right small
  | none, some small => heap.heapBigintEqualsSmall left small
  | none, none => do
      let left ← heap.bigintReference left
      let right ← heap.bigintReference right
      pure (left = right)

def bigintCompare (heap : BigIntHeap) (left right : Value) : Except BigIntError Ordering :=
  match left.asSmallBigint, right.asSmallBigint with
  | some left, some right => .ok (compare left right)
  | some left, none => (heap.bigintReference right).map fun right =>
      (right.mathematicalCmpI64 left).swap
  | none, some right => (heap.bigintReference left).map fun left => left.mathematicalCmpI64 right
  | none, none => do
      let left ← heap.bigintReference left
      let right ← heap.bigintReference right
      pure (left.mathematicalCmp right)

end BigIntHeap

end TachyonEngine.Vm
