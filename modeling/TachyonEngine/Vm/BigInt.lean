import TachyonEngine.Lib.Capacity
import TachyonEngine.Lib.Limbs

/-!
# BigInt arithmetic

Sign and magnitude, with the magnitude as little-endian 64-bit limbs. The loops of the kernels are
recursions over the limbs; an accumulator of type `u128` is a natural number taken modulo `2 ^ 128`.
A request for memory can fail, so the operations run over the answers of an allocator.
-/

namespace TachyonEngine.Vm

open Lib Lib.Capacity

inductive BigIntArithmeticError where
  | allocationFailed
  | divisionByZero
  | negativeExponent
  | resultTooLarge
  deriving DecidableEq

/-- Sign-magnitude BigInt with little-endian limbs. -/
structure BigIntValue where
  negative : Bool
  limbs : List UInt64
  deriving DecidableEq

/-- A computation that requests memory and can fail. -/
abbrev Arithmetic := StateT Allocator (Except BigIntArithmeticError)

/-- Wraps at the width of the accumulators. -/
def u128 (n : Nat) : Nat := n % 2 ^ 128

/-- The largest number of bits of a result. -/
def maxResultBits : Nat := 16 * 1024 * 1024

/-! ## Memory -/

def ensureResultLimbs (length : Nat) : Arithmetic Unit :=
  if (maxResultBits + 63) / 64 < length then throw .resultTooLarge else pure ()

/-- `try_reserve_exact` of a fresh vector. -/
def reserveLimbs : Arithmetic Unit := fun allocator =>
  match allocator.request with
  | (true, allocator) => .ok ((), allocator)
  | (false, _) => .error .allocationFailed

def zeroedLimbs (length : Nat) : Arithmetic (List UInt64) := do
  ensureResultLimbs length
  reserveLimbs
  pure (List.replicate length 0)

/-- `checked_add` of two lengths. -/
def checkedLength (left right : Nat) : Arithmetic Nat :=
  if left + right < 2 ^ 64 then pure (left + right) else throw .resultTooLarge

/-! ## Magnitudes -/

/-- The loop of `addMagnitudes`: the low words and the carry. -/
def addLimbs : Nat → List UInt64 → List UInt64 → Nat → List UInt64 × Nat
  | 0, _, _, carry => ([], carry)
  | count + 1, left, right, carry =>
    let sum := u128 ((left.headD 0).toNat + (right.headD 0).toNat + carry)
    let rest := addLimbs count left.tail right.tail (sum >>> 64)
    (lowLimb sum :: rest.1, rest.2)

/-- Adds unsigned magnitudes with one carry limb. -/
def addMagnitudes (left right : List UInt64) : Arithmetic (List UInt64) := do
  let common := max left.length right.length
  let capacity ← checkedLength common 1
  ensureResultLimbs capacity
  let _ ← zeroedLimbs capacity
  let result := addLimbs common left right 0
  pure (result.1 ++ [lowLimb result.2])

/-- The loop of a subtraction: one word of the result a word of the minuend, and the borrow. -/
def subtractLimbs : List UInt64 → List UInt64 → Nat → List UInt64 × Nat
  | [], _, borrow => ([], borrow)
  | minuend :: left, right, borrow =>
    let subtrahend := u128 ((right.headD 0).toNat + borrow)
    let difference := u128 (minuend.toNat + 2 ^ 128 - subtrahend)
    let rest := subtractLimbs left right.tail (if minuend.toNat < subtrahend then 1 else 0)
    (lowLimb difference :: rest.1, rest.2)

/-- Subtracts unsigned magnitudes of which the left one is not smaller. -/
def subtractMagnitudes (left right : List UInt64) : Arithmetic (List UInt64) := do
  let _ ← zeroedLimbs left.length
  pure (subtractLimbs left right 0).1

/-- One row of the schoolbook product, added to the words from its place on. -/
def multiplyRow (left : UInt64) : List UInt64 → List UInt64 → Nat → List UInt64
  | [], limbs, carry => lowLimb carry :: limbs.tail
  | right :: rest, limbs, carry =>
    let product := u128 (left.toNat * right.toNat + (limbs.headD 0).toNat + carry)
    lowLimb product :: multiplyRow left rest limbs.tail (product >>> 64)

/-- The rows of the product. The lowest word is final behind its row. -/
def multiplyRows : List UInt64 → List UInt64 → List UInt64 → List UInt64
  | [], _, limbs => limbs
  | left :: rest, right, limbs =>
    let added := multiplyRow left right limbs 0
    added.headD 0 :: multiplyRows rest right added.tail

/-- The high-to-low pass that divides by one limb: the quotient and the residual. -/
def divideLimbs (divisor : UInt64) : List UInt64 → List UInt64 × Nat
  | [] => ([], 0)
  | limb :: higher =>
    let above := divideLimbs divisor higher
    let current := u128 (above.2 <<< 64) ||| limb.toNat
    (lowLimb (current / divisor.toNat) :: above.1, current % divisor.toNat)

def divideMagnitudeByLimb (dividend : List UInt64) (divisor : UInt64) :
    Arithmetic (List UInt64 × UInt64) := do
  let _ ← zeroedLimbs dividend.length
  let result := divideLimbs divisor dividend
  pure (result.1, lowLimb result.2)

/-- Zero bits above the highest set one. -/
def leadingZeros (limb : UInt64) : Nat :=
  if limb = 0 then 64 else 63 - Nat.log2 limb.toNat

def bitLengthOf (limbs : List UInt64) : Nat :=
  match limbs.getLast? with
  | none => 0
  | some high => (limbs.length - 1) * 64 + (64 - leadingZeros high)

/-- Shifts a magnitude left by one; a carry that is left over is one more word. -/
def shiftLeftOne : List UInt64 → UInt64 → List UInt64
  | [], carry => if carry ≠ 0 then [carry] else []
  | limb :: rest, carry => (limb <<< 1 ||| carry) :: shiftLeftOne rest (limb >>> 63)

def setLowBit : List UInt64 → List UInt64
  | [] => [1]
  | limb :: rest => (limb ||| 1) :: rest

/-- The words with the bit at an index set. -/
def setBit (limbs : List UInt64) (index : Nat) : List UInt64 :=
  limbs.modify (index / 64) fun limb => limb ||| (1 <<< UInt64.ofNat (index % 64))

def bitIsSet (limbs : List UInt64) (index : Nat) : Bool :=
  limbs.getD (index / 64) 0 &&& (1 <<< UInt64.ofNat (index % 64)) ≠ 0

/-- One bit of the long division. -/
def divideBit (dividend divisor : List UInt64) (index : Nat)
    (state : List UInt64 × List UInt64) : List UInt64 × List UInt64 :=
  let shifted := shiftLeftOne state.2 0
  let residual := if bitIsSet dividend index then setLowBit shifted else shifted
  if magnitudeCmp residual divisor ≠ .lt then
    (setBit state.1 index, trimLimbs (subtractLimbs residual divisor 0).1)
  else (state.1, residual)

/-- The bits below an index, the highest first. -/
def divideBits (dividend divisor : List UInt64) :
    Nat → List UInt64 × List UInt64 → List UInt64 × List UInt64
  | 0, state => state
  | index + 1, state => divideBits dividend divisor index (divideBit dividend divisor index state)

/-- Binary long division: the quotient and the residual. -/
def divideMagnitudes (dividend divisor : List UInt64) :
    Arithmetic (List UInt64 × List UInt64) := do
  let quotient ← zeroedLimbs dividend.length
  let _ ← checkedLength divisor.length 1
  reserveLimbs
  pure (divideBits dividend divisor (bitLengthOf dividend) (quotient, []))

/-- Adds one and stops at the first word that does not overflow. -/
def addOneInPlace : List UInt64 → List UInt64
  | [] => []
  | limb :: rest => if limb + 1 = 0 then 0 :: addOneInPlace rest else (limb + 1) :: rest

/-- The two's complement of fixed-width words. -/
def negateLimbs (limbs : List UInt64) : List UInt64 := addOneInPlace (limbs.map fun limb => ~~~limb)

/-! ## Values -/

/-- The binary bitwise opcodes. -/
inductive BitwiseOpcode where
  | bitwiseAnd
  | bitwiseOr
  | bitwiseXor

def BitwiseOpcode.onLimbs : BitwiseOpcode → UInt64 → UInt64 → UInt64
  | .bitwiseAnd, left, right => left &&& right
  | .bitwiseOr, left, right => left ||| right
  | .bitwiseXor, left, right => left ^^^ right

namespace BigIntValue

/-- Canonicalizes an owned magnitude. -/
def fromOwnedLimbs (negative : Bool) (limbs : List UInt64) : BigIntValue :=
  { negative := negative && !(trimLimbs limbs).isEmpty, limbs := trimLimbs limbs }

def fromU64 (value : UInt64) : BigIntValue :=
  if value = 0 then { negative := false, limbs := [] } else { negative := false, limbs := [value] }

def negate (value : BigIntValue) : BigIntValue :=
  if value.limbs.isEmpty then value else { value with negative := !value.negative }

def isZero (value : BigIntValue) : Bool := value.limbs.isEmpty

def isOne (value : BigIntValue) : Bool := !value.negative && value.limbs == [1]

def bitLength (value : BigIntValue) : Nat := bitLengthOf value.limbs

def add (left right : BigIntValue) : Arithmetic BigIntValue :=
  if left.negative = right.negative then do
    let limbs ← addMagnitudes left.limbs right.limbs
    pure (fromOwnedLimbs left.negative limbs)
  else
    match magnitudeCmp left.limbs right.limbs with
    | .gt => do
        let limbs ← subtractMagnitudes left.limbs right.limbs
        pure (fromOwnedLimbs left.negative limbs)
    | .lt => do
        let limbs ← subtractMagnitudes right.limbs left.limbs
        pure (fromOwnedLimbs right.negative limbs)
    | .eq => pure (fromU64 0)

def subtract (left right : BigIntValue) : Arithmetic BigIntValue := left.add right.negate

def multiply (left right : BigIntValue) : Arithmetic BigIntValue :=
  if left.isZero || right.isZero then pure (fromU64 0)
  else do
    let limbCount ← checkedLength left.limbs.length right.limbs.length
    ensureResultLimbs limbCount
    let limbs ← zeroedLimbs limbCount
    pure (fromOwnedLimbs (left.negative != right.negative)
      (multiplyRows left.limbs right.limbs limbs))

/-- The truncated quotient, or the remainder with the sign of the dividend. -/
def divideOrRemainder (left right : BigIntValue) (remainder : Bool) : Arithmetic BigIntValue :=
  if right.isZero then throw .divisionByZero
  else if left.isZero then pure (fromU64 0)
  else if magnitudeCmp left.limbs right.limbs = .lt then
    if remainder then pure left else pure (fromU64 0)
  else
    match right.limbs with
    | [divisor] => do
        let (quotient, residual) ← divideMagnitudeByLimb left.limbs divisor
        if remainder then pure (fromOwnedLimbs left.negative [residual])
        else pure (fromOwnedLimbs (left.negative != right.negative) quotient)
    | divisor => do
        let (quotient, residual) ← divideMagnitudes left.limbs divisor
        if remainder then pure (fromOwnedLimbs left.negative residual)
        else pure (fromOwnedLimbs (left.negative != right.negative) quotient)

def asUsizeIfFits (value : BigIntValue) : Option Nat :=
  match value.limbs with
  | [] => some 0
  | [limb] => some limb.toNat
  | _ => none

def asBoundedUsize (value : BigIntValue) (maximum : Nat) : Arithmetic Nat :=
  match value.asUsizeIfFits with
  | none => throw .resultTooLarge
  | some n => if maximum < n then throw .resultTooLarge else pure n

/-- Square and multiply. -/
def powerLoop (power result : BigIntValue) (remaining : Nat) : Arithmetic BigIntValue :=
  if _hzero : remaining = 0 then pure result
  else do
    let result ← if remaining &&& 1 ≠ 0 then result.multiply power else pure result
    if remaining >>> 1 ≠ 0 then do
      let power ← power.multiply power
      powerLoop power result (remaining >>> 1)
    else powerLoop power result (remaining >>> 1)
termination_by remaining
decreasing_by
  all_goals
    omega

/-- A power with a non-negative exponent and a bound on the bits of the result. -/
def exponentiate (base exponent : BigIntValue) : Arithmetic BigIntValue :=
  if exponent.negative then throw .negativeExponent
  else if exponent.isZero then pure (fromU64 1)
  else if base.isZero || base.isOne then pure base
  else if base.negative && base.limbs == [1] then
    if exponent.limbs.headD 0 &&& 1 = 0 then pure (fromU64 1)
    else pure { fromU64 1 with negative := true }
  else do
    let exponent ← exponent.asBoundedUsize maxResultBits
    let estimatedBits := base.bitLength * exponent
    if 2 ^ 64 ≤ estimatedBits ∨ maxResultBits < estimatedBits then throw .resultTooLarge
    else powerLoop base (fromU64 1) exponent

/-- Fixed-width two's-complement words of a value. -/
def twosComplement (value : BigIntValue) (width : Nat) : Arithmetic (List UInt64) := do
  let _ ← zeroedLimbs width
  let limbs := value.limbs ++ List.replicate (width - value.limbs.length) 0
  pure (if value.negative then negateLimbs limbs else limbs)

/-- The value of fixed-width two's-complement words. -/
def fromTwosComplement (limbs : List UInt64) : BigIntValue :=
  let negative := limbs.getLast?.any fun limb : UInt64 => limb >>> 63 ≠ 0
  fromOwnedLimbs negative (if negative then negateLimbs limbs else limbs)

/-- A bitwise operation through one sign limb. -/
def bitwise (left right : BigIntValue) (opcode : BitwiseOpcode) : Arithmetic BigIntValue := do
  let width ← checkedLength (max left.limbs.length right.limbs.length) 1
  ensureResultLimbs width
  let leftLimbs ← left.twosComplement width
  let rightLimbs ← right.twosComplement width
  let _ ← zeroedLimbs width
  pure (fromTwosComplement (List.zipWith opcode.onLimbs leftLimbs rightLimbs))

/-- `~x` as `-x - 1`. -/
def bitwiseNot (value : BigIntValue) : Arithmetic BigIntValue := do
  let sum ← value.add (fromU64 1)
  pure sum.negate

end BigIntValue

end TachyonEngine.Vm
