import TachyonEngine.Vm.BigInt

/-!
# The exact accumulator of `Math.sumPrecise`

A sum of doubles is kept as one signed integer, in units of the smallest positive double and in
two's-complement words with room for thirty-four of them. A double is its 64 bits. Only the words in
use are part of the state: a word beyond them is written before it is read. A write beyond the last
word panics, so it leaves no accumulator.
-/

namespace TachyonEngine.Vm

open Lib

/-- Words of the accumulator. -/
def exactSumLimbs : Nat := 34

/-- `1 << n`. -/
def bit (n : Nat) : UInt64 := 1 <<< UInt64.ofNat n

inductive ExactSumState where
  | minusZero
  | finite
  | plusInfinity
  | minusInfinity
  | nan
  deriving DecidableEq

structure ExactSumAccumulator where
  limbs : List UInt64
  state : ExactSumState

/-- A sum of two words and a carry, and its carry. -/
def addWithCarry (left right carry : UInt64) : UInt64 × UInt64 :=
  let partialSum := left + right
  let firstOverflow := 2 ^ 64 ≤ left.toNat + right.toNat
  let result := partialSum + carry
  let secondOverflow := 2 ^ 64 ≤ partialSum.toNat + carry.toNat
  (result, if firstOverflow ∨ secondOverflow then 1 else 0)

/-- Adds the sign of the operand to the higher words. A carry that equals the sign changes none of
the words that are left, and ends the addition. -/
def propagateSign (negative operandSign : UInt64) : List UInt64 → UInt64 →
    List UInt64 × Option UInt64
  | [], carry => ([], some carry)
  | limb :: rest, carry =>
    if carry = negative then (limb :: rest, none)
    else
      let sum := addWithCarry limb operandSign carry
      let higher := propagateSign negative operandSign rest sum.2
      (sum.1 :: higher.1, higher.2)

/-- Negates words in two's complement, from the lowest on. -/
def negateWithCarry : List UInt64 → UInt64 → List UInt64
  | [], _ => []
  | limb :: rest, carry =>
    let sum := addWithCarry (~~~limb) 0 carry
    sum.1 :: negateWithCarry rest sum.2

namespace ExactSumAccumulator

def new : ExactSumAccumulator := { limbs := [0], state := .minusZero }

/-- The top bit of the highest word in use. -/
def signBit (limbs : List UInt64) : UInt64 := (limbs.getLast?.getD 0) >>> 63

/-- Fills words up to a length. -/
def extendTo (limbs : List UInt64) (length : Nat) (fill : UInt64) : Option (List UInt64) :=
  if length ≤ limbs.length then some limbs
  else if length ≤ exactSumLimbs then some (limbs ++ List.replicate (length - limbs.length) fill)
  else none

def isSpecial : ExactSumState → Bool
  | .plusInfinity | .minusInfinity | .nan => true
  | _ => false

def addNonFinite (acc : ExactSumAccumulator) (negative : Bool) (payload : UInt64) :
    ExactSumAccumulator :=
  if payload ≠ 0 ∨ acc.state = .nan ∨ acc.state = .minusInfinity ∧ ¬ negative ∨
      acc.state = .plusInfinity ∧ negative then
    { acc with state := .nan }
  else { acc with state := if negative then .minusInfinity else .plusInfinity }

/-- The word behind a position and the words above it, with the sign of the accumulator where no
word is in use. -/
def nextWord (fill : UInt64) (position : Nat) : List UInt64 → Option (UInt64 × List UInt64)
  | [] => if position + 1 < exactSumLimbs then some (fill, []) else none
  | next :: rest => some (next, rest)

/-- The words from a position on, with the words of the operand and its sign added. -/
def addWords (negative operandSign fill significand : UInt64) (shift : Nat) :
    List UInt64 → Nat → Option (List UInt64 × Option UInt64)
  | [], _ => none
  | limb :: high, position =>
    let first := addWithCarry limb ((significand <<< UInt64.ofNat shift) ^^^ operandSign) negative
    if 12 ≤ shift then
      match nextWord fill position high with
      | some (next, rest) =>
        let second := addWithCarry next
          ((significand >>> UInt64.ofNat (64 - shift)) ^^^ operandSign) first.2
        let higher := propagateSign negative operandSign rest second.2
        some (first.1 :: second.1 :: higher.1, higher.2)
      | none => none
    else
      let higher := propagateSign negative operandSign high first.2
      some (first.1 :: higher.1, higher.2)

/-- Adds one signed significand. A carry that goes beyond the words in use becomes one more word
where it is not the sign of the result. -/
def addSignificand (acc : ExactSumAccumulator) (negative : Bool) (significand : UInt64)
    (position shift : Nat) : Option ExactSumAccumulator :=
  if isSpecial acc.state then some acc
  else do
    let fill := 0 - signBit acc.limbs
    let extended ← extendTo acc.limbs (position + 1) fill
    let sign : UInt64 := if negative then 1 else 0
    let operandSign := 0 - sign
    let (high, carry) ← addWords sign operandSign fill significand shift
      (extended.drop position) position
    let limbs := extended.take position ++ high
    match carry with
    | none => some { limbs, state := .finite }
    | some carry =>
      let extension := carry + fill + operandSign
      if extension ≠ 0 - signBit limbs then
        if limbs.length < exactSumLimbs then
          some { limbs := limbs ++ [extension], state := .finite }
        else none
      else some { limbs, state := .finite }

/-- Adds one double. -/
def add (acc : ExactSumAccumulator) (bits : UInt64) : Option ExactSumAccumulator :=
  let negative := decide (bits >>> 63 ≠ 0)
  let exponent := ((bits >>> 52) &&& 0x7ff).toNat
  let significand := bits &&& (bit 52 - 1)
  if exponent = 0x7ff then some (acc.addNonFinite negative significand)
  else if exponent = 0 then
    if significand = 0 then
      some (if acc.state = .minusZero ∧ ¬ negative then { acc with state := .finite } else acc)
    else acc.addSignificand negative significand 0 0
  else
    let shift := exponent - 1
    acc.addSignificand negative (significand ||| bit 52) (shift / 64) (shift % 64)

/-- The leading word of a magnitude without its leading zeros, and how many words stand below those
that it was read from. Bits of the second word that do not fit are kept as one sticky bit. -/
def leadingWord (limbs : List UInt64) : UInt64 × Nat :=
  let position := limbs.length - 1
  let top := limbs.getD position 0
  let shift := leadingZeros top
  if shift ≠ 0 then
    let mantissa := top <<< UInt64.ofNat shift
    if 0 < position then
      let next := limbs.getD (position - 1) 0
      let lowWidth := 64 - shift
      let sticky : UInt64 := if next &&& (bit lowWidth - 1) ≠ 0 then 1 else 0
      (mantissa ||| (next >>> UInt64.ofNat lowWidth ||| sticky), position - 1)
    else (mantissa, position)
  else (top, position)

/-- The leading word with its lowest bit set where the words below it would decide a tie. -/
def stickyWord (limbs : List UInt64) : UInt64 :=
  let leading := leadingWord limbs
  if leading.1 &&& (bit 10 - 1) = 0 ∧ (limbs.take leading.2).any (· ≠ 0) then leading.1 ||| 1
  else leading.1

/-- The leading 53 bits of a word, rounded to nearest with ties to even. A carry out of the word
leaves zero. -/
def roundedSignificand (mantissa : UInt64) : UInt64 :=
  let lowest : UInt64 := mantissa >>> 11 &&& 1
  let addend := bit 10 - 1 + lowest
  (mantissa + addend) >>> 11

/-- Rounds a magnitude without leading zero words to the bits of a double. -/
def roundExactLimbs (limbs : List UInt64) (negative : Bool) : UInt64 :=
  let exponent := limbs.length * 64 - leadingZeros (limbs.getD (limbs.length - 1) 0) - 52
  let rounded := roundedSignificand (stickyWord limbs)
  let exponent := if rounded = 0 then exponent + 1 else exponent
  let sign : UInt64 := if negative then bit 63 else 0
  if 0x7ff ≤ exponent then sign ||| (0x7ff : UInt64) <<< 52
  else sign ||| UInt64.ofNat exponent <<< 52 ||| (rounded &&& (bit 52 - 1))

def minusZeroBits : UInt64 := 0x8000000000000000

def infinityBits : UInt64 := 0x7ff0000000000000

def negInfinityBits : UInt64 := 0xfff0000000000000

def nanBits : UInt64 := 0x7ff8000000000000

/-- Rounds the sum to the bits of a double. -/
def result (acc : ExactSumAccumulator) : UInt64 :=
  match acc.state with
  | .minusZero => minusZeroBits
  | .plusInfinity => infinityBits
  | .minusInfinity => negInfinityBits
  | .nan => nanBits
  | .finite =>
    let negative := decide (signBit acc.limbs ≠ 0)
    let limbs := trimLimbs (if negative then negateWithCarry acc.limbs 1 else acc.limbs)
    match limbs with
    | [] => 0
    | [limb] =>
      if limb < bit 52 then (if negative then bit 63 else 0) ||| limb
      else roundExactLimbs limbs negative
    | _ => roundExactLimbs limbs negative

/-- Adds doubles one after the other. -/
def addAll (acc : ExactSumAccumulator) (numbers : List UInt64) : Option ExactSumAccumulator :=
  numbers.foldlM add acc

end ExactSumAccumulator

end TachyonEngine.Vm
