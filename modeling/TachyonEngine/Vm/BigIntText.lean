import TachyonEngine.Vm.SmallBigIntOrder

/-!
# The text of a BigInt

Two parsers multiply the magnitude and add the next digit; two formatters divide it and collect the
remainders. A text is a list of bytes, and a string of the engine a list of UTF-16 units.
-/

namespace TachyonEngine.Vm

open Lib Lib.Capacity

inductive BigIntBuildError where
  | invalidDecimal
  | allocationFailed

/-- A conversion that requests memory and can fail. -/
abbrev Building := StateT Allocator (Except BigIntBuildError)

/-- `try_reserve_exact` of a vector whose size comes from a checked estimate. -/
def reserveEstimate (estimate : Nat) : Building Unit := fun allocator =>
  if estimate < 2 ^ 64 then
    match allocator.request with
    | (true, allocator) => .ok ((), allocator)
    | (false, _) => .error .allocationFailed
  else .error .allocationFailed

def minusByte : UInt8 := 45

/-- `b'0' + digit`, and letters from ten on. -/
def digitByte (digit : Nat) : UInt8 :=
  if digit < 10 then 48 + UInt8.ofNat digit else 97 + UInt8.ofNat digit - 10

def isAsciiDigit (byte : UInt8) : Bool := 48 ≤ byte && byte ≤ 57

/-! ## Parsing -/

/-- Multiplies the limbs in place and adds a digit; a carry that is left over is one more limb. -/
def multiplyAdd (radix : Nat) : List UInt64 → Nat → List UInt64
  | [], carry => if carry ≠ 0 then [lowLimb carry] else []
  | limb :: rest, carry =>
    let product := u128 (limb.toNat * radix + carry)
    lowLimb product :: multiplyAdd radix rest (product >>> 64)

def asciiRadixDigit (unit : UInt16) (radix : Nat) : Option Nat :=
  let digit :=
    if 48 ≤ unit ∧ unit ≤ 57 then some (unit.toNat - 48)
    else if 97 ≤ unit ∧ unit ≤ 102 then some (unit.toNat - 97 + 10)
    else if 65 ≤ unit ∧ unit ≤ 70 then some (unit.toNat - 65 + 10)
    else none
  digit.filter fun digit => digit < radix

def bitsPerDigit (radix : Nat) : Option Nat :=
  if radix = 2 then some 1
  else if radix = 8 then some 3
  else if radix = 10 ∨ radix = 16 then some 4
  else none

/-- The limbs behind the digits, from the first one on. -/
def accumulateUnits (radix : Nat) : List UInt16 → List UInt64 → Building (List UInt64)
  | [], limbs => pure limbs
  | unit :: units, limbs =>
    match asciiRadixDigit unit radix with
    | none => throw .invalidDecimal
    | some digit => accumulateUnits radix units (multiplyAdd radix limbs digit)

/-! ## Formatting -/

def decimalChunkBase : UInt64 := 1000000000

def decimalChunkDigits : Nat := 9

/-- The remainders of the divisions, which go on until no limb is left. -/
def remainders (divisor : UInt64) (hdivisor : 1 < divisor.toNat) (limbs : List UInt64) : List Nat :=
  if _hnil : limbs = [] then []
  else
    (divideLimbs divisor limbs).2 ::
      remainders divisor hdivisor (trimLimbs (divideLimbs divisor limbs).1)
termination_by (limbsValue limbs, limbs.length)
decreasing_by
  obtain ⟨hv, -⟩ := divideLimbs_spec (Nat.zero_lt_of_lt hdivisor) limbs
  rw [limbsValue_trimLimbs]
  rcases Nat.eq_zero_or_pos (limbsValue (divideLimbs divisor limbs).1) with hz | hpos
  · have hempty : trimLimbs (divideLimbs divisor limbs).1 = [] := by
      rw [← (canonical_trimLimbs _).value_eq_zero, limbsValue_trimLimbs, hz]
    rw [hz, hempty]
    rcases Nat.eq_zero_or_pos (limbsValue limbs) with hn | hsome
    · rw [hn]
      exact Prod.Lex.right _ (List.length_pos_of_ne_nil _hnil)
    · exact Prod.Lex.left _ _ hsome
  · refine Prod.Lex.left _ _ ?_
    nlinarith

/-- The digits that the loop of `appendDecimalChunk` writes, the lowest first. -/
def chunkDigits (chunk : Nat) : List Nat :=
  if _hlast : chunk / 10 = 0 then [chunk % 10] else chunk % 10 :: chunkDigits (chunk / 10)
decreasing_by omega

/-- Appends a chunk, which is padded to nine digits behind another one. -/
def appendDecimalChunk (output : List UInt8) (chunk : Nat) (padded : Bool) : List UInt8 :=
  let digits := (chunkDigits chunk).reverse.map digitByte
  output ++ if padded then List.replicate
    (decimalChunkDigits - digits.length) 48 ++ digits else digits

/-- A radix of a format; the caller has checked it. -/
structure BigIntRadix where
  get : UInt8
  valid : 2 ≤ get.toNat ∧ get.toNat ≤ 36

namespace BigIntValue

def fromDecimal (text : List UInt8) : Building BigIntValue :=
  let negative := text.head? == some minusByte
  let digits := if negative then text.tail else text
  if digits.isEmpty || !digits.all isAsciiDigit then throw .invalidDecimal
  else
    let significant := digits.dropWhile (· == 48)
    if significant.isEmpty then pure { negative := false, limbs := [] }
    else do
      reserveEstimate (significant.length * 3322 + 63999)
      pure
        { negative := negative
          limbs := significant.foldl (fun limbs digit => multiplyAdd 10 limbs
            (digit.toNat - 48)) [0] }

def fromRadixDigits (digits : List UInt16) (radix : Nat) (negative : Bool) : Building BigIntValue :=
  if digits.isEmpty then throw .invalidDecimal
  else
    match bitsPerDigit radix with
    | none => throw .invalidDecimal
    | some bits => do
        reserveEstimate (digits.length * bits + 63)
        let limbs ← accumulateUnits radix digits [0]
        pure (fromOwnedLimbs negative limbs)

/-- The decimal text, in chunks of nine digits. A value that is not zero has a chunk. -/
def decimalBytes (value : BigIntValue) : Building (List UInt8) :=
  if value.limbs.isEmpty then pure [48]
  else do
    reserveEstimate value.limbs.length
    reserveEstimate (value.limbs.length * 20)
    let chunks := remainders decimalChunkBase (by decide) value.limbs
    reserveEstimate (chunks.length * decimalChunkDigits + value.negative.toNat)
    let output := if value.negative then [minusByte] else []
    match chunks.reverse with
    | [] => pure output
    | mostSignificant :: chunks =>
      pure (chunks.foldl (fun output chunk => appendDecimalChunk output chunk true)
        (appendDecimalChunk output mostSignificant false))

def radixBytes (value : BigIntValue) (radix : BigIntRadix) : Building (List UInt8) :=
  if value.isZero then pure [48]
  else do
    reserveEstimate (value.bitLength + Nat.log2 radix.get.toNat)
    let digits := (remainders radix.get.toUInt64 (by
      exact radix.valid.1) value.limbs).map digitByte
    pure (if value.negative then digits ++ [minusByte] else digits).reverse

end BigIntValue

end TachyonEngine.Vm
