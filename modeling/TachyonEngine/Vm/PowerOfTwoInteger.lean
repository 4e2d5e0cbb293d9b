import TachyonEngine.Lib.Numerals
import TachyonEngine.Vm.ExactSumRun

/-!
# Binary, octal and hexadecimal literals

The bits of the digits go through a window: the first 53 of them, a guard bit, and one sticky bit
for all others. What the window stands for is rounded to the nearest double, ties to even.
-/

namespace TachyonEngine.Vm

open Lib
open ExactSumAccumulator (infinityBits nanBits infinityIndex gridUnits_largest largestUnits)

/-! ## The parser -/

/-- The radixes that the caller passes on. -/
inductive LiteralRadix where
  | binary
  | octal
  | hexadecimal

def LiteralRadix.get : LiteralRadix → Nat
  | .binary => 2
  | .octal => 8
  | .hexadecimal => 16

def LiteralRadix.trailingZeros : LiteralRadix → Nat
  | .binary => 1
  | .octal => 3
  | .hexadecimal => 4

/-- `char::to_digit` of an ASCII character. -/
def toDigit (byte : UInt8) (radix : Nat) : Option Nat :=
  let digit :=
    if 48 ≤ byte ∧ byte ≤ 57 then some (byte.toNat - 48)
    else if 97 ≤ byte ∧ byte ≤ 122 then some (byte.toNat - 97 + 10)
    else if 65 ≤ byte ∧ byte ≤ 90 then some (byte.toNat - 65 + 10)
    else none
  digit.filter fun digit => digit < radix

/-- The local variables of the loop. -/
structure BitWindow where
  significant : Nat
  top : Nat
  guard : Bool
  sticky : Bool

namespace BitWindow

def empty : BitWindow := ⟨0, 0, false, false⟩

/-- One bit, which is passed over in front of the number. The count of bits saturates. -/
def push (window : BitWindow) (bit : Nat) : BitWindow :=
  if window.significant = 0 ∧ bit = 0 then window
  else
    let next :=
      if window.significant ≤ 52 then { window with top := window.top <<< 1 ||| bit }
      else if window.significant = 53 then { window with guard := decide (bit ≠ 0) }
      else { window with sticky := window.sticky || decide (bit ≠ 0) }
    { next with significant := min (window.significant + 1) (2 ^ 32 - 1) }

/-- The bits of a digit below a place, the highest first. -/
def pushDigit (digit : Nat) : Nat → BitWindow → BitWindow
  | 0, window => window
  | shift + 1, window => pushDigit digit shift (window.push (digit >>> shift &&& 1))

def pushDigits (radix : LiteralRadix) : List UInt8 → BitWindow → Option BitWindow
  | [], window => some window
  | byte :: digits, window =>
      match toDigit byte radix.get with
      | none => none
      | some digit => pushDigits radix digits (window.pushDigit digit radix.trailingZeros)

end BitWindow

/-- The index of the double nearest to a positive number whose leading bit has the weight `2 ^
high`. -/
def nearestIndex (n high : Nat) : Nat :=
  (high + 1022) * 2 ^ 52 + roundHalfEven (n * 2 ^ 1074) (high + 1022)

/-- `as f64`, which rounds to the nearest double. -/
def u64AsF64 (n : Nat) : UInt64 := if n = 0 then 0 else UInt64.ofNat (nearestIndex n n.log2)

/-- The exponent and the significand of a rounded number, of which the first may be too large. -/
def fromExponent (exponent top : Nat) : UInt64 :=
  if 1023 < exponent then infinityBits
  else UInt64.ofNat ((exponent + 1023) <<< 52 ||| (top &&& (1 <<< 52 - 1)))

/-- The double behind the loop. -/
def BitWindow.toF64 (window : BitWindow) : UInt64 :=
  if window.significant ≤ 53 then u64AsF64 window.top
  else
    let top :=
      if window.guard && (window.sticky || decide (window.top &&& 1 ≠ 0)) then window.top + 1
      else window.top
    if top = 1 <<< 53 then fromExponent (window.significant - 1 + 1) (top >>> 1)
    else fromExponent (window.significant - 1) top

/-- The bits of the double, or of NaN where a character is no digit. -/
def parsePowerOfTwoInteger (digits : List UInt8) (radix : LiteralRadix) : UInt64 :=
  match BitWindow.pushDigits radix digits .empty with
  | none => nanBits
  | some window => window.toF64

/-! ## What the window stands for -/

/-- A window behind the bits of a number: the number itself while it is short, then its first 53
bits and what the other `rest` bits come to. -/
inductive Streams : Nat → BitWindow → Prop
  | zero : Streams 0 .empty
  | short {n high : Nat} (hhigh : high ≤ 52) (hlow : 2 ^ high ≤ n) (hless : n < 2 ^ (high + 1)) :
      Streams n ⟨high + 1, n, false, false⟩
  | long {top rest low : Nat} (htop : 2 ^ 52 ≤ top) (hless : top < 2 ^ 53)
      (hlow : low < 2 ^ (rest + 1)) :
      Streams (top * 2 ^ (rest + 1) + low)
        ⟨min (rest + 54) (2 ^ 32 - 1), top, decide (2 ^ rest ≤ low), decide (low % 2 ^ rest ≠ 0)⟩

variable {n bit : Nat}

theorem shiftLeft_one_or (hbit : bit < 2) : n <<< 1 ||| bit = n * 2 + bit := by
  rw [← Nat.shiftLeft_add_eq_or_of_lt (i := 1) hbit, Nat.shiftLeft_eq]

variable {window : BitWindow}

theorem Streams.push (h : Streams n window) (hbit : bit < 2) :
    Streams (n * 2 + bit) (window.push bit) := by
  cases h with
  | zero =>
    rcases lt_or_ge 0 bit with hone | hz
    · obtain rfl : bit = 1 := by omega
      exact .short (show 0 ≤ 52 by decide) (by decide) (by decide)
    · obtain rfl : bit = 0 := by omega
      exact .zero
  | @short _ high hhigh hlow hless =>
    simp only [BitWindow.push, Nat.succ_ne_zero, false_and, if_false, shiftLeft_one_or hbit]
    rcases lt_or_ge high 52 with hroom | hfull
    · rw [if_pos (by omega), min_eq_left (by omega)]
      exact .short hroom (by omega) (by omega)
    · -- the first bit behind the window is the guard
      obtain rfl : high = 52 := by omega
      have hlong : Streams (n * 2 ^ (0 + 1) + bit) _ := .long hlow (by omega) (by omega)
      have hguard : decide (2 ^ 0 ≤ bit) = decide (bit ≠ 0) := decide_eq_decide.mpr (by omega)
      have hsticky : decide (bit % 2 ^ 0 ≠ 0) = false := decide_eq_false (by omega)
      rw [hguard, hsticky] at hlong
      exact hlong
  | @long top rest low htop hless hlow =>
    have hlong : Streams (top * 2 ^ (rest + 1 + 1) + (low * 2 + bit)) _ :=
      .long htop hless (by omega)
    have hnumber : (top * 2 ^ (rest + 1) + low) * 2 + bit =
        top * 2 ^ (rest + 1 + 1) + (low * 2 + bit) := by ring
    have hguard : decide (2 ^ (rest + 1) ≤ low * 2 + bit) = decide (2 ^ rest ≤ low) :=
      decide_eq_decide.mpr (by omega)
    have hsticky : decide ((low * 2 + bit) % 2 ^ (rest + 1) ≠ 0) =
        (decide (low % 2 ^ rest ≠ 0) || decide (bit ≠ 0)) := by
      have hdecompose := Nat.div_add_mod low (2 ^ rest)
      have hsplit : low * 2 + bit = 2 ^ (rest + 1) * (low / 2 ^ rest) +
          (low % 2 ^ rest * 2 + bit) := by
        conv_lhs => rw [← hdecompose]
        ring
      rw [hsplit, Nat.mul_add_mod, Nat.mod_eq_of_lt (by omega), ← Bool.decide_or]
      exact decide_eq_decide.mpr (by omega)
    have hc : min (min (rest + 54) (2 ^ 32 - 1) + 1) (2 ^ 32 - 1) = min (rest + 1 + 54)
        (2 ^ 32 - 1) := by
      omega
    rw [hguard, hsticky] at hlong
    rw [hnumber]
    simp only [BitWindow.push]
    rw [if_neg (by omega), if_neg (by omega), if_neg (by omega), hc]
    exact hlong

theorem Streams.pushDigit (h : Streams n window) (digit cnt : Nat) :
    Streams (n * 2 ^ cnt + digit % 2 ^ cnt) (window.pushDigit digit cnt) := by
  induction cnt generalizing n window with
  | zero =>
    rw [pow_zero, Nat.mod_one, mul_one]
    exact h
  | succ shift ih =>
    have hbit : digit >>> shift &&& 1 = digit / 2 ^ shift % 2 := by
      rw [Nat.and_one_is_mod, Nat.shiftRight_eq_div_pow]
    have hnumber : n * 2 ^ (shift + 1) + digit % 2 ^ (shift + 1) =
        (n * 2 + digit / 2 ^ shift % 2) * 2 ^ shift + digit % 2 ^ shift := by
      rw [Nat.mod_pow_succ]
      ring
    rw [BitWindow.pushDigit, hbit, hnumber]
    exact ih (h.push (Nat.mod_lt _ (by decide)))

theorem LiteralRadix.pow_trailingZeros (radix : LiteralRadix) :
    2 ^ radix.trailingZeros = radix.get := by
  cases radix <;> rfl

/-- The digits that the characters of a text stand for. -/
def Spells (radix : LiteralRadix) (text : List UInt8) (digits : List Nat) : Prop :=
  text.map (fun byte => toDigit byte radix.get) = digits.map some

variable {radix : LiteralRadix} {text : List UInt8} {digits : List Nat}

theorem Streams.pushDigits (h : Streams n window) (hdg : Spells radix text digits) :
    ∃ post, BitWindow.pushDigits radix text window = some post ∧
      Streams (digits.foldl (fun number digit => number * radix.get + digit) n) post := by
  induction text generalizing digits n window with
  | nil =>
    rw [List.map_eq_nil_iff.mp hdg.symm]
    exact ⟨window, rfl, h⟩
  | cons byte text ih =>
    cases digits with
    | nil => cases hdg
    | cons digit digits =>
      obtain ⟨hbyte, hrest⟩ : toDigit byte radix.get = some digit ∧ Spells radix text digits :=
        List.cons.inj hdg
      have hless : digit < radix.get := by simpa using (Option.filter_eq_some_iff.mp hbyte).2
      have hn := h.pushDigit digit radix.trailingZeros
      rw [radix.pow_trailingZeros, Nat.mod_eq_of_lt hless] at hn
      obtain ⟨post, ha, hstreams⟩ := ih hn hrest
      refine ⟨post, ?_, hstreams⟩
      rw [BitWindow.pushDigits, hbyte]
      exact ha

/-! ## Rounding -/

variable {top : Nat}

/-- The guard and the sticky bit decide as the remainder does. -/
theorem roundHalfEven_window {rest low : Nat} (hlow : low < 2 ^ (rest + 1)) :
    roundHalfEven (top * 2 ^ (rest + 1) + low) (rest + 1) =
      if decide (2 ^ rest ≤ low) && (decide (low % 2 ^ rest ≠ 0) || decide
      (top &&& 1 ≠ 0)) then top + 1 else top := by
  have hpos := Nat.two_pow_pos (rest + 1)
  have hquot : (top * 2 ^ (rest + 1) + low) / 2 ^ (rest + 1) = top := by
    rw [mul_comm, Nat.mul_add_div hpos, Nat.div_eq_of_lt hlow, add_zero]
  have hrem : (top * 2 ^ (rest + 1) + low) % 2 ^ (rest + 1) = low := by
    rw [mul_comm, Nat.mul_add_mod, Nat.mod_eq_of_lt hlow]
  have hsticky : 2 ^ rest ≤ low → (low % 2 ^ rest = 0 ↔ 2 * low = 2 ^ (rest + 1)) := by
    intro hle
    rw [Nat.mod_eq_sub_mod hle, Nat.mod_eq_of_lt (by omega)]
    omega
  simp only [roundHalfEven, hquot, hrem, Nat.and_one_is_mod]
  by_cases hguard : 2 ^ rest ≤ low
  · simp only [hguard, decide_true, Bool.true_and, Bool.or_eq_true, decide_eq_true_eq]
    by_cases hdown : 2 * low < 2 ^ (rest + 1) ∨ 2 * low = 2 ^ (rest + 1) ∧ top % 2 = 0
    · rw [if_pos hdown, if_neg (by omega)]
    · rw [if_neg hdown, if_pos (by omega)]
  · rw [if_pos (by omega)]
    simp [hguard]

variable {exponent : Nat}

/-- The fields of a double that is not too large. -/
theorem toNat_fromExponent (htop : 2 ^ 52 ≤ top) (hless : top < 2 ^ 53) :
    (fromExponent exponent top).toNat = min ((exponent + 1022) * 2 ^ 52 + top) infinityIndex := by
  rw [fromExponent]
  split
  · have : infinityBits.toNat = infinityIndex := by decide
    simp only [infinityIndex] at this ⊢
    omega
  · have hfrac : top &&& (1 <<< 52 - 1) = top - 2 ^ 52 := by
      rw [Nat.one_shiftLeft, Nat.and_two_pow_sub_one_eq_mod, Nat.mod_eq_sub_mod htop,
        Nat.mod_eq_of_lt (by omega)]
    rw [← Nat.shiftLeft_add_eq_or_of_lt (by omega), UInt64.toNat_ofNat',
      Nat.mod_eq_of_lt (by omega)]
    simp only [infinityIndex]
    omega

/-- A significand of the full width, rounded. -/
theorem toNat_carried (htop : 2 ^ 52 ≤ top) (hless : top ≤ 2 ^ 53) :
    (if top = 1 <<< 53 then fromExponent (exponent + 1) (top >>> 1) else fromExponent exponent
    top).toNat = min ((exponent + 1022) * 2 ^ 52 + top) infinityIndex := by
  rw [Nat.one_shiftLeft]
  split_ifs with hcarry
  · rw [hcarry, toNat_fromExponent (by decide) (by decide)]
    omega
  · exact toNat_fromExponent htop (by omega)

variable {high : Nat}

/-- Where the leading bit has the weight `2 ^ high`, the 53 bits from it on are rounded. -/
theorem roundsTo_high (scale last : Nat) (hlow : 2 ^ high ≤ n) (hhigh : n < 2 ^ (high + 1)) :
    RoundsTo (gridUnits 52) last (n * 2 ^ (scale + 52))
      (min ((high + scale) * 2 ^ 52 + roundHalfEven (n * 2 ^ (scale + 52)) (high + scale))
      last) := by
  have hpos := Nat.two_pow_pos (scale + 52)
  apply roundsTo_normalized (by decide)
  · rw [show 52 + (high + scale) = high + (scale + 52) by omega, pow_add]
    exact Nat.mul_le_mul_right _ hlow
  · rw [show 52 + 1 + (high + scale) = high + 1 + (scale + 52) by omega, pow_add _ (high + 1)]
    exact mul_lt_mul_of_pos_right hhigh hpos

/-- A number of at most 53 bits is not rounded. -/
theorem roundHalfEven_short (scale : Nat) (hhigh : high ≤ 52) (hless : n < 2 ^ (high + 1)) :
    roundHalfEven (n * 2 ^ (scale + 52)) (high + scale) < 2 ^ 53 := by
  have hpos := Nat.two_pow_pos (high + scale)
  have hsplit : n * 2 ^ (scale + 52) = 2 ^ (high + scale) * (n * 2 ^ (52 - high)) := by
    rw [show scale + 52 = high + scale + (52 - high) by omega]
    ring
  have hbound : n * 2 ^ (52 - high) < 2 ^ (high + 1) * 2 ^ (52 - high) :=
    mul_lt_mul_of_pos_right hless (Nat.two_pow_pos _)
  rw [← pow_add, show high + 1 + (52 - high) = 53 by omega] at hbound
  simp only [roundHalfEven]
  rw [hsplit, Nat.mul_div_cancel_left _ hpos, Nat.mul_mod_right, if_pos (.inl hpos)]
  exact hbound

/-- What the window stands for is rounded to the nearest double. -/
theorem Streams.roundsTo (h : Streams n window) :
    RoundsTo (gridUnits 52) infinityIndex (n * 2 ^ 1074) window.toF64.toNat := by
  cases h with
  | zero =>
    rw [Nat.zero_mul]
    have hz := roundsTo_exact (gridUnits_strictMono 52) (Nat.zero_le infinityIndex)
    rwa [gridUnits_subnormal (Nat.zero_le _)] at hz
  | @short _ high hhigh hlow hless =>
    have hpos : n ≠ 0 := (lt_of_lt_of_le (Nat.two_pow_pos high) hlow).ne'
    have hlog : n.log2 = high := (Nat.log2_eq_iff hpos).mpr ⟨hlow, hless⟩
    have hround := roundsTo_high 1022 infinityIndex hlow hless
    have hshort := roundHalfEven_short 1022 hhigh hless
    simp only [BitWindow.toF64, u64AsF64, nearestIndex]
    rw [if_pos (by omega), if_neg hpos, hlog, UInt64.toNat_ofNat']
    generalize roundHalfEven (n * 2 ^ 1074) (high + 1022) = rounded at hround hshort ⊢
    have hi : (high + 1022) * 2 ^ 52 + rounded < infinityIndex := by
      simp only [infinityIndex]
      omega
    have hfits : infinityIndex < 2 ^ 64 := by decide
    rw [Nat.mod_eq_of_lt (lt_trans hi hfits)]
    rwa [min_eq_left hi.le] at hround
  | @long top rest low htop hless hlow =>
    -- the leading bit of the number
    have hfirst : 2 ^ (rest + 53) ≤ top * 2 ^ (rest + 1) + low := by
      rw [show rest + 53 = 52 + (rest + 1) by omega, pow_add]
      exact le_trans (Nat.mul_le_mul_right _ htop) (Nat.le_add_right _ _)
    have hl : top * 2 ^ (rest + 1) + low < 2 ^ (rest + 53 + 1) := by
      rw [show rest + 53 + 1 = 53 + (rest + 1) by omega, pow_add 2 53]
      have hn := Nat.mul_le_mul_right (2 ^ (rest + 1)) (Nat.succ_le_of_lt hless)
      rw [Nat.succ_mul] at hn
      omega
    have hround := roundsTo_high 1022 infinityIndex hfirst hl
    rw [roundHalfEven_mul, roundHalfEven_window hlow] at hround
    simp only [BitWindow.toF64]
    rw [if_neg (by omega)]
    generalize hrounded : (if decide (2 ^ rest ≤ low) &&
      (decide (low % 2 ^ rest ≠ 0) || decide (top &&& 1 ≠ 0)) then top + 1 else top) =
        rounded at hround ⊢
    have hbounds : 2 ^ 52 ≤ rounded ∧ rounded ≤ 2 ^ 53 := by
      rw [← hrounded]
      split
      · omega
      · omega
    rw [toNat_carried hbounds.1 hbounds.2]
    -- a count that saturates is far beyond the last exponent
    have hbeyond : ∀ {cnt : Nat}, 2047 ≤ cnt → min (cnt * 2 ^ 52 + rounded) infinityIndex =
      infinityIndex :=
      fun h => min_eq_right (le_trans (Nat.mul_le_mul_right _ h) (Nat.le_add_right _ _))
    have hc : min ((min (rest + 54) (2 ^ 32 - 1) - 1 + 1022) * 2 ^ 52 + rounded) infinityIndex =
        min ((rest + 1 + 1074) * 2 ^ 52 + rounded) infinityIndex := by
      by_cases hless : rest + 54 ≤ 2 ^ 32 - 1
      · rw [min_eq_left hless, show rest + 54 - 1 + 1022 = rest + 1 + 1074 by omega]
      · have hfull : min (rest + 54) (2 ^ 32 - 1) = 2 ^ 32 - 1 := min_eq_right (by omega)
        have hhigh : 2047 ≤ rest + 1 + 1074 := by omega
        rw [hfull, hbeyond hhigh, hbeyond (by decide)]
    rwa [hc]

/-! ## The result -/

theorem parsePowerOfTwoInteger_roundsTo (hdg : Spells radix text digits) :
    RoundsTo (gridUnits 52) infinityIndex (digitsNumber radix.get digits * 2 ^ 1074)
      (parsePowerOfTwoInteger text radix).toNat := by
  obtain ⟨window, hwindow, hstreams⟩ := Streams.pushDigits .zero hdg
  rw [parsePowerOfTwoInteger, hwindow]
  exact hstreams.roundsTo

theorem middle_le_iff (high scale n : Nat) :
    (2 ^ 53 - 1) * 2 ^ (high + (scale + 1)) + 2 ^ 53 * 2 ^
    (high + (scale + 1)) ≤ 2 * (n * 2 ^ scale) ↔
      (2 ^ 54 - 1) * 2 ^ high ≤ n := by
  have hr : 2 * (n * 2 ^ scale) = n * 2 ^ (scale + 1) := by ring
  rw [← add_mul, pow_add _ high, ← mul_assoc, hr]
  exact Nat.mul_le_mul_right_iff (Nat.two_pow_pos _)

/-- From the middle between the largest double and the power of two above it on, infinity is
nearest. -/
theorem roundsTo_infinity_iff (n : Nat) :
    RoundsTo (gridUnits 52) infinityIndex (n * 2 ^ 1074) infinityIndex ↔
    (2 ^ 54 - 1) * 2 ^ 970 ≤ n := by
  have hbl : infinityIndex - 1 = (970 + (1074 + 1)) * 2 ^ 52 + (2 ^ 53 - 1) := by decide
  have hinf : infinityIndex = (970 + (1074 + 1)) * 2 ^ 52 + 2 ^ 53 := by decide
  rw [roundsTo_last_iff (gridUnits_strictMono 52) (by decide) (by decide), hbl, hinf,
    gridUnits_normalized _ _ (by decide) (by decide), gridUnits_normalized _ _ (by decide)
      (by decide)]
  exact middle_le_iff 970 1074 n

/-- A digit string of any length gives the nearest double, ties to even, and infinity where that
overflows. How the number is written does not matter: neither its leading zeros nor its radix. -/
theorem parsePowerOfTwoInteger_exact (hdg : Spells radix text digits) :
    RoundsTo (gridUnits 52) infinityIndex (digitsNumber radix.get digits * 2 ^ 1074)
      (parsePowerOfTwoInteger text radix).toNat ∧
    (parsePowerOfTwoInteger text radix = infinityBits ↔
      (2 ^ 54 - 1) * 2 ^ 970 ≤ digitsNumber radix.get digits) ∧
    (∀ zeros, parsePowerOfTwoInteger (List.replicate zeros 48 ++ text) radix =
      parsePowerOfTwoInteger text radix) ∧
    ∀ other otherText otherDigits, Spells other otherText otherDigits →
      digitsNumber other.get otherDigits = digitsNumber radix.get digits →
        parsePowerOfTwoInteger otherText other = parsePowerOfTwoInteger text radix := by
  have hmono := gridUnits_strictMono 52
  have hround := parsePowerOfTwoInteger_roundsTo hdg
  have hwri : ∀ other otherText otherDigits, Spells other otherText otherDigits →
      digitsNumber other.get otherDigits = digitsNumber radix.get digits →
        parsePowerOfTwoInteger otherText other = parsePowerOfTwoInteger text radix := by
    intro other otherText otherDigits ho heq
    have hround' := parsePowerOfTwoInteger_roundsTo ho
    rw [heq] at hround'
    exact UInt64.toNat_inj.mp (hround'.unique hmono hround)
  refine ⟨hround, ?_, ?_, hwri⟩
  · rw [← roundsTo_infinity_iff, ← UInt64.toNat_inj]
    constructor
    · intro heq
      rwa [heq] at hround
    · exact hround.unique hmono
  · intro zeros
    apply hwri radix _ (List.replicate zeros 0 ++ digits)
    · have hz : toDigit 48 radix.get = some 0 := by cases radix <;> rfl
      rw [Spells, List.map_append, List.map_append, List.map_replicate, List.map_replicate, hz, hdg]
    · have hzeros : digitsNumber radix.get (List.replicate zeros 0) = 0 := by
        induction zeros with
        | zero => rfl
        | succ zeros ih => rw [List.replicate_succ, digitsNumber_cons_zero, ih]
      rw [digitsNumber_append, hzeros, Nat.zero_mul, zero_add]

/-- `0x2F` is 47, and so is `0b101111`. -/
theorem parsePowerOfTwoInteger_exact_written :
    parsePowerOfTwoInteger [49, 48, 49, 49, 49, 49] .binary = parsePowerOfTwoInteger
    [50, 70] .hexadecimal :=
  have hhexadecimal : Spells .hexadecimal [50, 70] [2, 15] := rfl
  have hbinary : Spells .binary [49, 48, 49, 49, 49, 49] [1, 0, 1, 1, 1, 1] := rfl
  (parsePowerOfTwoInteger_exact hhexadecimal).2.2.2 .binary _ _ hbinary rfl

end TachyonEngine.Vm
