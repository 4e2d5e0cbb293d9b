import TachyonEngine.Vm.BigIntTextExact
import TachyonEngine.Vm.ExactSumRun

/-!
# BigInts and Numbers

A BigInt is compared with the integer part of a Number, which is a BigInt too, and the fraction of
the Number decides when the two are equal. Nothing is rounded on the way.
-/

namespace TachyonEngine.Vm

open Lib Lib.Capacity ExactSumAccumulator
open BigIntValue (signed Denotes)

/-! ## The integer part of a double -/

/-- The fraction bits of a double that stand for less than one; below one all bits do. -/
def fractionWidth (exponent : Nat) : Nat := if exponent < 1023 then 63 else 1075 - exponent

/-- The bits that `trunc` clears. There are none exactly when `fract` is zero. -/
def fractBits (number : UInt64) : UInt64 :=
  number &&& (bit (fractionWidth ((number >>> 52) &&& 0x7ff).toNat) - 1)

def truncF64 (number : UInt64) : UInt64 := number - fractBits number

/-- Decodes one integral binary64 value. -/
def BigIntValue.fromIntegralF64 (number : UInt64) : Building BigIntValue :=
  let exponent := ((number >>> 52) &&& 0x7ff).toNat
  if exponent = 0x7ff ∨ fractBits number ≠ 0 then throw .invalidDecimal
  else if number = 0 ∨ number = minusZeroBits then pure (fromU64 0)
  else
    let negative : Bool := number >>> 63 ≠ 0
    let significand := (number &&& (bit 52 - 1)) ||| bit 52
    let shift : Int := exponent - 1023 - 52
    if shift < 0 then
      pure { fromU64 (significand >>> UInt64.ofNat (-shift).toNat) with negative := negative }
    else do
      let wordShift := shift.toNat / 64
      let bitShift := shift.toNat % 64
      let high := if bitShift ≠ 0 then significand >>> UInt64.ofNat (64 - bitShift) else 0
      reserveEstimate (wordShift + (1 + if high ≠ 0 then 1 else 0))
      pure
        { negative := negative
          limbs := List.replicate wordShift 0 ++
            significand <<< UInt64.ofNat bitShift :: if high ≠ 0 then [high] else [] }

inductive BigIntNumberError where
  | invalidBigIntNumber (number : UInt64)
  deriving DecidableEq

/-- Compares a BigInt with a Number. NaN has no order. -/
def bigintCompareNumber (bigint : BigIntValue) (number : UInt64) :
    StateT Allocator (Except BigIntNumberError) (Option Ordering) := fun allocator =>
  if IsNaN number then .ok (none, allocator)
  else if number = infinityBits then .ok (some .lt, allocator)
  else if number = negInfinityBits then .ok (some .gt, allocator)
  else
    match BigIntValue.fromIntegralF64 (truncF64 number) allocator with
    | .error _ => .error (.invalidBigIntNumber number)
    | .ok (integer, allocator) =>
      let ordering := bigint.mathematicalCmp integer
      if ordering ≠ .eq ∨ fractBits number = 0 then .ok (some ordering, allocator)
      else .ok (some (if number >>> 63 ≠ 0 then .gt else .lt), allocator)

/-- The units of the smallest positive double in one. -/
def unitsPerOne : Nat := 2 ^ 1074

/-- The order of an integer and of the value of a double. -/
def exactOrdering (n : Int) (number : UInt64) : Option Ordering :=
  if IsNaN number then none
  else if IsFinite number then some (compare (n * unitsPerOne) (units number))
  else some (if isNegative number then .gt else .lt)

/-! ## Magnitudes -/

theorem unitsPerOne_pos : 0 < unitsPerOne := by
  unfold unitsPerOne
  positivity

theorem two_pow_mul_unitsPerOne {exponent : Nat} (hexp : 1023 ≤ exponent) :
    2 ^ (1075 - exponent) * 2 ^ (exponent - 1) = 2 ^ (exponent - 1075) * unitsPerOne := by
  rw [unitsPerOne, ← pow_add, ← pow_add,
    show 1075 - exponent + (exponent - 1) = exponent - 1075 + 1074 by omega]

/-- The integer part of a magnitude from one on. -/
theorem gridUnits_div_unitsPerOne {idx : Nat} (hexp : 1023 ≤ idx / 2 ^ 52) :
    gridUnits 52 idx / unitsPerOne =
      (2 ^ 52 + idx % 2 ^ 52) * 2 ^ (idx / 2 ^ 52 - 1075) / 2 ^ (1075 - idx / 2 ^ 52) := by
  have hscaled := Nat.mul_div_mul_right (gridUnits 52 idx) unitsPerOne
    (Nat.two_pow_pos (1075 - idx / 2 ^ 52))
  rw [← hscaled, gridUnits, if_neg (by omega), mul_assoc, mul_comm (2 ^ (idx / 2 ^ 52 - 1)),
    two_pow_mul_unitsPerOne hexp, ← mul_assoc, mul_comm unitsPerOne,
    Nat.mul_div_mul_right _ _ unitsPerOne_pos]

/-- Clearing the fraction bits of a magnitude from one on leaves its exponent. -/
theorem index_sub_fraction {idx : Nat} (hexp : 1023 ≤ idx / 2 ^ 52) :
    (idx - idx % 2 ^ fractionWidth (idx / 2 ^ 52)) / 2 ^ 52 = idx / 2 ^ 52 ∧
      (idx - idx % 2 ^ fractionWidth (idx / 2 ^ 52)) % 2 ^ 52 =
        idx % 2 ^ 52 - idx % 2 ^ 52 % 2 ^ fractionWidth (idx / 2 ^ 52) := by
  have hwidth : fractionWidth (idx / 2 ^ 52) ≤ 52 := by
    rw [fractionWidth, if_neg (by omega)]
    omega
  have hmod := Nat.mod_mod_of_dvd idx (pow_dvd_pow 2 hwidth)
  have hle := Nat.mod_le (idx % 2 ^ 52) (2 ^ fractionWidth (idx / 2 ^ 52))
  rw [hmod] at hle ⊢
  omega

/-- The magnitude without its fraction bits is the integer part. -/
theorem gridUnits_sub_fraction (idx : Nat) (hi : idx < 2 ^ 63) :
    gridUnits 52 (idx - idx % 2 ^ fractionWidth (idx / 2 ^ 52)) =
      gridUnits 52 idx / unitsPerOne * unitsPerOne := by
  rcases lt_or_ge (idx / 2 ^ 52) 1023 with hexp | hexp
  · have hone : ∀ scale, 52 + scale = 1074 → gridUnits 52
        (scale * 2 ^ 52 + 2 ^ 52) = unitsPerOne := by
      intro scale hscale
      rw [unitsPerOne, ← hscale, pow_add]
      exact gridUnits_normalized 52 scale (le_refl _) (by decide)
    have hless := gridUnits_strictMono 52 (show idx < 1022 * 2 ^ 52 + 2 ^ 52 by omega)
    rw [hone 1022 rfl] at hless
    rw [fractionWidth, if_pos hexp, Nat.mod_eq_of_lt hi, Nat.sub_self, Nat.div_eq_of_lt hless,
      Nat.zero_mul, gridUnits_subnormal (Nat.zero_le _)]
  · obtain ⟨hs, hless⟩ := index_sub_fraction hexp
    have hwidth : fractionWidth (idx / 2 ^ 52) = 1075 - idx / 2 ^ 52 := if_neg (by omega)
    rw [gridUnits_div_unitsPerOne hexp, gridUnits, hs, hless, if_neg (by omega), hwidth]
    generalize idx / 2 ^ 52 = exponent at hexp
    generalize idx % 2 ^ 52 = fraction
    -- the leading bit is no fraction bit
    have hlead : (2 ^ 52 + fraction) % 2 ^ (1075 - exponent) = fraction % 2 ^
        (1075 - exponent) := by
      have hdvd := pow_dvd_pow 2 (show 1075 - exponent ≤ 52 by omega)
      rw [Nat.add_mod, Nat.mod_eq_zero_of_dvd hdvd, zero_add, Nat.mod_mod]
    have hcleared : 2 ^ 52 + (fraction - fraction % 2 ^ (1075 - exponent)) =
        (2 ^ 52 + fraction) / 2 ^ (1075 - exponent) * 2 ^ (1075 - exponent) := by
      have hdecompose := Nat.div_add_mod' (2 ^ 52 + fraction) (2 ^ (1075 - exponent))
      have hle := Nat.mod_le fraction (2 ^ (1075 - exponent))
      omega
    have hcomm : (2 ^ 52 + fraction) / 2 ^ (1075 - exponent) * 2 ^ (exponent - 1075) =
        (2 ^ 52 + fraction) * 2 ^ (exponent - 1075) / 2 ^ (1075 - exponent) := by
      rcases le_total exponent 1075 with hle | hle <;> simp [Nat.sub_eq_zero_of_le hle]
    rw [hcleared, mul_assoc, two_pow_mul_unitsPerOne hexp, ← mul_assoc, hcomm]

/-! ## The fields of an integer part -/

variable {number : UInt64}

theorem magnitudeIndex_lt (number : UInt64) : magnitudeIndex number < 2 ^ 63 :=
  Nat.mod_lt _ (Nat.two_pow_pos 63)

theorem toNat_fractBits (number : UInt64) : (fractBits number).toNat =
    magnitudeIndex number % 2 ^ fractionWidth (magnitudeIndex number / 2 ^ 52) := by
  have hwidth : fractionWidth (magnitudeIndex number / 2 ^ 52) ≤ 63 := by
    rw [fractionWidth]
    split <;> omega
  rw [fractBits, (fields_eq number).1, toNat_and_lowBits _ (by omega)]
  exact (Nat.mod_mod_of_dvd number.toNat (pow_dvd_pow 2 hwidth)).symm

theorem truncF64_fields (number : UInt64) :
    magnitudeIndex (truncF64 number) = magnitudeIndex number -
        magnitudeIndex number % 2 ^ fractionWidth (magnitudeIndex number / 2 ^ 52) ∧
      isNegative (truncF64 number) = isNegative number := by
  have hfract := toNat_fractBits number
  have hle := Nat.mod_le (magnitudeIndex number)
    (2 ^ fractionWidth (magnitudeIndex number / 2 ^ 52))
  rw [← hfract] at hle ⊢
  have hsub : (truncF64 number).toNat = number.toNat - (fractBits number).toNat := by
    apply UInt64.toNat_sub_of_le
    exact hle.trans (Nat.mod_le _ _)
  simp only [isNegative, magnitudeIndex, decide_eq_decide] at hle ⊢
  omega

/-- An integer part is its own integer part. -/
theorem fractBits_truncF64 (number : UInt64) : fractBits (truncF64 number) = 0 := by
  rw [← UInt64.toNat_inj, toNat_fractBits, (truncF64_fields number).1, UInt64.toNat_zero]
  have hlt := magnitudeIndex_lt number
  generalize magnitudeIndex number = idx at hlt
  rcases lt_or_ge (idx / 2 ^ 52) 1023 with hexp | hexp
  · rw [fractionWidth, if_pos hexp, Nat.mod_eq_of_lt hlt, Nat.sub_self, Nat.zero_mod]
  · rw [(index_sub_fraction hexp).1]
    exact Nat.mod_eq_zero_of_dvd (Nat.dvd_sub_mod idx)

theorem fractBits_eq_zero_iff (number : UInt64) :
    fractBits number = 0 ↔ gridUnits 52 (magnitudeIndex number) % unitsPerOne = 0 := by
  have htrunc := gridUnits_sub_fraction _ (magnitudeIndex_lt number)
  have hdecompose := Nat.div_add_mod' (gridUnits 52 (magnitudeIndex number)) unitsPerOne
  have hle := Nat.mod_le (magnitudeIndex number)
    (2 ^ fractionWidth (magnitudeIndex number / 2 ^ 52))
  rw [← toNat_fractBits] at htrunc hle
  rw [← UInt64.toNat_inj, UInt64.toNat_zero]
  constructor
  · intro hz
    rw [hz, Nat.sub_zero] at htrunc
    omega
  · intro hz
    rw [hz, Nat.add_zero] at hdecompose
    have hs := (gridUnits_strictMono 52).injective (htrunc.trans hdecompose)
    omega

/-! ## Integral doubles -/

/-- The limbs of a shifted significand, with its high bits as one more limb. -/
theorem denotes_shiftedSignificand (neg : Bool) {significand : UInt64} (hne : significand ≠ 0)
    (shift : Nat) :
    let high := if shift % 64 ≠ 0 then significand >>> UInt64.ofNat (64 - shift % 64) else 0
    Denotes (signed neg (significand.toNat * 2 ^ shift))
      { negative := neg
        limbs := List.replicate (shift / 64) 0 ++
          significand <<< UInt64.ofNat (shift % 64) :: if high ≠ 0 then [high] else [] } := by
  intro high
  have hword := @toNat_shiftLeft_carry (shift % 64) (Nat.mod_lt _ (by decide)) 0 significand
    (Nat.two_pow_pos _)
  rw [UInt64.zero_or, UInt64.toNat_zero, Nat.add_zero] at hword
  have hv : limbsValue (List.replicate (shift / 64) 0 ++ significand <<< UInt64.ofNat
    (shift % 64) ::
      if high ≠ 0 then [high] else []) = significand.toNat * 2 ^ shift := by
    have hhigh : limbsValue (if high ≠ 0 then [high] else []) = high.toNat := by
      split
      · simp
      · next hz => rw [Decidable.not_not.mp hz, limbsValue_nil, UInt64.toNat_zero]
    rw [limbsValue_append, limbsValue_replicate_zero, List.length_replicate, Nat.zero_add,
      limbsValue_cons, hhigh, hword, limbBase_pow, Nat.mul_left_comm, ← Nat.pow_add,
        Nat.div_add_mod]
  refine ⟨⟨?_, fun hnil => absurd hnil (by simp)⟩, congrArg (signed neg) hv⟩
  intro hl
  split at hl
  · next hhigh => exact hhigh (by simpa using hl)
  next hhigh =>
    have hlow : significand <<< UInt64.ofNat (shift % 64) = 0 := by simpa using hl
    rw [hlow, show (if shift % 64 ≠ 0 then significand >>> UInt64.ofNat (64 - shift % 64) else
      0) = 0 from
      Decidable.not_not.mp hhigh] at hword
    have hpos := Nat.mul_pos (Nat.pos_of_ne_zero fun hz => hne (UInt64.toNat_inj.mp hz))
      (Nat.two_pow_pos (shift % 64))
    exact absurd hword (Nat.ne_of_lt hpos)

/-- An integral finite double gives the canonical integer that it is. -/
theorem builds_fromIntegralF64 (hfin : IsFinite number) (hintegral : fractBits number = 0) :
    ∃ val, Denotes (signed (isNegative number)
        (gridUnits 52 (magnitudeIndex number) / unitsPerOne)) val ∧
      Builds True (BigIntValue.fromIntegralF64 number) val := by
  obtain ⟨hexp, -, hneg⟩ := fields_eq number
  have hsig := toNat_significand number
  have hfract := toNat_fractBits number
  rw [hintegral] at hfract
  have hlt := magnitudeIndex_lt number
  have hspecial : ¬ (magnitudeIndex number / 2 ^ 52 = 0x7ff ∨ fractBits number ≠ 0) := by
    rintro (hall | hne)
    · simp only [IsFinite, infinityIndex] at hfin
      omega
    · exact hne hintegral
  simp only [BigIntValue.fromIntegralF64, hexp, hneg]
  rw [if_neg hspecial]
  by_cases hz : number = 0 ∨ number = minusZeroBits
  · rw [if_pos hz]
    refine ⟨_, ?_, Builds.pure _⟩
    have hi : magnitudeIndex number = 0 := by rcases hz with rfl | rfl <;> rfl
    rw [hi, gridUnits_subnormal (Nat.zero_le _), Nat.zero_div, BigIntValue.signed_zero]
    exact BigIntValue.denotes_fromU64 0
  · rw [if_neg hz]
    have hne : magnitudeIndex number ≠ 0 := by
      have hwhole := number.toNat_lt
      intro hi
      simp only [magnitudeIndex, ← UInt64.toNat_inj, UInt64.toNat_zero,
        show minusZeroBits.toNat = 2 ^ 63 by decide] at hi hz
      omega
    have hone : 1023 ≤ magnitudeIndex number / 2 ^ 52 := by
      by_contra hbl
      rw [fractionWidth, if_pos (by omega), Nat.mod_eq_of_lt hlt] at hfract
      exact hne hfract.symm
    rw [gridUnits_div_unitsPerOne hone, ← hsig]
    generalize (number &&& (bit 52 - 1)) ||| bit 52 = significand at hsig ⊢
    have hexp_lt : magnitudeIndex number / 2 ^ 52 < 2048 := by omega
    generalize magnitudeIndex number / 2 ^ 52 = exponent at hone hexp_lt ⊢
    by_cases hshift : (exponent : Int) - 1023 - 52 < 0
    · rw [if_pos hshift, show exponent - 1075 = 0 by omega, pow_zero, mul_one]
      refine ⟨_, ?_, Builds.pure _⟩
      have hmod : (-((exponent : Int) - 1023 - 52)).toNat % 2 ^ 64 % 64 =
        1075 - exponent := by omega
      have hword : (significand >>> UInt64.ofNat (-((exponent : Int) - 1023 - 52)).toNat).toNat =
          significand.toNat / 2 ^ (1075 - exponent) := by
        rw [UInt64.toNat_shiftRight, UInt64.toNat_ofNat', hmod, Nat.shiftRight_eq_div_pow]
      rw [← hword]
      have hpos : 0 < significand.toNat / 2 ^ (1075 - exponent) := by
        apply Nat.div_pos _ (Nat.two_pow_pos _)
        have hpow := Nat.pow_le_pow_right (by decide : 0 < 2) (show 1075 - exponent ≤ 52 by omega)
        omega
      rw [← hword] at hpos
      generalize significand >>> UInt64.ofNat _ = word at hpos ⊢
      have hword : word ≠ 0 := by
        rintro rfl
        exact absurd hpos (by decide)
      rw [BigIntValue.fromU64, if_neg hword]
      refine ⟨⟨fun hl => hword (Option.some.inj hl), fun h => by cases h⟩, ?_⟩
      simp [BigIntValue.toInt]
    · rw [if_neg hshift, show 1075 - exponent = 0 by omega, pow_zero, Nat.div_one]
      rw [show ((exponent : Int) - 1023 - 52).toNat = exponent - 1075 by omega]
      refine ⟨_, denotes_shiftedSignificand _ ?_ _,
        Builds.bind (Builds.reserve fun _ => ?_) (Builds.pure _)⟩
      · rintro rfl
        rw [UInt64.toNat_zero] at hsig
        omega
      · have hhigh : ∀ high : UInt64, (if high ≠ 0 then 1 else 0) ≤ 1 :=
          fun high => by split <;> omega
        exact lt_of_le_of_lt (Nat.add_le_add_left (Nat.add_le_add_left (hhigh _) 1) _) (by omega)

/-! ## Order -/

theorem signed_mul_natCast (neg : Bool) (m n : Nat) : signed neg (m * n) = signed neg m * n := by
  cases neg <;> simp [signed]

/-- Between an integer and a number with an integer part and a fraction, the fraction decides when
the integers are equal. -/
theorem compare_parts {one part : Nat} (hpart : part < one) (n : Int) (neg : Bool) (whole : Nat) :
    compare (n * one) (signed neg (whole * one + part)) =
      if compare n (signed neg whole) ≠ .eq ∨ part = 0 then compare n (signed neg whole)
      else if neg then .gt else .lt := by
  rw [BigIntValue.signed_add, signed_mul_natCast]
  have hsigned : signed neg part = if neg then -(part : Int) else part := rfl
  generalize signed neg whole = integer
  rcases Int.lt_trichotomy n integer with hlt | rfl | hgt
  · have hmul := Int.mul_le_mul_of_nonneg_right (show n + 1 ≤ integer from hlt)
      (Int.natCast_nonneg one)
    rw [Int.add_mul, Int.one_mul] at hmul
    have hless : n * one < integer * one + signed neg part := by
      rw [hsigned]
      split <;> omega
    rw [Int.compare_eq_lt.mpr hlt, Int.compare_eq_lt.mpr hless]
    rfl
  · rw [hsigned]
    by_cases hz : part = 0
    · simp [hz]
    · cases neg with
      | false =>
        rw [Int.compare_eq_lt.mpr (by simp; omega)]
        simp [hz]
      | true =>
        rw [Int.compare_eq_gt.mpr (by simp; omega)]
        simp [hz]
  · have hmul := Int.mul_le_mul_of_nonneg_right (show integer + 1 ≤ n from hgt)
      (Int.natCast_nonneg one)
    rw [Int.add_mul, Int.one_mul] at hmul
    have hless : integer * one + signed neg part < n * one := by
      rw [hsigned]
      split <;> omega
    rw [Int.compare_eq_gt.mpr hgt, Int.compare_eq_gt.mpr hless]
    rfl

/-- A BigInt is ordered to a double as its integer is to the value of the double, without any
rounding, unless memory is refused. An integral double is a canonical BigInt. -/
theorem bigintCompareNumber_exact {bigint : BigIntValue} (h : bigint.Canonical) :
    (∀ number alloc, (∃ post, bigintCompareNumber bigint number alloc =
        .ok (exactOrdering bigint.toInt number, post)) ∨
      bigintCompareNumber bigint number alloc = .error (.invalidBigIntNumber number) ∧
        ¬ ∀ n, alloc.refuses n = false) ∧
    ∀ number, IsFinite number → fractBits number = 0 →
      ∃ val, val.Canonical ∧ val.toInt * unitsPerOne = units number ∧
        Builds True (BigIntValue.fromIntegralF64 number) val := by
  refine ⟨fun number alloc => ?_, fun number hfin hintegral => ?_⟩
  · rw [bigintCompareNumber, exactOrdering]
    by_cases hnan : IsNaN number
    · exact .inl ⟨alloc, by rw [if_pos hnan, if_pos hnan]⟩
    rw [if_neg hnan]
    rcases classify number with hnan' | ⟨neg, rfl⟩ | hfin
    · exact absurd hnan' hnan
    · cases neg <;> exact .inl ⟨alloc, rfl⟩
    rw [if_neg (by rintro rfl; exact absurd hfin (by decide)),
      if_neg (by rintro rfl; exact absurd hfin (by decide)), if_pos hfin]
    obtain ⟨hi, hneg⟩ := truncF64_fields number
    have hless : IsFinite (truncF64 number) := by
      rw [IsFinite, hi]
      exact Nat.lt_of_le_of_lt (Nat.sub_le _ _) hfin
    obtain ⟨integer, ⟨hcanon, hv⟩, hbuilds⟩ :=
      builds_fromIntegralF64 hless (fractBits_truncF64 number)
    rw [hneg, hi, gridUnits_sub_fraction _ (magnitudeIndex_lt number),
      Nat.mul_div_cancel _ unitsPerOne_pos] at hv
    rcases hbuilds alloc with ⟨post, hok, -⟩ | ⟨herr, href⟩
    · refine .inl ⟨post, ?_⟩
      have hparts := compare_parts (Nat.mod_lt (gridUnits 52 (magnitudeIndex number))
        unitsPerOne_pos)
        bigint.toInt (isNegative number) (gridUnits 52 (magnitudeIndex number) / unitsPerOne)
      rw [Nat.div_add_mod'] at hparts
      have hsign : (number >>> 63 ≠ 0) = (isNegative number = true) := by
        rw [← (fields_eq number).2.2, decide_eq_true_eq]
      simp only [hok, BigIntValue.mathematicalCmp_eq h hcanon, hv, units, hparts, hsign,
        fractBits_eq_zero_iff]
      split <;> rfl
    · exact .inr ⟨by simp only [herr], fun hgrants => href ⟨trivial, hgrants⟩⟩
  · obtain ⟨val, ⟨hcanon, hv⟩, hbuilds⟩ := builds_fromIntegralF64 hfin hintegral
    refine ⟨val, hcanon, ?_, hbuilds⟩
    have hwhole := Nat.div_add_mod' (gridUnits 52 (magnitudeIndex number)) unitsPerOne
    rw [(fractBits_eq_zero_iff number).mp hintegral, Nat.add_zero] at hwhole
    rw [hv, units, ← signed_mul_natCast, hwhole]

/-- Beyond the doubles without gaps: `2 ^ 53 + 1` is above the double `2 ^ 53`. -/
theorem bigintCompareNumber_exact_gap :
    ∃ post, bigintCompareNumber ⟨false, [2 ^ 53 + 1]⟩ 0x4340000000000000 ⟨fun _ => false, 0⟩ =
      .ok (exactOrdering (2 ^ 53 + 1) 0x4340000000000000, post) :=
  ((bigintCompareNumber_exact (by decide)).1 0x4340000000000000 ⟨fun _ => false, 0⟩).resolve_right
    fun href => href.2 fun _ => rfl

end TachyonEngine.Vm
