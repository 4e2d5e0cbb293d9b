import TachyonEngine.Lib.NearestGrid
import TachyonEngine.Vm.BigIntShift
import TachyonEngine.Vm.ExactSumAccumulation

/-!
# Rounding of the exact sum

The leading word of the magnitude, with one sticky bit for all that it leaves out, is rounded to the
53 leading bits. The bits of the result are those of the nearest double.
-/

namespace TachyonEngine.Vm

open Lib

/-! ## Rounding of a sticky word -/

/-- A word stands for itself and a rest below it: it is the word, with its lowest bit set where the
rest would be lost. -/
def Keeps (mantissa word rest : Nat) : Prop :=
  mantissa = word ∧ (rest = 0 ∨ word % 1024 ≠ 0) ∨ rest ≠ 0 ∧ mantissa = 2 * (word / 2) + 1

/-- The leading 53 bits of a word and the rest below it. -/
theorem roundHalfEven_word (word width : Nat) {rest : Nat} (hrest : rest < 2 ^ width) :
    roundHalfEven (word * 2 ^ width + rest) (width + 11) =
      if word % 2048 < 1024 ∨ word % 2048 = 1024 ∧ rest = 0 ∧ word / 2048 % 2 = 0 then word / 2048
      else word / 2048 + 1 := by
  have hpos := Nat.two_pow_pos width
  have hpow : 2 ^ (width + 11) = 2 ^ width * 2048 := pow_add ..
  have hquot : (word * 2 ^ width + rest) / 2 ^ (width + 11) = word / 2048 := by
    rw [hpow, ← Nat.div_div_eq_div_mul, mul_comm word, Nat.mul_add_div hpos,
      Nat.div_eq_of_lt hrest, add_zero]
  have hrem : (word * 2 ^ width + rest) % 2 ^ (width + 11) = 2 ^ width * (word % 2048) + rest := by
    have hmod := Nat.mod_mul (x := word * 2 ^ width + rest) (a := 2 ^ width) (b := 2048)
    rw [hpow, hmod, mul_comm word, Nat.mul_add_mod, Nat.mod_eq_of_lt hrest, Nat.mul_add_div hpos,
      Nat.div_eq_of_lt hrest, add_zero, add_comm]
  simp only [roundHalfEven]
  rw [hquot, hrem, hpow]
  generalize word % 2048 = low
  generalize word / 2048 = high
  rcases lt_trichotomy low 1024 with hlt | heq | hgt
  · have hle : 2 ^ width * low ≤ 2 ^ width * 1023 := Nat.mul_le_mul_left _ (by omega)
    rw [if_pos (.inl (by omega)), if_pos (.inl hlt)]
  · rw [heq]
    by_cases hup : rest = 0 ∧ high % 2 = 0
    · rw [if_pos (.inr ⟨by omega, hup.2⟩), if_pos (.inr ⟨rfl, hup⟩)]
    · rw [if_neg, if_neg]
      · rintro (h | ⟨-, h⟩)
        · omega
        · exact hup h
      · rintro (h | ⟨h, heven⟩)
        · omega
        · exact hup ⟨by omega, heven⟩
  · have hge : 2 ^ width * 1025 ≤ 2 ^ width * low := Nat.mul_le_mul_left _ (by omega)
    rw [if_neg (by omega), if_neg (by omega)]

/-- The addend of the code rounds to nearest, ties to even. -/
theorem rounded_eq {mantissa word rest width : Nat} (hkeeps : Keeps mantissa word rest)
    (hrest : rest < 2 ^ width) : (mantissa + (1023 + mantissa / 2048 % 2)) / 2048 =
      roundHalfEven (word * 2 ^ width + rest) (width + 11) := by
  rw [roundHalfEven_word word width hrest]
  rcases hkeeps with ⟨rfl, hlow⟩ | ⟨hne, rfl⟩
  · split
    · omega
    · omega
  · split
    · omega
    · omega

theorem roundHalfEven_mul (exact shift scale : Nat) :
    roundHalfEven (exact * 2 ^ scale) (shift + scale) = roundHalfEven exact shift := by
  have hpos := Nat.two_pow_pos scale
  have hcompare : ∀ a b : Nat, a * 2 ^ scale < b * 2 ^ scale ↔ a < b :=
    fun a b => Nat.mul_lt_mul_right hpos
  have hequal : ∀ a b : Nat, a * 2 ^ scale = b * 2 ^ scale ↔ a = b :=
    fun a b => Nat.mul_left_inj hpos.ne'
  simp only [roundHalfEven]
  rw [pow_add, Nat.mul_div_mul_right _ _ hpos, Nat.mul_mod_mul_right, ← mul_assoc]
  simp only [hcompare, hequal]

theorem toNat_bit {n : Nat} (h : n < 64) : (bit n).toNat = 2 ^ n := by
  have hmod : n % 2 ^ 64 % 64 = n := by omega
  have hpow : 2 ^ n < 2 ^ 64 := Nat.pow_lt_pow_right (by decide) h
  rw [bit, UInt64.toNat_shiftLeft, UInt64.toNat_ofNat', hmod, UInt64.toNat_one, Nat.one_shiftLeft,
    Nat.mod_eq_of_lt hpow]

/-- The low bits of a word. -/
theorem toNat_and_lowBits (word : UInt64) {n : Nat} (h : n < 64) :
    (word &&& (bit n - 1)).toNat = word.toNat % 2 ^ n := by
  have hmask : (bit n - 1).toNat = 2 ^ n - 1 := by
    rw [UInt64.toNat_sub_of_le _ _ ?_, toNat_bit h, UInt64.toNat_one]
    rw [UInt64.le_iff_toNat_le, toNat_bit h]
    exact Nat.two_pow_pos n
  rw [UInt64.toNat_and, hmask, Nat.and_two_pow_sub_one_eq_mod]

theorem toNat_or_one (word : UInt64) : (word ||| 1).toNat = 2 * (word.toNat / 2) + 1 := by
  rw [UInt64.toNat_or, UInt64.toNat_one]
  have hdiv : (word.toNat ||| 1) / 2 = word.toNat / 2 := by
    rw [Nat.or_div_two]
    exact Nat.or_zero _
  have hmod : (word.toNat ||| 1) % 2 = 1 := by
    have h := @Nat.or_mod_two_pow word.toNat 1 1
    rw [h]
    rcases Nat.mod_two_eq_zero_or_one word.toNat with heven | hodd
    · rw [heven]
      rfl
    · rw [hodd]
      rfl
  omega

namespace ExactSumAccumulator

/-! ## The leading word -/

/-- A word without its leading zeros. -/
theorem normalized_word {word : UInt64} (hne : word ≠ 0) :
    2 ^ 63 ≤ word.toNat * 2 ^ leadingZeros word ∧ word.toNat * 2 ^ leadingZeros word < 2 ^ 64 ∧
      leadingZeros word < 64 := by
  have hne' : word.toNat ≠ 0 := fun h => hne (UInt64.toNat_inj.mp h)
  have hlog : word.toNat.log2 < 64 := (Nat.log2_lt hne').mpr word.toNat_lt
  have hzeros : leadingZeros word = 63 - word.toNat.log2 := by rw [leadingZeros, if_neg hne]
  have hlow := Nat.mul_le_mul_right (2 ^ leadingZeros word) (Nat.log2_self_le hne')
  have hhigh := mul_lt_mul_of_pos_right (toNat_lt_two_pow_leadingZeros word)
    (Nat.two_pow_pos (leadingZeros word))
  have hlow' : 2 ^ word.toNat.log2 * 2 ^ leadingZeros word = 2 ^ 63 := by
    rw [← pow_add]
    congr 1
    omega
  have hhigh' : 2 ^ (64 - leadingZeros word) * 2 ^ leadingZeros word = 2 ^ 64 := by
    rw [← pow_add]
    congr 1
    omega
  exact ⟨by omega, by omega, by omega⟩

theorem any_ne_zero_iff (limbs : List UInt64) :
    limbs.any (· ≠ 0) = true ↔ limbsValue limbs ≠ 0 := by
  rw [Ne, limbsValue_eq_zero_iff]
  simp

/-- The last step of a sticky word. -/
theorem keeps_sticky {leading : UInt64} {below : List UInt64} {word rest : Nat}
    (hleading : leading.toNat = word ∧ (rest = 0 ↔ limbsValue below = 0) ∨
      rest ≠ 0 ∧ leading.toNat = 2 * (word / 2) + 1) :
    Keeps (if leading &&& (bit 10 - 1) = 0 ∧
    below.any (· ≠ 0) then leading ||| 1 else leading).toNat word rest := by
  have hlow : leading &&& (bit 10 - 1) = 0 ↔ leading.toNat % 1024 = 0 := by
    rw [← UInt64.toNat_inj, toNat_and_lowBits leading (by decide : 10 < 64)]
    norm_num
  simp only [hlow, any_ne_zero_iff]
  split_ifs with h
  · rw [toNat_or_one]
    rcases hleading with ⟨heq, hrest⟩ | ⟨hne, hodd⟩
    · exact .inr ⟨fun hz => h.2 (hrest.mp hz), by rw [heq]⟩
    · omega
  · rcases hleading with ⟨heq, hrest⟩ | ⟨hne, hodd⟩
    · refine .inl ⟨heq, ?_⟩
      by_cases hz : rest = 0
      · exact .inl hz
      · exact .inr fun hmod => h ⟨by rw [heq]; exact hmod, fun hbl => hz (hrest.mpr hbl)⟩
    · exact .inr ⟨hne, hodd⟩

/-- The two highest words, moved up by the leading zeros. -/
theorem toNat_joined {shift : Nat} (hpos : 0 < shift) (hshift : shift < 64) (top next : UInt64)
    (htop : top.toNat * 2 ^ shift < 2 ^ 64) :
    (top <<< UInt64.ofNat shift ||| next >>> UInt64.ofNat (64 - shift)).toNat =
      top.toNat * 2 ^ shift + next.toNat / 2 ^ (64 - shift) := by
  have hmod : shift % 2 ^ 64 % 64 = shift := by omega
  have hmod' : (64 - shift) % 2 ^ 64 % 64 = 64 - shift := by omega
  have hless : next.toNat / 2 ^ (64 - shift) < 2 ^ shift := by
    rw [Nat.div_lt_iff_lt_mul (Nat.two_pow_pos _), ← pow_add]
    have hlt := next.toNat_lt
    rwa [show shift + (64 - shift) = 64 by omega]
  rw [UInt64.toNat_or, UInt64.toNat_shiftLeft, UInt64.toNat_shiftRight, UInt64.toNat_ofNat',
    UInt64.toNat_ofNat', hmod, hmod', Nat.shiftLeft_eq, Nat.mod_eq_of_lt htop,
      Nat.shiftRight_eq_div_pow,
    ← Nat.shiftLeft_eq, ← Nat.shiftLeft_add_eq_or_of_lt hless]

/-- The magnitude without leading zeros is the leading word and a rest, and the sticky word stands
for both. -/
theorem stickyWord_spec {limbs : List UInt64} (hcanon : CanonicalLimbs limbs) (hne : limbs ≠ []) :
    ∃ word rest, limbsValue limbs * 2 ^ leadingZeros (limbs.getD (limbs.length - 1) 0) =
        word * 2 ^ (64 * (limbs.length - 1)) + rest ∧
      rest < 2 ^ (64 * (limbs.length - 1)) ∧ 2 ^ 63 ≤ word ∧ word < 2 ^ 64 ∧
      Keeps (stickyWord limbs).toNat word rest := by
  rcases List.eq_nil_or_concat limbs with rfl | ⟨lower, top, rfl⟩
  · exact absurd rfl hne
  · rw [List.concat_eq_append] at hcanon ⊢
    have htop : top ≠ 0 := by
      rintro rfl
      exact hcanon List.getLast?_concat
    obtain ⟨hlow, hhigh, hshift⟩ := normalized_word htop
    have hlen : (lower ++ [top]).length - 1 = lower.length := by simp
    have hl : (lower ++ [top]).getD lower.length 0 = top := by simp
    have hv : limbsValue (lower ++ [top]) = limbsValue lower + 2 ^
        (64 * lower.length) * top.toNat := by
      rw [limbsValue_append, limbBase_pow, limbsValue_cons, limbsValue_nil, Nat.mul_zero, add_zero]
    rw [hlen, hl, hv]
    by_cases hzeros : leadingZeros top = 0
    · -- the highest word is the leading word
      refine ⟨top.toNat, limbsValue lower, ?_, ?_, ?_, ?_, ?_⟩
      · rw [hzeros]
        ring
      · rw [← limbBase_pow]
        exact limbsValue_lt lower
      · simpa [hzeros] using hlow
      · exact top.toNat_lt
      · have hleading : leadingWord (lower ++ [top]) = (top, lower.length) := by
          simp only [leadingWord, hlen, hl, hzeros, ne_eq, not_true_eq_false, if_false]
        simp only [stickyWord, hleading]
        apply keeps_sticky
        rw [List.take_left']
        · exact .inl ⟨rfl, Iff.rfl⟩
        · rfl
    · rcases List.eq_nil_or_concat lower with rfl | ⟨low, next, rfl⟩
      · refine ⟨top.toNat * 2 ^ leadingZeros top, 0, ?_, ?_, hlow, hhigh, ?_⟩
        · simp
        · simp
        · have hleading : leadingWord ([] ++ [top]) =
              (top <<< UInt64.ofNat (leadingZeros top), 0) := by
            simp [leadingWord, hzeros]
          simp only [stickyWord, hleading]
          apply keeps_sticky
          refine .inl ⟨?_, by simp⟩
          rw [toNat_lowWord top hshift, Nat.mod_eq_of_lt hhigh]
      · rw [List.concat_eq_append] at hlen hl hv ⊢
        have hpositive : 0 < leadingZeros top := pos_of_ne_zero hzeros
        have hdecompose := Nat.mod_add_div next.toNat (2 ^ (64 - leadingZeros top))
        have hless := Nat.mod_lt next.toNat (Nat.two_pow_pos (64 - leadingZeros top))
        have hjoined := toNat_joined hpositive hshift top next hhigh
        have hsplit : 2 ^ 64 = 2 ^ (64 - leadingZeros top) * 2 ^ leadingZeros top := by
          rw [← pow_add]
          congr 1
          omega
        have hlowValue := limbsValue_lt low
        rw [limbBase_pow] at hlowValue
        refine ⟨top.toNat * 2 ^ leadingZeros top + next.toNat / 2 ^ (64 - leadingZeros top),
          (next.toNat % 2 ^ (64 - leadingZeros top) * 2 ^ (64 * low.length) + limbsValue low) *
            2 ^ leadingZeros top, ?_, ?_, ?_, ?_, ?_⟩
        · have hpow : 2 ^ (64 * (low ++ [next]).length) =
              2 ^ (64 * low.length) * (2 ^ (64 - leadingZeros top) * 2 ^ leadingZeros top) := by
            rw [List.length_append, ← hsplit, ← pow_add]
            congr 1
          rw [limbsValue_append, limbBase_pow, limbsValue_cons, limbsValue_nil, hpow]
          conv_lhs => rw [← hdecompose]
          ring
        · have hpow : 2 ^ (64 * (low ++ [next]).length) =
              2 ^ (64 - leadingZeros top) * 2 ^ (64 * low.length) * 2 ^ leadingZeros top := by
            rw [List.length_append, List.length_singleton, Nat.mul_right_comm, ← hsplit]
            ring
          have hstep := Nat.mul_le_mul_right (2 ^ (64 * low.length)) (Nat.succ_le_of_lt hless)
          rw [Nat.succ_mul] at hstep
          rw [hpow]
          exact mul_lt_mul_of_pos_right (by omega) (Nat.two_pow_pos _)
        · exact le_trans hlow (Nat.le_add_right _ _)
        · rw [← hjoined]
          exact UInt64.toNat_lt _
        · have hn : (low ++ [next] ++ [top]).getD ((low ++ [next]).length - 1) 0 = next := by simp
          have hposition : 0 < (low ++ [next]).length := by simp
          have hbl : (low ++ [next]).length - 1 = low.length := by simp
          have hleading : leadingWord (low ++ [next] ++ [top]) =
              (top <<< UInt64.ofNat (leadingZeros top) |||
                (next >>> UInt64.ofNat (64 - leadingZeros top) |||
                if next &&& (bit (64 - leadingZeros top) - 1) ≠ 0 then 1 else 0), low.length) := by
            simp only [leadingWord, hlen, hl]
            rw [if_pos hzeros, if_pos hposition, hn, hbl]
          have hlowBits : next &&& (bit (64 - leadingZeros top) - 1) = 0 ↔
              next.toNat % 2 ^ (64 - leadingZeros top) = 0 := by
            rw [← UInt64.toNat_inj, toNat_and_lowBits next (by omega), UInt64.toNat_zero]
          have htake : (low ++ [next] ++ [top]).take low.length = low := by simp
          have hpos := Nat.two_pow_pos (64 * low.length)
          have hpos' := Nat.two_pow_pos (leadingZeros top)
          rw [stickyWord, hleading]
          simp only [htake]
          apply keeps_sticky
          by_cases hsticky : next &&& (bit (64 - leadingZeros top) - 1) = 0
          · rw [if_neg (not_not.mpr hsticky), hlowBits.mp hsticky, UInt64.or_zero, hjoined]
            refine .inl ⟨rfl, ?_⟩
            rw [Nat.zero_mul, mul_eq_zero]
            omega
          · rw [if_pos hsticky, ← UInt64.or_assoc, toNat_or_one, hjoined]
            refine .inr ⟨?_, rfl⟩
            have hne := mt hlowBits.mpr hsticky
            have hfirst : next.toNat % 2 ^ (64 - leadingZeros top) * 2 ^ (64 * low.length) ≠ 0 :=
              Nat.mul_ne_zero hne hpos.ne'
            exact Nat.mul_ne_zero (by omega) hpos'.ne'

/-! ## The bits of the result -/

/-- The index of the magnitude of infinity. -/
def infinityIndex : Nat := 0x7ff * 2 ^ 52

/-- The bits of a sign and the index of a magnitude. -/
def withSign (negative : Bool) (index : Nat) : UInt64 :=
  (if negative then bit 63 else 0) ||| UInt64.ofNat index

theorem ofNat_fields {exponent fraction : Nat} (hexp : exponent < 2 ^ 11)
    (hfrac : fraction < 2 ^ 52) (word : UInt64) (hword : word.toNat = fraction) :
    UInt64.ofNat exponent <<< 52 ||| word = UInt64.ofNat (exponent * 2 ^ 52 + fraction) := by
  have hmod : exponent % 2 ^ 64 = exponent := by omega
  apply UInt64.toNat_inj.mp
  rw [UInt64.toNat_or, UInt64.toNat_shiftLeft, UInt64.toNat_ofNat', UInt64.toNat_ofNat', hmod,
    hword,
    show (52 : UInt64).toNat % 64 = 52 by decide,
    Nat.mod_eq_of_lt (by omega : exponent * 2 ^ 52 + fraction < 2 ^ 64),
    Nat.mod_eq_of_lt (by omega), ← Nat.shiftLeft_eq, ← Nat.shiftLeft_add_eq_or_of_lt hfrac]

/-- The rounded significand, which the addition may have carried out of the word. -/
theorem toNat_rounded {mantissa : UInt64} (hlow : 2 ^ 63 ≤ mantissa.toNat) :
    let quotient := (mantissa.toNat + (1023 + mantissa.toNat / 2048 % 2)) / 2048
    2 ^ 52 ≤ quotient ∧ quotient ≤ 2 ^ 53 ∧ (roundedSignificand mantissa = 0 ↔ quotient = 2 ^ 53) ∧
      (quotient < 2 ^ 53 → (roundedSignificand mantissa).toNat = quotient) := by
  have hlt := mantissa.toNat_lt
  have hparity : ((mantissa >>> 11 &&& 1 : UInt64)).toNat = mantissa.toNat / 2048 % 2 := by
    rw [UInt64.toNat_and, UInt64.toNat_shiftRight, UInt64.toNat_one, Nat.and_one_is_mod,
      Nat.shiftRight_eq_div_pow]
    rfl
  have hrounded : (roundedSignificand mantissa).toNat =
      (mantissa.toNat + (1023 + mantissa.toNat / 2048 % 2)) % 2 ^ 64 / 2048 := by
    rw [roundedSignificand, UInt64.toNat_shiftRight, UInt64.toNat_add, UInt64.toNat_add, hparity,
      show (bit 10 - 1).toNat = 1023 by decide, Nat.shiftRight_eq_div_pow,
      Nat.mod_eq_of_lt (by omega : 1023 + mantissa.toNat / 2048 % 2 < 2 ^ 64)]
    rfl
  intro quotient
  have hz : roundedSignificand mantissa = 0 ↔ (roundedSignificand mantissa).toNat = 0 := by
    rw [← UInt64.toNat_inj, UInt64.toNat_zero]
  rw [hz]
  omega

/-- The fields of the result are those of the index, and an exponent beyond the last one is
infinity. -/
theorem assembled_eq (neg : Bool) {scale quotient : Nat} {rounded : UInt64}
    (hlow : 2 ^ 52 ≤ quotient) (hhigh : quotient ≤ 2 ^ 53)
    (hcarried : rounded = 0 ↔ quotient = 2 ^ 53)
    (hkept : quotient < 2 ^ 53 → rounded.toNat = quotient) :
    (if 0x7ff ≤ (if rounded = 0 then scale + 1 + 1 else scale + 1) then
        (if neg then bit 63 else 0) ||| (0x7ff : UInt64) <<< 52
      else (if neg then bit 63 else 0) |||
          UInt64.ofNat (if rounded = 0 then scale + 1 + 1 else scale + 1) <<< 52 |||
        (rounded &&& (bit 52 - 1))) =
      withSign neg (min (scale * 2 ^ 52 + quotient) infinityIndex) := by
  have hinf : withSign neg infinityIndex =
      (if neg then bit 63 else 0) ||| (0x7ff : UInt64) <<< 52 := by
    cases neg <;> decide
  have hi : infinityIndex = 2047 * 2 ^ 52 := rfl
  by_cases hcarry : quotient = 2 ^ 53
  · have hz := hcarried.mpr hcarry
    have hfrac : (rounded &&& (bit 52 - 1)).toNat = 0 := by
      rw [hz]
      decide
    rw [if_pos hz]
    split
    · rw [min_eq_right (by omega), hinf]
    · have hfields := ofNat_fields (by omega : scale + 1 + 1 < 2 ^ 11) (by decide) _ hfrac
      have hsum : (scale + 1 + 1) * 2 ^ 52 + 0 = scale * 2 ^ 52 + quotient := by omega
      rw [min_eq_left (by omega), withSign, UInt64.or_assoc, hfields, hsum]
  · have hless : quotient < 2 ^ 53 := by omega
    have hfrac : (rounded &&& (bit 52 - 1)).toNat = quotient - 2 ^ 52 := by
      rw [toNat_and_lowBits rounded (by decide), hkept hless]
      omega
    rw [if_neg (mt hcarried.mp hcarry)]
    split
    · rw [min_eq_right (by omega), hinf]
    · have hfields := ofNat_fields (by omega : scale + 1 < 2 ^ 11) (by omega) _ hfrac
      have hsum : (scale + 1) * 2 ^ 52 + (quotient - 2 ^ 52) = scale * 2 ^ 52 + quotient := by omega
      rw [min_eq_left (by omega), withSign, UInt64.or_assoc, hfields, hsum]

/-- The bits that the code puts together are those of the nearest double. -/
theorem roundExactLimbs_spec {limbs : List UInt64} (hcanon : CanonicalLimbs limbs)
    (hnormal : 2 ^ 52 ≤ limbsValue limbs) (neg : Bool) :
    ∃ idx, RoundsTo (gridUnits 52) infinityIndex (limbsValue limbs) idx ∧
      roundExactLimbs limbs neg = withSign neg idx := by
  have hne : limbs ≠ [] := by
    rintro rfl
    exact absurd hnormal (by decide)
  have hlen : 0 < limbs.length := List.length_pos_of_ne_nil hne
  obtain ⟨word, rest, hv, hrest, hlow, hhigh, hkeeps⟩ := stickyWord_spec hcanon hne
  rw [roundExactLimbs]
  generalize leadingZeros (limbs.getD (limbs.length - 1) 0) = zeros at hv ⊢
  -- the number of bits of the magnitude
  have hword_low : 2 ^ (64 * limbs.length - 1) ≤ limbsValue limbs * 2 ^ zeros := by
    have hpow : 2 ^ (64 * limbs.length - 1) = 2 ^ 63 * 2 ^ (64 * (limbs.length - 1)) := by
      rw [← pow_add]
      congr 1
      omega
    rw [hv, hpow]
    exact le_trans (Nat.mul_le_mul_right _ hlow) (Nat.le_add_right _ _)
  have hword_high : limbsValue limbs * 2 ^ zeros < 2 ^ (64 * limbs.length) := by
    have hpow : 2 ^ (64 * limbs.length) = 2 ^ 64 * 2 ^ (64 * (limbs.length - 1)) := by
      rw [← pow_add]
      congr 1
      omega
    have hstep := Nat.mul_le_mul_right (2 ^ (64 * (limbs.length - 1))) (Nat.succ_le_of_lt hhigh)
    rw [Nat.succ_mul] at hstep
    omega
  have hbits : 53 + zeros ≤ 64 * limbs.length := by
    have hscaled := Nat.mul_le_mul_right (2 ^ zeros) hnormal
    rw [← pow_add] at hscaled
    have hless := (Nat.pow_lt_pow_iff_right (by decide : 1 < 2)).mp
      (lt_of_le_of_lt hscaled hword_high)
    omega
  obtain ⟨scale, hscale⟩ := Nat.exists_eq_add_of_le hbits
  have hpos := Nat.two_pow_pos zeros
  have hmagnitude_low : 2 ^ (52 + scale) ≤ limbsValue limbs := by
    apply Nat.le_of_mul_le_mul_right _ hpos
    rw [← pow_add, show 52 + scale + zeros = 64 * limbs.length - 1 by omega]
    exact hword_low
  have hmagnitude_high : limbsValue limbs < 2 ^ (52 + 1 + scale) := by
    apply Nat.lt_of_mul_lt_mul_right (a := 2 ^ zeros)
    rw [← pow_add, show 52 + 1 + scale + zeros = 64 * limbs.length by omega]
    exact hword_high
  have hround := @roundsTo_normalized 52 scale infinityIndex _
    (by decide) hmagnitude_low hmagnitude_high
  -- the rounded significand
  have hmantissa : 2 ^ 63 ≤ (stickyWord limbs).toNat := by
    rcases hkeeps with ⟨heq, -⟩ | ⟨-, heq⟩
    · omega
    · omega
  have hquot : roundHalfEven (limbsValue limbs) scale =
      ((stickyWord limbs).toNat + (1023 + (stickyWord limbs).toNat / 2048 % 2)) / 2048 := by
    rw [rounded_eq hkeeps hrest, ← hv, ← roundHalfEven_mul _ scale zeros,
      show scale + zeros = 64 * (limbs.length - 1) + 11 by omega]
  obtain ⟨hquotient_low, hquotient_high, hcarried, hkept⟩ := toNat_rounded hmantissa
  rw [← hquot] at hquotient_low hquotient_high hcarried hkept
  refine ⟨_, hround, ?_⟩
  have hexp : limbs.length * 64 - zeros - 52 = scale + 1 := by omega
  simp only [hexp]
  exact assembled_eq neg hquotient_low hquotient_high hcarried hkept

end ExactSumAccumulator

end TachyonEngine.Vm
