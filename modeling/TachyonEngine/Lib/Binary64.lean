import Mathlib

/-!
# Integers among the doubles

`Float.Model` is the IEEE-754 binary64 type. An integer of at most 53 bits has one double of
its value, and the four operations on such doubles are the operations on the integers whenever
the exact result is a non-zero integer of at most 53 bits again: nothing is lost in rounding.
A result of zero keeps a sign of its own, so it is left to the caller.
-/

namespace TachyonEngine.Lib.Binary64

open Float.Model Float.Model.UnpackedFloat Format

/-! ## Shifting out zeros -/

theorem shiftRight_exact (x d : Nat) :
    ((⟨x * 2 ^ d, false, false⟩ : ExtendedMantissa) >>> d) = ⟨x, false, false⟩ := by
  induction d generalizing x with
  | zero => simp only [pow_zero, mul_one]; rfl
  | succ d ih =>
    have hsplit : x * 2 ^ (d + 1) = x * 2 * 2 ^ d := by ring
    have hl : ((⟨x * 2 * 2 ^ d, false, false⟩ : ExtendedMantissa) >>> (d + 1)) =
        ExtendedMantissa.shiftRightOne
          ((⟨x * 2 * 2 ^ d, false, false⟩ : ExtendedMantissa) >>> d) := rfl
    rw [hsplit, hl, ih]
    simp [ExtendedMantissa.shiftRightOne]

variable {c : Nat}

theorem log2_mul_two_pow (hc : 0 < c) (k : Nat) : (c * 2 ^ k).log2 = c.log2 + k := by
  have hpos : c * 2 ^ k ≠ 0 := by positivity
  rw [Nat.log2_eq_iff hpos]
  have hlow := Nat.log2_self_le (ne_of_gt hc)
  have hhigh := @Nat.lt_log2_self c
  constructor
  · rw [pow_add]
    exact Nat.mul_le_mul_right _ hlow
  · have hsplit : 2 ^ (c.log2 + k + 1) = 2 ^ (c.log2 + 1) * 2 ^ k := by ring
    rw [hsplit]
    exact mul_lt_mul_of_pos_right hhigh (by positivity)

/-! ## The double of a natural number -/

/-- The significand of a positive number, with its leading bit in front. -/
def significand (c : Nat) : Nat := c * 2 ^ (52 - c.log2)

theorem significand_pos (hc : 0 < c) : 0 < significand c := by
  have : 0 < 2 ^ (52 - c.log2) := by positivity
  exact mul_pos hc this

theorem log2_significand (hc : 0 < c) (hsm : c < 2 ^ 53) : (significand c).log2 = 52 := by
  have hlog : c.log2 < 53 := (Nat.log2_lt (ne_of_gt hc)).mpr hsm
  rw [significand, log2_mul_two_pow hc]
  omega

/-- The unpacked double of a positive number. -/
def unpacked (sign : Sign) (c : Nat) (hc : 0 < c) : UnpackedFloat :=
  .finite sign (significand c) (c.log2 - 52) (significand_pos hc)

theorem targetExponent_eq (hc : 0 < c) (k : Nat) :
    binary64.targetExponent (totalExponent (c * 2 ^ k) (-k)) = (c.log2 : Int) - 52 := by
  rw [totalExponent, log2_mul_two_pow hc]
  simp only [targetExponent, mantissaBits, minExponent]
  omega

theorem roundWithAccuracy_exact (sign : Sign) (hc : 0 < c) (hsm : c < 2 ^ 53) {k : Nat}
    (hk : 52 ≤ c.log2 + k) :
    roundWithAccuracy binary64 sign (c * 2 ^ k) (-k) .exact = unpacked sign c hc := by
  have hlog : c.log2 < 53 := (Nat.log2_lt (ne_of_gt hc)).mpr hsm
  have hfirst : shiftToTargetExponent binary64 (c * 2 ^ k) (-k) .exact =
      (⟨significand c, false, false⟩, (c.log2 : Int) - 52) := by
    simp only [shiftToTargetExponent, shiftToExponent, targetExponent_eq hc,
      ExtendedMantissa.ofMantissaAndAccuracy]
    have hshift : ((c.log2 : Int) - 52 - -(k : Int)).toNat = c.log2 + k - 52 := by omega
    have hsplit : c * 2 ^ k = significand c * 2 ^ (c.log2 + k - 52) := by
      rw [significand, mul_assoc, ← pow_add]
      congr 2
      omega
    rw [hshift, hsplit, shiftRight_exact]
    congr 1
    omega
  have hsec : shiftToTargetExponent binary64 (significand c) ((c.log2 : Int) - 52) .exact =
      (⟨significand c, false, false⟩, (c.log2 : Int) - 52) := by
    have ht : binary64.targetExponent
        (totalExponent (significand c) ((c.log2 : Int) - 52)) = (c.log2 : Int) - 52 := by
      rw [totalExponent, log2_significand hc hsm]
      simp only [targetExponent, mantissaBits, minExponent]
      omega
    simp only [shiftToTargetExponent, shiftToExponent, ht, sub_self]
    refine Prod.ext rfl ?_
    simp
  have hrounded : (⟨significand c, false, false⟩ : ExtendedMantissa).roundedMantissa =
      significand c := rfl
  have hne : significand c ≠ 0 := ne_of_gt (significand_pos hc)
  simp only [roundWithAccuracy, hfirst, hrounded, hsec, hne]
  rfl

theorem round_exact (sign : Sign) (hc : 0 < c) (hsm : c < 2 ^ 53) (k : Nat) :
    round binary64 sign (c * 2 ^ k) (-k) = unpacked sign c hc := by
  simp only [UnpackedFloat.round, targetExponent_eq hc, decreaseExponent]
  have hshift : (-(k : Int) - ((c.log2 : Int) - 52)).toNat = 52 - c.log2 - k := by omega
  rw [hshift]
  have hmantissa : (c * 2 ^ k) <<< (52 - c.log2 - k) = c * 2 ^ (k + (52 - c.log2 - k)) := by
    rw [Nat.shiftLeft_eq, mul_assoc, ← pow_add]
  have hexp : -(k : Int) - ((52 - c.log2 - k : Nat) : Int) =
      -((k + (52 - c.log2 - k) : Nat) : Int) := by
    push_cast
    ring
  rw [hmantissa, hexp]
  exact roundWithAccuracy_exact sign hc hsm (by omega)

/-! ## Packing -/

theorem unpackSign_packComponents {format : Format} (sign : Sign)
    (exponent : BitVec format.exponentBits) (mantissa : BitVec format.mantissaBitsWithoutImplicit) :
    unpackSign (packComponents format sign exponent mantissa) = sign.toBitVec := by
  ext i hi
  have hz : i = 0 := by omega
  subst hz
  simp [unpackSign, packComponents, BitVec.getLsbD_append, BitVec.getElem_append]

theorem ofBitVec_toBitVec (sign : Sign) : Sign.ofBitVec sign.toBitVec = sign := by
  cases sign with
  | negative | positive => rfl

theorem unpack_pack_unpacked (sign : Sign) (hc : 0 < c) (hsm : c < 2 ^ 53) :
    (Float.Model.pack (unpacked sign c hc)).unpack = unpacked sign c hc := by
  have hlog : c.log2 < 53 := (Nat.log2_lt (ne_of_gt hc)).mpr hsm
  have hbits := log2_significand hc hsm
  have hne : significand c ≠ 0 := ne_of_gt (significand_pos hc)
  obtain ⟨hlow, hhigh⟩ := (Nat.log2_eq_iff hne).mp hbits
  have hbiased : ((c.log2 : Int) - 52 + (binary64.exponentBias : Int) +
      (binary64.mantissaBitsWithoutImplicit : Int)).toNat = c.log2 + 1023 := by
    simp only [exponentBias]
    omega
  have hpack : UnpackedFloat.pack binary64 (unpacked sign c hc) =
      packComponents binary64 sign (BitVec.ofNat 11 (c.log2 + 1023))
        (BitVec.ofNat 52 (significand c)) := by
    simp only [unpacked, UnpackedFloat.pack, hbiased, hbits, mantissaBits]
    rw [if_neg (by omega), if_pos trivial]
  have hexp : (BitVec.ofNat 11 (c.log2 + 1023)).toNat = c.log2 + 1023 := by
    rw [BitVec.toNat_ofNat]
    omega
  have hmantissa : (1#1 ++ BitVec.ofNat 52 (significand c)).toNat = significand c := by
    rw [BitVec.toNat_append, BitVec.toNat_ofNat, BitVec.toNat_ofNat, Nat.shiftLeft_eq,
      mul_comm, ← Nat.two_pow_add_eq_or_of_lt (Nat.mod_lt _ (by norm_num))]
    omega
  have hnotMax : BitVec.ofNat 11 (c.log2 + 1023) ≠ -1#11 := by
    intro heq
    have := congrArg BitVec.toNat heq
    simp at this
    omega
  have hnotMin : BitVec.ofNat 11 (c.log2 + 1023) ≠ 0#11 := by
    intro heq
    have := congrArg BitVec.toNat heq
    rw [hexp] at this
    simp at this
  have hbias : ((c.log2 + 1023 : Nat) : Int) - ((binary64.exponentBias : Int) +
      (binary64.mantissaBitsWithoutImplicit : Int)) = (c.log2 : Int) - 52 := by
    simp only [exponentBias]
    omega
  have hunpack : UnpackedFloat.unpack binary64 (packComponents binary64 sign
      (BitVec.ofNat 11 (c.log2 + 1023)) (BitVec.ofNat 52 (significand c))) =
        unpacked sign c hc := by
    simp only [UnpackedFloat.unpack, unpackMantissa_packComponents, unpackExponent_packComponents,
      unpackSign_packComponents, ofBitVec_toBitVec]
    rw [if_neg hnotMax, if_neg hnotMin]
    simp only [hmantissa, hexp, hbias]
    rfl
  simp only [Float.Model.unpack, Float.Model.pack]
  rw [hpack]
  exact hunpack

/-! ## The double of an integer -/

/-- The sign of an integer that is not zero. -/
def signOf (n : Int) : Sign := if n < 0 then .negative else .positive

theorem apply_signOf (n : Int) : (signOf n).apply n.natAbs = n := by
  simp only [signOf]
  split
  · simp only [Sign.apply]
    omega
  · simp only [Sign.apply]
    omega

variable {n : Int}

theorem normalize_exact (hn : n ≠ 0) (hsm : n.natAbs < 2 ^ 53) (k : Nat) (zeroSign : Sign) :
    normalize binary64 (n * 2 ^ k) (-k) zeroSign =
      unpacked (signOf n) n.natAbs (Int.natAbs_pos.mpr hn) := by
  have hpow : (0 : Int) < 2 ^ k := by positivity
  simp only [UnpackedFloat.normalize, signOf]
  rcases lt_or_gt_of_ne hn with hneg | hpos
  · have hcompare : compare (n * 2 ^ k) 0 = .lt := compare_lt_iff_lt.mpr
      (Int.mul_neg_of_neg_of_pos hneg hpow)
    have hnat : (-(n * 2 ^ k)).toNat = n.natAbs * 2 ^ k := by
      have habs : -(n * 2 ^ k) = ((n.natAbs * 2 ^ k : Nat) : Int) := by
        push_cast
        rw [abs_of_neg hneg]
        ring
      rw [habs, Int.toNat_natCast]
    simp only [hcompare, hnat, if_pos hneg]
    exact round_exact .negative _ hsm k
  · have hcompare : compare (n * 2 ^ k) 0 = .gt := compare_gt_iff_gt.mpr (Int.mul_pos hpos hpow)
    have hnat : (n * 2 ^ k).toNat = n.natAbs * 2 ^ k := by
      have habs : n * 2 ^ k = ((n.natAbs * 2 ^ k : Nat) : Int) := by
        push_cast
        rw [abs_of_pos hpos]
      rw [habs, Int.toNat_natCast]
    simp only [hcompare, hnat, if_neg (not_lt.mpr (le_of_lt hpos))]
    exact round_exact .positive _ hsm k

theorem unpack_ofInt (hn : n ≠ 0) (hsm : n.natAbs < 2 ^ 53) :
    (Float.Model.ofInt n).unpack = unpacked (signOf n) n.natAbs (Int.natAbs_pos.mpr hn) := by
  have hexact := normalize_exact hn hsm 0 .positive
  simp only [pow_zero, mul_one, Nat.cast_zero, neg_zero] at hexact
  simp only [Float.Model.ofInt, UnpackedFloat.ofInt, hexact]
  exact unpack_pack_unpacked _ _ hsm

theorem ofInt_eq_pack (hn : n ≠ 0) (hsm : n.natAbs < 2 ^ 53) :
    Float.Model.ofInt n = Float.Model.pack
    (unpacked (signOf n) n.natAbs (Int.natAbs_pos.mpr hn)) := by
  have hexact := normalize_exact hn hsm 0 .positive
  simp only [pow_zero, mul_one, Nat.cast_zero, neg_zero] at hexact
  simp only [Float.Model.ofInt, UnpackedFloat.ofInt, hexact]

/-- Zero with a sign. -/
def zero (sign : Sign) : Float.Model := Float.Model.pack (.zero sign)

theorem unpack_zero (sign : Sign) : (zero sign).unpack = .zero sign := by
  cases sign with
  | negative | positive => rfl

theorem ofInt_zero : Float.Model.ofInt 0 = zero .positive := rfl

/-! ## Arithmetic -/

variable {a b : Int}

theorem signOf_mul (ha : a ≠ 0) (hb : b ≠ 0) : signOf (a * b) = signOf a * signOf b := by
  simp only [signOf]
  rcases lt_or_gt_of_ne ha with ha | ha
  · rcases lt_or_gt_of_ne hb with hb | hb
    · rw [if_neg (not_lt.mpr (le_of_lt (Int.mul_pos_of_neg_of_neg ha hb))), if_pos ha, if_pos hb]
      rfl
    · rw [if_pos (Int.mul_neg_of_neg_of_pos ha hb), if_pos ha, if_neg (by omega)]
      rfl
  · rcases lt_or_gt_of_ne hb with hb | hb
    · rw [if_pos (Int.mul_neg_of_pos_of_neg ha hb), if_neg (by omega), if_pos hb]
      rfl
    · rw [if_neg (not_lt.mpr (le_of_lt (Int.mul_pos ha hb))), if_neg (by omega), if_neg (by omega)]
      rfl

theorem signOf_neg (hn : n ≠ 0) : signOf (-n) = -signOf n := by
  simp only [signOf]
  rcases lt_or_gt_of_ne hn with hneg | hpos
  · rw [if_neg (by omega), if_pos hneg]
    rfl
  · rw [if_pos (by omega), if_neg (by omega)]
    rfl

theorem log2_add_le_log2_mul {a b : Nat} (ha : 0 < a) (hb : 0 < b) :
    a.log2 + b.log2 ≤ (a * b).log2 := by
  have hpos : a * b ≠ 0 := Nat.ne_of_gt (Nat.mul_pos ha hb)
  rw [Nat.le_log2 hpos, pow_add]
  exact Nat.mul_le_mul (Nat.log2_self_le (Nat.ne_of_gt ha)) (Nat.log2_self_le (Nat.ne_of_gt hb))

theorem ofInt_mul (ha : a ≠ 0) (hb : b ≠ 0) (hab : (a * b).natAbs < 2 ^ 53)
    (ha' : a.natAbs < 2 ^ 53) (hb' : b.natAbs < 2 ^ 53) :
    Float.Model.ofInt a * Float.Model.ofInt b = Float.Model.ofInt (a * b) := by
  have hmul : Float.Model.ofInt a * Float.Model.ofInt b = Float.Model.pack
      (UnpackedFloat.mul binary64 (Float.Model.ofInt a).unpack (Float.Model.ofInt b).unpack) :=
    rfl
  have hapos := Int.natAbs_pos.mpr ha
  have hbpos := Int.natAbs_pos.mpr hb
  have halog : a.natAbs.log2 < 53 := (Nat.log2_lt (ne_of_gt hapos)).mpr ha'
  have hblog : b.natAbs.log2 < 53 := (Nat.log2_lt (ne_of_gt hbpos)).mpr hb'
  have hlogs := log2_add_le_log2_mul hapos hbpos
  have hmantissa : significand a.natAbs * significand b.natAbs =
      (a * b).natAbs * 2 ^ (104 - a.natAbs.log2 - b.natAbs.log2) := by
    rw [significand, significand, Int.natAbs_mul]
    have hpow : 104 - a.natAbs.log2 - b.natAbs.log2 =
        52 - a.natAbs.log2 + (52 - b.natAbs.log2) := by omega
    rw [hpow]
    ring
  have hexp : ((a.natAbs.log2 : Int) - 52 + ((b.natAbs.log2 : Int) - 52)) =
      -((104 - a.natAbs.log2 - b.natAbs.log2 : Nat) : Int) := by omega
  rw [hmul, unpack_ofInt ha ha', unpack_ofInt hb hb', ofInt_eq_pack (mul_ne_zero ha hb) hab]
  simp only [unpacked, UnpackedFloat.mul, hmantissa, hexp]
  rw [roundWithAccuracy_exact _ (Int.natAbs_pos.mpr (mul_ne_zero ha hb)) hab
    (by rw [Int.natAbs_mul]; omega), ← signOf_mul ha hb]
  rfl

/-- Two integers brought to one exponent. -/
theorem decreaseExponent_significand (hc : 0 < c) (hsm : c < 2 ^ 53) {k : Nat}
    (hk : 52 ≤ c.log2 + k) :
    (decreaseExponent (significand c) ((c.log2 : Int) - 52) (-k)).1 = c * 2 ^ k := by
  have hlog : c.log2 < 53 := (Nat.log2_lt (ne_of_gt hc)).mpr hsm
  simp only [decreaseExponent, Nat.shiftLeft_eq, significand, mul_assoc, ← pow_add]
  congr 2
  omega

theorem min_exponent (a : Nat) {b : Nat} (hb : 0 < b) (hb' : b < 2 ^ 53) :
    ∃ k : Nat, min ((a.log2 : Int) - 52) ((b.log2 : Int) - 52) = -k ∧ 52 ≤ a.log2 + k ∧
      52 ≤ b.log2 + k := by
  have hblog : b.log2 < 53 := (Nat.log2_lt (ne_of_gt hb)).mpr hb'
  refine ⟨52 - min a.log2 b.log2, ?_, ?_, ?_⟩
  · omega
  · omega
  · omega

theorem apply_scaled (n : Int) (k : Nat) :
    (signOf n).apply ((n.natAbs * 2 ^ k : Nat) : Int) = n * 2 ^ k := by
  have happly := apply_signOf n
  cases hsign : signOf n with
  | negative =>
    rw [hsign] at happly
    simp only [Sign.apply] at happly ⊢
    push_cast
    rw [← Int.natCast_natAbs, ← neg_mul, happly]
  | positive =>
    rw [hsign] at happly
    simp only [Sign.apply] at happly ⊢
    push_cast
    rw [← Int.natCast_natAbs, happly]

theorem pack_normalize (n : Int) (hsm : n.natAbs < 2 ^ 53) (k : Nat) :
    Float.Model.pack (normalize binary64 (n * 2 ^ k) (-k) .positive) = Float.Model.ofInt n := by
  by_cases hn : n = 0
  · subst hn
    simp only [zero_mul]
    rfl
  · rw [normalize_exact hn hsm, ofInt_eq_pack hn hsm]

theorem ofInt_add (ha : a.natAbs < 2 ^ 53) (hb : b.natAbs < 2 ^ 53)
    (hab : (a + b).natAbs < 2 ^ 53) :
    Float.Model.ofInt a + Float.Model.ofInt b = Float.Model.ofInt (a + b) := by
  have hadd : Float.Model.ofInt a + Float.Model.ofInt b = Float.Model.pack
      (UnpackedFloat.add binary64 (Float.Model.ofInt a).unpack (Float.Model.ofInt b).unpack) :=
    rfl
  rw [hadd]
  by_cases ha0 : a = 0
  · subst ha0
    rw [ofInt_zero, zero_add]
    by_cases hb0 : b = 0
    · subst hb0
      rfl
    · rw [unpack_ofInt hb0 hb, ofInt_eq_pack hb0 hb]
      rfl
  · by_cases hb0 : b = 0
    · subst hb0
      rw [ofInt_zero, add_zero, unpack_ofInt ha0 ha, ofInt_eq_pack ha0 ha]
      rfl
    · obtain ⟨k, hk, hka, hkb⟩ :=
        min_exponent a.natAbs (Int.natAbs_pos.mpr hb0) hb
      rw [unpack_ofInt ha0 ha, unpack_ofInt hb0 hb]
      simp only [unpacked, UnpackedFloat.add, hk,
        decreaseExponent_significand (Int.natAbs_pos.mpr ha0) ha hka,
        decreaseExponent_significand (Int.natAbs_pos.mpr hb0) hb hkb, apply_scaled]
      rw [← add_mul]
      exact pack_normalize (a + b) hab k

theorem ofInt_sub (ha : a.natAbs < 2 ^ 53) (hb : b.natAbs < 2 ^ 53)
    (hab : (a - b).natAbs < 2 ^ 53) :
    Float.Model.ofInt a - Float.Model.ofInt b = Float.Model.ofInt (a - b) := by
  have hsub : Float.Model.ofInt a - Float.Model.ofInt b = Float.Model.pack
      (UnpackedFloat.sub binary64 (Float.Model.ofInt a).unpack (Float.Model.ofInt b).unpack) :=
    rfl
  rw [hsub]
  by_cases ha0 : a = 0
  · subst ha0
    rw [ofInt_zero, zero_sub]
    by_cases hb0 : b = 0
    · subst hb0
      rfl
    · have hneg : (-b).natAbs < 2 ^ 53 := by rwa [Int.natAbs_neg]
      rw [unpack_ofInt hb0 hb, ofInt_eq_pack (neg_ne_zero.mpr hb0) hneg]
      simp only [signOf_neg hb0, Int.natAbs_neg]
      rfl
  · by_cases hb0 : b = 0
    · subst hb0
      rw [ofInt_zero, sub_zero, unpack_ofInt ha0 ha, ofInt_eq_pack ha0 ha]
      rfl
    · obtain ⟨k, hk, hka, hkb⟩ :=
        min_exponent a.natAbs (Int.natAbs_pos.mpr hb0) hb
      rw [unpack_ofInt ha0 ha, unpack_ofInt hb0 hb]
      simp only [unpacked, UnpackedFloat.sub, hk,
        decreaseExponent_significand (Int.natAbs_pos.mpr ha0) ha hka,
        decreaseExponent_significand (Int.natAbs_pos.mpr hb0) hb hkb, apply_scaled]
      rw [← sub_mul]
      exact pack_normalize (a - b) hab k

/-- Long division of significands that leaves no remainder. -/
theorem divCore_exact {a b r : Nat} (hb : 0 < b) (hr : 0 < r) (hab : a = b * r) (ha : a < 2 ^ 53)
    (hb' : b < 2 ^ 53) :
    ∃ k : Nat, divCore binary64 (significand a) ((a.log2 : Int) - 52) (significand b)
        ((b.log2 : Int) - 52) = (r * 2 ^ k, -(k : Int), .exact) ∧ 52 ≤ r.log2 + k := by
  have hapos : 0 < a := hab ▸ mul_pos hb hr
  have halog : a.log2 < 53 := (Nat.log2_lt (ne_of_gt hapos)).mpr ha
  have hlogs : b.log2 + r.log2 ≤ a.log2 := hab ▸ log2_add_le_log2_mul hb hr
  have hlogs' : a.log2 ≤ b.log2 + r.log2 + 1 := by
    have hbhigh := @Nat.lt_log2_self b
    have hrhigh := @Nat.lt_log2_self r
    have halt : a < 2 ^ (b.log2 + r.log2 + 2) := by
      rw [hab, show b.log2 + r.log2 + 2 = b.log2 + 1 + (r.log2 + 1) by ring, pow_add]
      exact Nat.mul_lt_mul'' hbhigh hrhigh
    have := (Nat.log2_lt (ne_of_gt hapos)).mpr halt
    omega
  -- Enough zeros are appended to the dividend for the quotient to have 53 bits.
  obtain ⟨k, hk, hkb, hkr⟩ : ∃ k : Nat,
      min ((a.log2 : Int) - 52 - ((b.log2 : Int) - 52)) (binary64.targetExponent
        (totalExponent (significand a) ((a.log2 : Int) - 52) -
          totalExponent (significand b) ((b.log2 : Int) - 52))) = -(k : Int) ∧
        b.log2 ≤ a.log2 + k ∧ 52 ≤ r.log2 + k := by
    simp only [totalExponent, log2_significand hapos ha, log2_significand hb hb',
      targetExponent, mantissaBits, minExponent]
    refine ⟨53 + b.log2 - a.log2, ?_, ?_, ?_⟩
    · omega
    · omega
    · omega
  have hshift : ((a.log2 : Int) - 52 - ((b.log2 : Int) - 52) - -(k : Int)).toNat =
      a.log2 + k - b.log2 := by omega
  have hdividend : significand a <<< (a.log2 + k - b.log2) = significand b * (r * 2 ^ k) := by
    rw [Nat.shiftLeft_eq, significand, significand, mul_assoc, ← pow_add]
    have hpow : 52 - a.log2 + (a.log2 + k - b.log2) = 52 - b.log2 + k := by omega
    rw [hpow]
    conv_lhs => rw [hab]
    ring
  refine ⟨k, ?_, hkr⟩
  simp only [divCore, hk, hshift, hdividend, Nat.mul_mod_right,
    Nat.mul_div_cancel_left _ (significand_pos hb)]
  rfl

theorem ofInt_div {r : Int} (hb : b ≠ 0) (hr : r ≠ 0) (hab : a = b * r) (ha' : a.natAbs < 2 ^ 53)
    (hb' : b.natAbs < 2 ^ 53) (hr' : r.natAbs < 2 ^ 53) :
    Float.Model.ofInt a / Float.Model.ofInt b = Float.Model.ofInt r := by
  have ha : a ≠ 0 := hab ▸ mul_ne_zero hb hr
  have hdiv : Float.Model.ofInt a / Float.Model.ofInt b = Float.Model.pack
      (UnpackedFloat.div binary64 (Float.Model.ofInt a).unpack (Float.Model.ofInt b).unpack) :=
    rfl
  have hnat : a.natAbs = b.natAbs * r.natAbs := by rw [hab, Int.natAbs_mul]
  obtain ⟨k, hcore, hk⟩ := divCore_exact (Int.natAbs_pos.mpr hb)
    (Int.natAbs_pos.mpr hr) hnat ha' hb'
  have hsign : signOf a / signOf b = signOf r := by
    rw [hab, signOf_mul hb hr]
    cases signOf b <;> cases signOf r <;> rfl
  rw [hdiv, unpack_ofInt ha ha', unpack_ofInt hb hb', ofInt_eq_pack hr hr']
  simp only [unpacked, UnpackedFloat.div, hcore, hsign]
  rw [roundWithAccuracy_exact _ (Int.natAbs_pos.mpr hr) hr' hk]
  rfl

theorem neg_ofInt (hn : n ≠ 0) (hsm : n.natAbs < 2 ^ 53) :
    -Float.Model.ofInt n = Float.Model.ofInt (-n) := by
  have hneg : -Float.Model.ofInt n = Float.Model.pack (Float.Model.ofInt n).unpack.neg := rfl
  have hsm' : (-n).natAbs < 2 ^ 53 := by rwa [Int.natAbs_neg]
  rw [hneg, unpack_ofInt hn hsm, ofInt_eq_pack (neg_ne_zero.mpr hn) hsm']
  simp only [signOf_neg hn, Int.natAbs_neg]
  rfl

/-! ## Results that are zero -/

theorem zero_ne : zero .negative ≠ zero .positive := by decide

theorem ofInt_mul_zero (a : Int) (ha : a.natAbs < 2 ^ 53) :
    Float.Model.ofInt a * Float.Model.ofInt 0 = zero (signOf a) := by
  have hmul : Float.Model.ofInt a * Float.Model.ofInt 0 = Float.Model.pack
      (UnpackedFloat.mul binary64 (Float.Model.ofInt a).unpack (zero .positive).unpack) := rfl
  rw [hmul]
  by_cases h0 : a = 0
  · subst h0
    rfl
  · rw [unpack_ofInt h0 ha]
    cases hsign : signOf a <;> rfl

theorem zero_mul_ofInt (b : Int) (hb : b.natAbs < 2 ^ 53) :
    Float.Model.ofInt 0 * Float.Model.ofInt b = zero (signOf b) := by
  have hmul : Float.Model.ofInt 0 * Float.Model.ofInt b = Float.Model.pack
      (UnpackedFloat.mul binary64 (zero .positive).unpack (Float.Model.ofInt b).unpack) := rfl
  rw [hmul]
  by_cases h0 : b = 0
  · subst h0
    rfl
  · rw [unpack_ofInt h0 hb]
    cases hsign : signOf b <;> rfl

theorem zero_div_ofInt (h0 : b ≠ 0) (hb : b.natAbs < 2 ^ 53) :
    Float.Model.ofInt 0 / Float.Model.ofInt b = zero (signOf b) := by
  have hdiv : Float.Model.ofInt 0 / Float.Model.ofInt b = Float.Model.pack
      (UnpackedFloat.div binary64 (zero .positive).unpack (Float.Model.ofInt b).unpack) := rfl
  rw [hdiv, unpack_zero, unpack_ofInt h0 hb]
  cases hsign : signOf b <;> rfl

end TachyonEngine.Lib.Binary64
