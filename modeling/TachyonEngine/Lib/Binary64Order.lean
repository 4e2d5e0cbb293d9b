import TachyonEngine.Lib.Binary64

/-!
# Comparing doubles and truncating them

Two doubles compare as equal if they are the same number or zeros of any signs. Doubles of natural
numbers of at most 53 bits compare as the numbers do, and truncation gives the numbers back.
-/

namespace TachyonEngine.Lib.Binary64

open Float.Model Float.Model.UnpackedFloat

/-! ## Equality -/

theorem compare_sign (first second : Sign) : compare first second = .eq ↔ first = second := by
  constructor
  · intro h
    cases first with
    | negative => cases second with
      | negative => rfl
      | positive => cases h
    | positive => cases second with
      | negative => cases h
      | positive => rfl
  · rintro rfl
    cases first with
    | negative | positive => rfl

/-- What `==` of two doubles says. -/
theorem beq_iff (first second : UnpackedFloat) : first.beq second = true ↔
    (first = second ∧ first ≠ .notANumber) ∨
      ∃ sign sign', first = .zero sign ∧ second = .zero sign' := by
  have hsome : ∀ {left right : Ordering}, (some left == some right) = true ↔ left = right := by
    intro left right
    rw [beq_iff_eq, Option.some_inj]
  cases first with
  | notANumber => simp [UnpackedFloat.beq, UnpackedFloat.compare]
  | zero sign =>
    cases second with
    | notANumber | zero sign' => simp [UnpackedFloat.beq, UnpackedFloat.compare]
    | infinity sign' | finite sign' m e hm =>
      cases sign' <;> simp [UnpackedFloat.beq, UnpackedFloat.compare]
  | infinity sign =>
    cases second with
    | notANumber | zero sign' | finite sign' m e hm =>
      cases sign <;> simp [UnpackedFloat.beq, UnpackedFloat.compare]
    | infinity sign' =>
      simp only [UnpackedFloat.beq, UnpackedFloat.compare, hsome, compare_sign]
      simp
  | finite sign m e hm =>
    cases second with
    | notANumber => simp [UnpackedFloat.beq, UnpackedFloat.compare]
    | zero sign' => cases sign <;> simp [UnpackedFloat.beq, UnpackedFloat.compare]
    | infinity sign' => cases sign' <;> simp [UnpackedFloat.beq, UnpackedFloat.compare]
    | finite sign' m' e' hm' =>
      cases sign with
      | negative =>
        cases sign' with
        | negative =>
          simp only [UnpackedFloat.beq, UnpackedFloat.compare, hsome]
          simp [and_comm]
        | positive => simp [UnpackedFloat.beq, UnpackedFloat.compare]
      | positive =>
        cases sign' with
        | negative => simp [UnpackedFloat.beq, UnpackedFloat.compare]
        | positive =>
          simp only [UnpackedFloat.beq, UnpackedFloat.compare, hsome]
          simp [and_comm]

/-! ## Natural numbers -/

variable {n : Nat}

theorem unpack_ofNat (hn : 0 < n) (hsm : n < 2 ^ 53) :
    (Float.Model.ofInt n).unpack = unpacked .positive n hn := by
  have hne : (n : Int) ≠ 0 := by omega
  have hunpack := unpack_ofInt (n := (n : Int)) hne (by simpa using hsm)
  exact hunpack

theorem unpack_ofInt_zero : (Float.Model.ofInt 0).unpack = .zero .positive := by
  rw [ofInt_zero, unpack_zero]

variable {a b : Nat}

/-- The order of the significands and exponents is the order of the numbers. -/
theorem compare_unpacked (ha : 0 < a) (hb : 0 < b) :
    (compare ((a.log2 : Int) - 52) ((b.log2 : Int) - 52)).then
      (compare (significand a) (significand b)) = .lt ↔ a < b := by
  rw [Ordering.then_eq_lt, compare_lt_iff_lt, compare_eq_iff_eq, compare_lt_iff_lt]
  constructor
  · rintro (hlog | ⟨hlog, hsig⟩)
    · have hlow : 2 ^ b.log2 ≤ b := Nat.log2_self_le (ne_of_gt hb)
      have hhigh : a < 2 ^ b.log2 := (Nat.log2_lt (ne_of_gt ha)).mp (by omega)
      omega
    · have hs : a.log2 = b.log2 := by omega
      rw [significand, hs] at hsig
      exact Nat.lt_of_mul_lt_mul_right hsig
  · intro hlt
    have hmono : a.log2 ≤ b.log2 := by
      by_contra hmore
      have hlow : 2 ^ a.log2 ≤ a := Nat.log2_self_le (ne_of_gt ha)
      have hhigh : b < 2 ^ a.log2 := (Nat.log2_lt (ne_of_gt hb)).mp (by omega)
      omega
    rcases lt_or_eq_of_le hmono with hlog | hlog
    · exact .inl (by omega)
    · refine .inr ⟨by omega, ?_⟩
      rw [significand, hlog]
      exact mul_lt_mul_of_pos_right hlt (by positivity)

theorem lt_ofNat (ha : a < 2 ^ 53) (hb : b < 2 ^ 53) :
    (Float.Model.ofInt a).lt (Float.Model.ofInt b) = true ↔ a < b := by
  simp only [Float.Model.lt, UnpackedFloat.lt, beq_iff_eq]
  rcases eq_zero_or_pos a with rfl | ha0
  · rcases eq_zero_or_pos b with rfl | hb0
    · simp [unpack_ofInt_zero, UnpackedFloat.compare]
    · simp [unpack_ofInt_zero, unpack_ofNat hb0 hb, unpacked, UnpackedFloat.compare, hb0]
  · rcases eq_zero_or_pos b with rfl | hb0
    · simp [unpack_ofInt_zero, unpack_ofNat ha0 ha, unpacked, UnpackedFloat.compare]
    · rw [unpack_ofNat ha0 ha, unpack_ofNat hb0 hb]
      simp only [unpacked, UnpackedFloat.compare, Option.some_inj]
      exact compare_unpacked ha0 hb0

/-- Truncation gives a number back. -/
theorem toInt_ofNat (hsm : n < 2 ^ 53) (low high : Int) :
    (Float.Model.ofInt n).unpack.toInt low high = n := by
  rcases eq_zero_or_pos n with rfl | hn
  · rw [Nat.cast_zero, unpack_ofInt_zero]
    rfl
  · have hlog : n.log2 < 53 := (Nat.log2_lt (ne_of_gt hn)).mpr hsm
    have hkeep : ((n.log2 : Int) - 52).toNat = 0 := by omega
    have hshift : (0 - ((n.log2 : Int) - 52 - (0 : Nat))).toNat = 52 - n.log2 := by omega
    rw [unpack_ofNat hn hsm]
    simp only [unpacked, UnpackedFloat.toInt, roundToInt, decreaseExponent, sub_zero, hkeep,
      shiftToExponent, Nat.shiftLeft_zero, hshift, ExtendedMantissa.ofMantissaAndAccuracy,
      significand, shiftRight_exact]
    rfl

theorem toUInt32_ofNat (h : n < 2 ^ 32) : (Float.Model.ofInt n).toUInt32.toNat = n := by
  simp only [Float.Model.toUInt32, UnpackedFloat.toUInt32]
  have hsize : n < UInt32.size := h
  rw [toInt_ofNat (by omega), Int.toNat_natCast, UInt32.ofNatClamp, dif_pos hsize]
  rfl

theorem toUInt64_ofNat (h : n < 2 ^ 53) : (Float.Model.ofInt n).toUInt64.toNat = n := by
  simp only [Float.Model.toUInt64, UnpackedFloat.toUInt64]
  have hsize : n < UInt64.size := lt_trans h (by decide)
  rw [toInt_ofNat h, Int.toNat_natCast, UInt64.ofNatClamp, dif_pos hsize]
  rfl

end TachyonEngine.Lib.Binary64
