import TachyonEngine.Lib.Fallible
import TachyonEngine.Vm.BigIntMagnitude

/-!
# BigInt arithmetic is exact

A `BigIntValue` denotes an integer (`toInt`), and its canonical form is the only one of that
integer. Each operation on canonical values that returns gives a canonical value, and this value
denotes the operation on the integers.
-/

namespace TachyonEngine.Vm

open Lib Lib.Capacity List

namespace BigIntValue

/-- The integer with a sign and a magnitude. -/
def signed (neg : Bool) (magnitude : Nat) : Int :=
  if neg then -(magnitude : Int) else magnitude

/-- The integer that a value denotes. -/
def toInt (val : BigIntValue) : Int := signed val.negative (limbsValue val.limbs)

/-- The high limb is not zero, and zero has no limbs and no sign. -/
structure Canonical (val : BigIntValue) : Prop where
  limbs : CanonicalLimbs val.limbs
  zero : val.limbs = [] → val.negative = false

instance (val : BigIntValue) : Decidable val.Canonical :=
  decidable_of_iff (CanonicalLimbs val.limbs ∧ (val.limbs = [] → val.negative = false))
    ⟨fun h => ⟨h.1, h.2⟩, fun h => ⟨h.limbs, h.zero⟩⟩

/-- A canonical value that denotes an integer. -/
def Denotes (n : Int) (val : BigIntValue) : Prop := val.Canonical ∧ val.toInt = n

/-- What a computation returns denotes an integer. -/
abbrev Computes (n : Int) (run : Arithmetic BigIntValue) : Prop := Yields (Denotes n) run

/-! ## Signs -/

section

variable (neg : Bool)

theorem signed_zero : signed neg 0 = 0 := by cases neg <;> rfl

theorem signed_add (m n : Nat) : signed neg (m + n) = signed neg m + signed neg n := by
  cases neg <;> simp only [signed, Bool.false_eq_true, if_false, if_true] <;> omega

theorem signed_sub {m n : Nat} (h : n ≤ m) :
    signed neg (m - n) = signed neg m + signed (!neg) n := by
  cases neg <;> simp only [signed, Bool.not_true, Bool.not_false, Bool.false_eq_true, if_false,
    if_true] <;> omega

theorem signed_mul (left right : Bool) (m n : Nat) :
    signed (left != right) (m * n) = signed left m * signed right n := by
  cases left <;> cases right <;> simp [signed]

theorem signed_not (n : Nat) : signed (!neg) n = -signed neg n := by
  cases neg <;> simp [signed]

theorem signed_tdiv (left right : Bool) (m n : Nat) :
    signed (left != right) (m / n) = (signed left m).tdiv (signed right n) := by
  cases left <;> cases right <;> simp [signed, Int.tdiv_neg]

theorem signed_tmod (left right : Bool) (m n : Nat) :
    signed left (m % n) = (signed left m).tmod (signed right n) := by
  have hmod : (m : Int).tmod n = ((m % n : Nat) : Int) := by
    rw [Int.tmod_eq_emod_of_nonneg (Int.natCast_nonneg m), Int.natCast_mod]
  cases left <;> cases right <;> simp [signed, Int.tmod_neg, hmod]

/-! ## Values -/

theorem denotes_fromOwnedLimbs (limbs : List UInt64) :
    Denotes (signed neg (limbsValue limbs)) (fromOwnedLimbs neg limbs) := by
  have hv := limbsValue_trimLimbs limbs
  refine ⟨⟨canonical_trimLimbs limbs, ?_⟩, ?_⟩
  · intro hnil
    simp only [fromOwnedLimbs] at hnil ⊢
    rw [hnil]
    exact Bool.and_false _
  · simp only [toInt, fromOwnedLimbs]
    rw [hv]
    cases hnil : (trimLimbs limbs).isEmpty with
    | false => rw [Bool.not_false, Bool.and_true]
    | true =>
      rw [isEmpty_iff.mp hnil, limbsValue_nil] at hv
      rw [← hv, signed_zero, signed_zero]

end

theorem denotes_fromU64 (word : UInt64) : Denotes word.toNat (fromU64 word) := by
  simp only [fromU64]
  split_ifs with hz
  · rw [hz]
    exact ⟨by decide, rfl⟩
  · refine ⟨⟨?_, nofun⟩, ?_⟩
    · intro hl
      exact hz (Option.some.inj hl)
    · simp [toInt, signed]

variable {val : BigIntValue}

theorem Denotes.negate {n : Int} (h : Denotes n val) : Denotes (-n) val.negate := by
  obtain ⟨hcanon, hv⟩ := h
  simp only [BigIntValue.negate]
  cases hnil : val.limbs.isEmpty with
  | true =>
    rw [if_pos rfl]
    have hz : n = 0 := by
      rw [← hv, toInt, isEmpty_iff.mp hnil, limbsValue_nil, signed_zero]
    exact ⟨hcanon, by rw [hv, hz]; rfl⟩
  | false =>
    refine ⟨⟨hcanon.limbs, ?_⟩, ?_⟩
    · intro hempty
      rw [show val.limbs = [] from hempty] at hnil
      cases hnil
    · rw [← hv]
      exact signed_not _ _

theorem Canonical.isZero_iff (h : val.Canonical) : val.isZero = true ↔ val.toInt = 0 := by
  have hmag : val.toInt = 0 ↔ limbsValue val.limbs = 0 := by
    simp only [toInt, signed]
    split <;> omega
  rw [hmag, h.limbs.value_eq_zero, isZero, List.isEmpty_iff]

theorem Canonical.denotes (h : val.Canonical) : Denotes val.toInt val := ⟨h, rfl⟩

/-! ## Memory -/

theorem yields_reserveLimbs : Yields (fun _ => True) reserveLimbs := by
  intro alloc
  simp only [reserveLimbs]
  split <;> trivial

theorem yields_ensureResultLimbs (length : Nat) :
    Yields (fun _ => True) (ensureResultLimbs length) := by
  simp only [ensureResultLimbs]
  split
  · exact Yields.throw _
  · exact Yields.pure trivial

theorem yields_zeroedLimbs (length : Nat) :
    Yields (fun limbs => limbs = List.replicate length 0) (zeroedLimbs length) :=
  Yields.bind (yields_ensureResultLimbs length) fun _ _ =>
    Yields.bind yields_reserveLimbs fun _ _ => Yields.pure rfl

theorem yields_checkedLength (left right : Nat) :
    Yields (fun length => length = left + right) (checkedLength left right) := by
  simp only [checkedLength]
  split
  · exact Yields.pure rfl
  · exact Yields.throw _

/-! ## Sums and products -/

theorem yields_addMagnitudes (left right : List UInt64) :
    Yields (fun limbs => limbsValue limbs = limbsValue left + limbsValue right)
      (addMagnitudes left right) := by
  refine Yields.bind (yields_checkedLength _ _) fun cap _ => ?_
  refine Yields.bind (yields_ensureResultLimbs cap) fun _ _ => ?_
  refine Yields.bind (yields_zeroedLimbs cap) fun _ _ => Yields.pure ?_
  have hchain := limbsValue_addLimbs (le_max_left left.length right.length)
    (le_max_right left.length right.length) (Nat.zero_le 1)
  have hlen := addLimbs_length (max left.length right.length) left right 0
  have hcarry := addLimbs_carry_le (max left.length right.length) left right (Nat.zero_le 1)
  have hword : (addLimbs (max left.length right.length) left right 0).2 < limbBase := by
    simp only [limbBase]
    omega
  rw [limbsValue_append, hlen, limbsValue_cons, limbsValue_nil, toNat_lowLimb_of_lt hword,
    Nat.mul_zero, add_zero, hchain, add_zero]

variable {left right : List UInt64}

theorem yields_subtractMagnitudes (hlen : right.length ≤ left.length) (hle : limbsValue right ≤
    limbsValue left) :
    Yields (fun limbs => limbsValue limbs = limbsValue left - limbsValue right)
      (subtractMagnitudes left right) :=
  Yields.bind (yields_zeroedLimbs left.length) fun _ _ =>
    Yields.pure (limbsValue_subtractLimbs_of_le hlen hle)

/-- The difference of magnitudes of which the left one is greater. -/
theorem computes_difference (hr : CanonicalLimbs right) (hlt : limbsValue right < limbsValue left)
    (neg : Bool) :
    Computes (signed neg (limbsValue left) + signed (!neg) (limbsValue right)) (do
      let limbs ← subtractMagnitudes left right
      pure (fromOwnedLimbs neg limbs)) := by
  have hlen : right.length ≤ left.length := by
    by_contra hshort
    have hless := hr.value_lt_of_length_lt (not_le.mp hshort)
    exact absurd hlt (lt_asymm hless)
  refine Yields.bind (yields_subtractMagnitudes hlen hlt.le) fun limbs hls => Yields.pure ?_
  rw [← signed_sub neg hlt.le, ← hls]
  exact denotes_fromOwnedLimbs neg limbs

variable {left right : BigIntValue}

theorem computes_add (hleft : left.Canonical) (hright : right.Canonical) :
    Computes (left.toInt + right.toInt) (left.add right) := by
  simp only [add, toInt]
  split_ifs with hsign
  · refine Yields.bind (yields_addMagnitudes _ _) fun limbs hls => Yields.pure ?_
    rw [← hsign, ← signed_add, ← hls]
    exact denotes_fromOwnedLimbs _ limbs
  · have hnot : right.negative = !left.negative := by
      cases hl : left.negative <;> cases hr : right.negative <;> simp_all
    rw [magnitudeCmp_eq hleft.limbs hright.limbs, hnot]
    split
    next hgt =>
      exact computes_difference hright.limbs (Nat.compare_eq_gt.mp hgt) left.negative
    next hlt =>
      have hdifference :=
        computes_difference hleft.limbs (Nat.compare_eq_lt.mp hlt) (!left.negative)
      rw [Bool.not_not, Int.add_comm] at hdifference
      exact hdifference
    next heq =>
      rw [Nat.compare_eq_eq.mp heq, ← signed_sub left.negative (le_refl _), Nat.sub_self,
        signed_zero]
      exact Yields.pure (denotes_fromU64 0)

theorem computes_subtract (hl : left.Canonical) (hr : right.Canonical) :
    Computes (left.toInt - right.toInt) (left.subtract right) := by
  obtain ⟨hcanon, hv⟩ := hr.denotes.negate
  have hsum := computes_add hl hcanon
  rw [hv] at hsum
  exact hsum

theorem computes_multiply (hl : left.Canonical) (hr : right.Canonical) :
    Computes (left.toInt * right.toInt) (left.multiply right) := by
  simp only [multiply]
  split_ifs with hz
  · have hprod : left.toInt * right.toInt = 0 := by
      rcases Bool.or_eq_true_iff.mp hz with h | h
      · rw [hl.isZero_iff.mp h, Int.zero_mul]
      · rw [hr.isZero_iff.mp h, Int.mul_zero]
    rw [hprod]
    exact Yields.pure (denotes_fromU64 0)
  · refine Yields.bind (yields_checkedLength _ _) fun limbCount _ => ?_
    refine Yields.bind (yields_ensureResultLimbs limbCount) fun _ _ => ?_
    refine Yields.bind (yields_zeroedLimbs limbCount) fun limbs hls => Yields.pure ?_
    have hroom : ∀ i, right.limbs.length ≤ i → limbs.getD i 0 = 0 := by
      intro i _
      rw [hls, getD_eq_getElem?_getD, getElem?_replicate]
      split <;> rfl
    have hrows := limbsValue_multiplyRows left.limbs hroom
    rw [hls, limbsValue_replicate_zero, add_zero, ← hls] at hrows
    rw [toInt, toInt, ← signed_mul, ← hrows]
    exact denotes_fromOwnedLimbs _ _

/-! ## Quotients -/

theorem yields_divideMagnitudeByLimb {divisor : UInt64} (hpos : 0 < divisor.toNat)
    (dividend : List UInt64) :
    Yields (fun res => limbsValue res.1 = limbsValue dividend / divisor.toNat ∧
        res.2.toNat = limbsValue dividend % divisor.toNat)
      (divideMagnitudeByLimb dividend divisor) := by
  refine Yields.bind (yields_zeroedLimbs _) fun _ _ => Yields.pure ?_
  obtain ⟨hv, hless⟩ := divideLimbs_spec hpos dividend
  have hword : (divideLimbs divisor dividend).2 < limbBase := lt_trans hless divisor.toNat_lt
  simp only [toNat_lowLimb_of_lt hword]
  rw [hv, Nat.mul_add_div hpos, Nat.mul_add_mod, Nat.div_eq_of_lt hless, Nat.mod_eq_of_lt hless]
  exact ⟨(add_zero _).symm, rfl⟩

theorem yields_divideMagnitudes {divisor : List UInt64} (hdivisor : CanonicalLimbs divisor)
    (hpos : 0 < limbsValue divisor) (dividend : List UInt64) :
    Yields (fun res => limbsValue res.1 = limbsValue dividend / limbsValue divisor ∧
        limbsValue res.2 = limbsValue dividend % limbsValue divisor)
      (divideMagnitudes dividend divisor) := by
  refine Yields.bind (yields_zeroedLimbs _) fun quotient hquot => ?_
  refine Yields.bind (yields_checkedLength _ _) fun _ _ => ?_
  refine Yields.bind yields_reserveLimbs fun _ _ => Yields.pure ?_
  have hdivided := divideBits_spec dividend divisor hdivisor hpos
  rw [hquot]
  exact ⟨by rw [hdivided.quotient, Nat.shiftRight_zero, Nat.shiftLeft_zero],
    by rw [hdivided.residual, Nat.shiftRight_zero]⟩

/-- The quotient or the remainder of two integers, rounded towards zero. -/
def quotientOrRemainder (remainder : Bool) (m n : Int) : Int :=
  if remainder then m.tmod n else m.tdiv n

/-- The sign rules of a division whose magnitudes are known. -/
theorem yields_signedQuotient {quotient residual : List UInt64}
    (hquot : limbsValue quotient = limbsValue left.limbs / limbsValue right.limbs)
    (hresidual : limbsValue residual = limbsValue left.limbs % limbsValue right.limbs)
    (remainder : Bool) :
    Computes (quotientOrRemainder remainder left.toInt right.toInt)
      (if remainder then pure (fromOwnedLimbs left.negative residual)
        else pure (fromOwnedLimbs (left.negative != right.negative) quotient)) := by
  cases remainder with
  | true =>
    simp only [quotientOrRemainder, toInt]
    rw [← signed_tmod, ← hresidual]
    exact Yields.pure (denotes_fromOwnedLimbs _ residual)
  | false =>
    simp only [quotientOrRemainder, toInt, Bool.false_eq_true]
    rw [← signed_tdiv, ← hquot]
    exact Yields.pure (denotes_fromOwnedLimbs _ quotient)

/-- A dividend below the divisor is the remainder. -/
theorem yields_smallDividend (hl : left.Canonical)
    (hless : limbsValue left.limbs < limbsValue right.limbs) (remainder : Bool) :
    Computes (quotientOrRemainder remainder left.toInt right.toInt)
      (if remainder then pure left else pure (fromU64 0)) := by
  cases remainder with
  | true =>
    have hmod : left.toInt.tmod right.toInt = left.toInt := by
      rw [toInt, toInt, ← signed_tmod, Nat.mod_eq_of_lt hless]
    simp only [quotientOrRemainder]
    rw [hmod]
    exact Yields.pure hl.denotes
  | false =>
    have hdiv : left.toInt.tdiv right.toInt = 0 := by
      rw [toInt, toInt, ← signed_tdiv, Nat.div_eq_of_lt hless, signed_zero]
    simp only [quotientOrRemainder]
    rw [hdiv]
    exact Yields.pure (denotes_fromU64 0)

theorem computes_divideOrRemainder (hl : left.Canonical) (hr : right.Canonical)
    (remainder : Bool) : Computes (quotientOrRemainder remainder left.toInt right.toInt)
      (left.divideOrRemainder right remainder) := by
  rw [divideOrRemainder]
  by_cases hz : right.isZero = true
  · rw [if_pos hz]
    exact Yields.throw _
  rw [if_neg hz]
  have hpos : 0 < limbsValue right.limbs := by
    apply pos_of_ne_zero
    intro hv
    exact hz (isEmpty_iff.mpr (hr.limbs.value_eq_zero.mp hv))
  by_cases hdividend : left.isZero = true
  · rw [if_pos hdividend, hl.isZero_iff.mp hdividend]
    have hn : quotientOrRemainder remainder 0 right.toInt = 0 := by
      cases remainder <;> simp [quotientOrRemainder]
    rw [hn]
    exact Yields.pure (denotes_fromU64 0)
  rw [if_neg hdividend, magnitudeCmp_eq hl.limbs hr.limbs]
  by_cases hless : compare (limbsValue left.limbs) (limbsValue right.limbs) = .lt
  · rw [if_pos hless]
    exact yields_smallDividend hl (Nat.compare_eq_lt.mp hless) remainder
  rw [if_neg hless]
  split
  next divisor hdivisor =>
    have hv : limbsValue right.limbs = divisor.toNat := by
      rw [hdivisor, limbsValue_cons, limbsValue_nil, Nat.mul_zero, add_zero]
    refine Yields.bind (yields_divideMagnitudeByLimb (hv ▸ hpos) left.limbs) ?_
    rintro ⟨quotient, residual⟩ ⟨hquot, hresidual⟩
    apply yields_signedQuotient
    · rw [hv]
      exact hquot
    · rw [hv, limbsValue_cons, limbsValue_nil, Nat.mul_zero]
      exact hresidual
  · refine Yields.bind (yields_divideMagnitudes hr.limbs hpos left.limbs) ?_
    rintro ⟨quotient, residual⟩ ⟨hquot, hresidual⟩
    exact yields_signedQuotient hquot hresidual remainder

/-! ## Powers -/

/-- Square and multiply: the powers of the base that are still to be multiplied in. -/
theorem computes_powerLoop {power res : BigIntValue} (hpower : power.Canonical)
    (hres : res.Canonical) (remaining : Nat) :
    Computes (res.toInt * power.toInt ^ remaining) (powerLoop power res remaining) := by
  induction remaining using Nat.strongRecOn generalizing power res with
  | ind remaining ih =>
    rw [powerLoop]
    split
    next hz =>
      rw [hz, pow_zero, mul_one]
      exact Yields.pure hres.denotes
    · have hhalf : remaining >>> 1 = remaining / 2 := Nat.shiftRight_eq_div_pow remaining 1
      have hsmaller : remaining >>> 1 < remaining := by omega
      have hodd : remaining &&& 1 = remaining % 2 := Nat.and_one_is_mod remaining
      -- the loop goes on with the square of the base
      have hn : ∀ taken, Denotes (res.toInt * power.toInt ^ (remaining % 2)) taken →
          Computes (res.toInt * power.toInt ^ remaining) (if remaining >>> 1 ≠ 0 then do
              let power ← power.multiply power
              powerLoop power taken (remaining >>> 1)
            else powerLoop power taken (remaining >>> 1)) := by
        rintro taken ⟨hcanon, htaken⟩
        have hsplit : res.toInt * power.toInt ^ remaining =
            taken.toInt * (power.toInt * power.toInt) ^ (remaining >>> 1) := by
          rw [htaken, hhalf, ← pow_two, ← pow_mul, mul_assoc, ← pow_add, Nat.mod_add_div]
        rw [hsplit]
        split_ifs with hl
        · refine Yields.bind (computes_multiply hpower hpower) fun square hsquare => ?_
          obtain ⟨hsquare, hv⟩ := hsquare
          rw [← hv]
          exact ih _ hsmaller hsquare hcanon
        · have hrest := ih _ hsmaller hpower hcanon
          rw [Decidable.not_not.mp hl, pow_zero] at hrest ⊢
          exact hrest
      rw [hodd]
      rcases Nat.mod_two_eq_zero_or_one remaining with h | h
      · rw [h, pow_zero, mul_one] at hn
        rw [h]
        exact Yields.bind (Yields.pure hres.denotes) hn
      · rw [h, pow_one] at hn
        rw [h]
        exact Yields.bind (computes_multiply hres hpower) hn

theorem yields_asBoundedUsize (hsign : val.negative = false) (maximum : Nat) :
    Yields (fun n => n = val.toInt.toNat) (val.asBoundedUsize maximum) := by
  simp only [asBoundedUsize]
  split
  · exact Yields.throw _
  next n hfits =>
    have hn : n = val.toInt.toNat := by
      simp only [toInt, signed, hsign, asUsizeIfFits] at hfits ⊢
      split at hfits
      next hnil =>
        rw [hnil]
        exact (Option.some.inj hfits).symm
      next limb hlimb =>
        rw [hlimb, ← Option.some.inj hfits]
        simp
      · cases hfits
    split
    · exact Yields.throw _
    · exact Yields.pure hn

/-- The parity of a number is that of its low word. -/
theorem limbsValue_mod_two (limbs : List UInt64) :
    (limbs.headD 0 &&& 1 = 0) ↔ limbsValue limbs % 2 = 0 := by
  rw [← UInt64.toNat_inj, UInt64.toNat_and, UInt64.toNat_one, UInt64.toNat_zero,
    Nat.and_one_is_mod, limbsValue_headD_tail limbs]
  simp only [limbBase]
  omega

theorem computes_exponentiate {base exponent : BigIntValue} (hbase : base.Canonical)
    (hexp : exponent.Canonical) :
    Computes (base.toInt ^ exponent.toInt.toNat) (base.exponentiate exponent) := by
  simp only [exponentiate]
  split
  · exact Yields.throw _
  next hsign =>
    rw [Bool.not_eq_true] at hsign
    have hmag : exponent.toInt.toNat = limbsValue exponent.limbs := by
      simp [toInt, signed, hsign]
    split
    next hz =>
      rw [hexp.isZero_iff.mp hz, Int.toNat_zero, pow_zero]
      exact Yields.pure (denotes_fromU64 1)
    next hpos =>
      have hne : exponent.toInt.toNat ≠ 0 := by
        intro hz
        apply hpos
        rw [hmag] at hz
        exact isEmpty_iff.mpr (hexp.limbs.value_eq_zero.mp hz)
      split
      next hfixed =>
        have hpow : base.toInt ^ exponent.toInt.toNat = base.toInt := by
          rcases Bool.or_eq_true_iff.mp hfixed with h | h
          · rw [hbase.isZero_iff.mp h, zero_pow hne]
          · rw [isOne, Bool.and_eq_true] at h
            have hone : base.toInt = 1 := by
              simp only [Bool.not_eq_eq_eq_not] at h
              rw [toInt, beq_iff_eq.mp h.2, h.1]
              rfl
            rw [hone, one_pow]
        rw [hpow]
        exact Yields.pure hbase.denotes
      · split
        next hminus =>
          rw [Bool.and_eq_true] at hminus
          have hminus' : base.toInt = -1 := by
            rw [toInt, beq_iff_eq.mp hminus.2, hminus.1]
            rfl
          have hparity := limbsValue_mod_two exponent.limbs
          rw [hminus', hmag]
          split
          next heven =>
            have h := Nat.even_iff.mpr (hparity.mp heven)
            rw [h.neg_one_pow]
            exact Yields.pure (denotes_fromU64 1)
          next hodd =>
            have h := Nat.not_even_iff_odd.mp
              (fun heven => hodd (hparity.mpr (Nat.even_iff.mp heven)))
            rw [h.neg_one_pow]
            exact Yields.pure ⟨by decide, rfl⟩
        · refine Yields.bind (yields_asBoundedUsize hsign _) fun n hn => ?_
          rw [← hn]
          split
          · exact Yields.throw _
          · have hloop := computes_powerLoop hbase (denotes_fromU64 1).1 n
            rw [(denotes_fromU64 1).2] at hloop
            simpa using hloop

/-! ## Bits -/

/-- The width of an operation has room for the sign. -/
theorem yields_twosComplement (h : val.Canonical) {width : Nat}
    (hwidth : val.limbs.length < width) :
    Yields (fun limbs => signedValue limbs = val.toInt ∧ limbs.length = width)
      (val.twosComplement width) := by
  refine Yields.bind (yields_zeroedLimbs _) fun _ _ => Yields.pure ?_
  generalize hls : val.limbs ++ replicate (width - val.limbs.length) 0 = limbs
  have hlen : limbs.length = width := by
    rw [← hls, length_append, length_replicate]
    omega
  have hv : limbsValue limbs = limbsValue val.limbs := by
    rw [← hls]
    exact limbsValue_append_zeros _ _
  have hne : limbs ≠ [] := by
    rintro rfl
    exact absurd hwidth (by rw [← hlen]; exact Nat.not_lt_zero _)
  -- the magnitude is below half of the range of the words
  have hhalf : 2 * limbsValue limbs < limbBase ^ width := by
    have hlt := limbsValue_lt val.limbs
    have hpow : limbBase ^ (val.limbs.length + 1) ≤ limbBase ^ width :=
      Nat.pow_le_pow_right (by decide) hwidth
    simp only [limbBase] at hlt hpow ⊢
    omega
  have hrange : limbBase ^ width = 2 * 2 ^ (64 * width - 1) := by
    rw [limbBase_pow, ← pow_succ']
    congr 1
    omega
  cases hsign : val.negative with
  | false =>
    refine ⟨?_, hlen⟩
    have hclear : ¬ (limbsValue limbs).testBit (64 * limbs.length - 1) = true := by
      rw [testBit_last_iff hne, hlen]
      omega
    rw [if_neg Bool.false_ne_true, signedValue, if_neg hclear, toInt, hsign, hv]
    rfl
  | true =>
    have hpos : 0 < limbsValue limbs := by
      rw [hv]
      apply pos_of_ne_zero
      intro hz
      have hnil := h.zero (h.limbs.value_eq_zero.mp hz)
      rw [hsign] at hnil
      cases hnil
    have hnegated := limbsValue_negateLimbs hpos
    have hlen' := negateLimbs_length limbs
    have hne' : negateLimbs limbs ≠ [] := by
      intro hnil
      rw [hnil] at hlen'
      exact hne (eq_nil_of_length_eq_zero hlen'.symm)
    have hset : (limbsValue (negateLimbs limbs)).testBit (64 * (negateLimbs limbs).length - 1) =
        true := by
      rw [testBit_last_iff hne', hlen', hlen]
      rw [hlen] at hnegated
      omega
    rw [if_pos rfl]
    rw [signedValue, if_pos hset, hlen', toInt, hsign, signed, if_pos rfl]
    omega

variable {limbs : List UInt64}

/-- The sign of fixed-width words is their highest bit. -/
theorem any_sign_eq (hne : limbs ≠ []) :
    (limbs.getLast?.any fun limb : UInt64 => limb >>> 63 ≠ 0) =
      (limbsValue limbs).testBit (64 * limbs.length - 1) := by
  have hlen : 0 < limbs.length := length_pos_of_ne_nil hne
  have hdiv : (64 * limbs.length - 1) / 64 = limbs.length - 1 := by omega
  have hmod : (64 * limbs.length - 1) % 64 = 63 := by omega
  have hl : limbs.getD (limbs.length - 1) 0 = limbs.getLast hne := by
    rw [getD_eq_getElem?_getD, ← getLast?_eq_getElem?, getLast?_eq_some_getLast hne]
    rfl
  rw [testBit_limbsValue, hdiv, hmod, hl, getLast?_eq_some_getLast hne, Option.any_some]
  generalize limbs.getLast hne = limb
  have hle := shiftRight_le_one limb
  have hword : (limb >>> 63).toNat = limb.toNat / 2 ^ 63 := by
    rw [UInt64.toNat_shiftRight, Nat.shiftRight_eq_div_pow]
    rfl
  rw [Nat.testBit_eq_decide_div_mod_eq, decide_eq_decide, ne_eq, ← UInt64.toNat_inj,
    UInt64.toNat_zero]
  omega

theorem denotes_fromTwosComplement (hne : limbs ≠ []) :
    Denotes (signedValue limbs) (fromTwosComplement limbs) := by
  simp only [fromTwosComplement, any_sign_eq hne, signedValue]
  cases hset : (limbsValue limbs).testBit (64 * limbs.length - 1) with
  | false =>
    rw [if_neg Bool.false_ne_true]
    exact denotes_fromOwnedLimbs false limbs
  | true =>
    have hpos : 0 < limbsValue limbs :=
      lt_of_lt_of_le (Nat.two_pow_pos _) ((testBit_last_iff hne).mp hset)
    have hnegated := limbsValue_negateLimbs hpos
    have hv : (limbsValue limbs : Int) - (limbBase ^ limbs.length : Nat) =
        signed true (limbsValue (negateLimbs limbs)) := by
      rw [signed, if_pos rfl]
      omega
    rw [if_pos rfl, hv]
    exact denotes_fromOwnedLimbs true _

end BigIntValue

/-- The operation on single bits. -/
def BitwiseOpcode.onBits : BitwiseOpcode → Bool → Bool → Bool
  | .bitwiseAnd => and
  | .bitwiseOr => or
  | .bitwiseXor => xor

/-- The operation on integers, whose bits are those of an infinite two's complement. -/
def BitwiseOpcode.onInts : BitwiseOpcode → Int → Int → Int
  | .bitwiseAnd => Int.land
  | .bitwiseOr => Int.lor
  | .bitwiseXor => Int.xor

section

variable (op : BitwiseOpcode)

theorem BitwiseOpcode.testBit_onInts (m n : Int) (i : Nat) :
    (op.onInts m n).testBit i = op.onBits (m.testBit i) (n.testBit i) := by
  cases op with
  | bitwiseAnd => exact Int.testBit_land m n i
  | bitwiseOr => exact Int.testBit_lor m n i
  | bitwiseXor => exact Int.testBit_lxor m n i

theorem BitwiseOpcode.testBit_onLimbs (left right : UInt64) (i : Nat) :
    (op.onLimbs left right).toNat.testBit i =
      op.onBits (left.toNat.testBit i) (right.toNat.testBit i) := by
  cases op with
  | bitwiseAnd => rw [onLimbs, UInt64.toNat_and, Nat.testBit_and]; rfl
  | bitwiseOr => rw [onLimbs, UInt64.toNat_or, Nat.testBit_or]; rfl
  | bitwiseXor => rw [onLimbs, UInt64.toNat_xor, Nat.testBit_xor]; rfl

variable {left right : List UInt64}

/-- A word at a time is a bit at a time. -/
theorem BitwiseOpcode.testBit_zipWith (hlen : left.length = right.length) {i : Nat} (hi : i / 64 <
    left.length) :
    (limbsValue (List.zipWith op.onLimbs left right)).testBit i =
      op.onBits ((limbsValue left).testBit i) ((limbsValue right).testBit i) := by
  have hi' : i / 64 < right.length := hlen ▸ hi
  simp only [testBit_limbsValue, getD_eq_getElem?_getD, getElem?_zipWith,
    getElem?_eq_getElem hi, getElem?_eq_getElem hi']
  exact op.testBit_onLimbs _ _ _

theorem BitwiseOpcode.signedValue_zipWith (hlen : left.length = right.length) (hne : left ≠ []) :
    signedValue (List.zipWith op.onLimbs left right) =
      op.onInts (signedValue left) (signedValue right) := by
  have hpos : 0 < left.length := length_pos_of_ne_nil hne
  have hzip : (zipWith op.onLimbs left right).length = left.length := by
    rw [length_zipWith, ← hlen, min_self]
  apply int_eq_of_testBit_eq
  intro i
  have hi : min i (64 * left.length - 1) / 64 < left.length := by omega
  rw [op.testBit_onInts, testBit_signedValue, testBit_signedValue, testBit_signedValue,
    hzip, ← hlen, op.testBit_zipWith hlen hi]

end

namespace BigIntValue

theorem computes_bitwise {left right : BigIntValue} (hleft : left.Canonical)
    (hright : right.Canonical) (op : BitwiseOpcode) :
    Computes (op.onInts left.toInt right.toInt) (left.bitwise right op) := by
  refine Yields.bind (yields_checkedLength _ _) fun width hwidth => ?_
  refine Yields.bind (yields_ensureResultLimbs width) fun _ _ => ?_
  refine Yields.bind (yields_twosComplement hleft (by omega)) fun leftLimbs hl => ?_
  refine Yields.bind (yields_twosComplement hright (by omega)) fun rightLimbs hr => ?_
  refine Yields.bind (yields_zeroedLimbs width) fun _ _ => Yields.pure ?_
  have hlen : leftLimbs.length = rightLimbs.length := hl.2.trans hr.2.symm
  have hne : leftLimbs ≠ [] := by
    rintro rfl
    rw [hwidth] at hl
    exact absurd hl.2 nofun
  rw [← hl.1, ← hr.1, ← op.signedValue_zipWith hlen hne]
  apply denotes_fromTwosComplement
  intro hnil
  have hzip : (zipWith op.onLimbs leftLimbs rightLimbs).length = 0 := by rw [hnil]; rfl
  rw [length_zipWith, ← hlen, min_self] at hzip
  exact hne (eq_nil_of_length_eq_zero hzip)

theorem computes_bitwiseNot {val : BigIntValue} (h : val.Canonical) :
    Computes val.toInt.lnot val.bitwiseNot := by
  have hone := denotes_fromU64 1
  refine Yields.bind (computes_add h hone.1) fun sum hsum => Yields.pure ?_
  have hnot : val.toInt.lnot = -(val.toInt + (fromU64 1).toInt) := by
    cases val.toInt with
    | ofNat n => exact Int.negSucc_eq n
    | negSucc n =>
      show (n : Int) = -(Int.negSucc n + 1)
      omega
  rw [hnot]
  exact hsum.negate

/-- Whatever an operation on canonical values returns is canonical and denotes the operation on the
integers: for any allocator, and with a quotient that is truncated towards zero and a remainder that
has the sign of the dividend. -/
theorem arithmetic_exact {left right : BigIntValue} (hl : left.Canonical) (hr : right.Canonical) :
    Computes (left.toInt + right.toInt) (left.add right) ∧
      Computes (left.toInt - right.toInt) (left.subtract right) ∧
      Computes (left.toInt * right.toInt) (left.multiply right) ∧
      Computes (left.toInt.tdiv right.toInt) (left.divideOrRemainder right false) ∧
      Computes (left.toInt.tmod right.toInt) (left.divideOrRemainder right true) ∧
      Computes (left.toInt ^ right.toInt.toNat) (left.exponentiate right) ∧
      (∀ op : BitwiseOpcode, Computes (op.onInts left.toInt right.toInt) (left.bitwise right op)) ∧
      Computes left.toInt.lnot left.bitwiseNot :=
  ⟨computes_add hl hr, computes_subtract hl hr, computes_multiply hl hr,
    computes_divideOrRemainder hl hr false, computes_divideOrRemainder hl hr true,
    computes_exponentiate hl hr, computes_bitwise hl hr, computes_bitwiseNot hl⟩

/-- `-2 ^ 64` and `-3`: a carry, a borrow and a sign cross the words. -/
theorem arithmetic_exact_acrossWords :
    let left : BigIntValue := ⟨true, [0, 1]⟩
    let right : BigIntValue := ⟨true, [3]⟩
    (left.toInt = -2 ^ 64 ∧ right.toInt = -3) ∧
      (left.add right Allocator.granting).map Prod.fst = .ok ⟨true, [3, 1]⟩ ∧
      (left.divideOrRemainder right true Allocator.granting).map Prod.fst = .ok ⟨true, [1]⟩ ∧
      Computes (-2 ^ 64 + -3) (left.add right) ∧
      Computes ((-2 ^ 64 : Int).tmod (-3)) (left.divideOrRemainder right true) := by
  intro left right
  have hexact := arithmetic_exact (by decide : left.Canonical) (by decide : right.Canonical)
  exact ⟨by decide, by decide, by decide, hexact.1, hexact.2.2.2.2.1⟩

end BigIntValue

end TachyonEngine.Vm
