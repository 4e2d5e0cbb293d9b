import TachyonEngine.Vm.BigIntArithmetic

/-!
# BigInt shifts

A shift count is a BigInt, and a negative one reverses the direction. A left shift moves whole words
and then bits of words, which is a product with a power of two. A right shift drops words and bits
of the magnitude, and rounds a negative value towards minus infinity with one addition behind it.
-/

namespace TachyonEngine.Vm

open Lib Lib.Capacity

/-! ## The operations -/

/-- The loop of a left shift by less than a word: every word leaves its high bits to the next
one. -/
def shiftLeftLimbs (bitShift : Nat) : List UInt64 → UInt64 → List UInt64
  | [], carry => if bitShift ≠ 0 then [carry] else []
  | limb :: rest, carry =>
    (carry ||| limb <<< UInt64.ofNat bitShift) ::
      shiftLeftLimbs bitShift rest
        (if bitShift ≠ 0 then limb >>> UInt64.ofNat (64 - bitShift) else 0)

/-- The loop of a right shift by less than a word: every word takes the low bits of the next one. -/
def shiftRightLimbs (bitShift : Nat) : List UInt64 → List UInt64
  | [] => []
  | limb :: rest =>
    (if bitShift ≠ 0 then
        limb >>> UInt64.ofNat bitShift ||| rest.headD 0 <<< UInt64.ofNat (64 - bitShift)
      else limb >>> UInt64.ofNat bitShift) ::
      shiftRightLimbs bitShift rest

/-- Whether a right shift rounds a negative value. -/
def discardedBitsNonzero (limbs : List UInt64) (shift : Nat) : Bool :=
  let wholeLimbs := shift / 64
  if (limbs.take wholeLimbs).any (· ≠ 0) then true
  else
    let part := shift % 64
    part ≠ 0 && (limbs[wholeLimbs]?).any fun limb => limb &&& ((1 <<< UInt64.ofNat part) - 1) ≠ 0

namespace BigIntValue

/-- A machine integer, of which the magnitude fits in a word. -/
def fromI64 (val : Int) : BigIntValue :=
  { fromU64 (UInt64.ofNat val.natAbs) with negative := decide (val < 0) }

def shiftLeftMagnitude (val : BigIntValue) (shift : Nat) : Arithmetic BigIntValue := do
  let resultBits ← checkedLength val.bitLength shift
  if maxResultBits < resultBits then throw .resultTooLarge
  else do
    let wordShift := shift / 64
    let bitShift := shift % 64
    let words ← checkedLength val.limbs.length wordShift
    let limbCount ← checkedLength words (if bitShift ≠ 0 then 1 else 0)
    let _ ← zeroedLimbs limbCount
    pure (fromOwnedLimbs val.negative
      (List.replicate wordShift 0 ++ shiftLeftLimbs bitShift val.limbs 0))

def shiftRightArithmetic (val : BigIntValue) (shift : Nat) : Arithmetic BigIntValue :=
  if val.bitLength ≤ shift then pure (fromI64 (if val.negative then -1 else 0))
  else do
    let wordShift := shift / 64
    let bitShift := shift % 64
    let _ ← zeroedLimbs (val.limbs.length - wordShift)
    let limbs := shiftRightLimbs bitShift (val.limbs.drop wordShift)
    pure (fromOwnedLimbs val.negative
      (if val.negative && discardedBitsNonzero val.limbs shift then addOneInPlace limbs else limbs))

/-- A shift by a signed count, of which the sign reverses the direction. -/
def shift (val count : BigIntValue) (left : Bool) : Arithmetic BigIntValue :=
  if val.isZero || count.isZero then pure val
  else if left != count.negative then do
    let shift ← count.asBoundedUsize maxResultBits
    val.shiftLeftMagnitude shift
  else
    match count.asUsizeIfFits with
    | none => pure (fromI64 (if val.negative then -1 else 0))
    | some shift => val.shiftRightArithmetic shift

end BigIntValue

/-! ## Words -/

variable {bitShift : Nat}

/-- The bits that a word keeps, and those it leaves to the next word. -/
theorem toNat_shiftLeft_carry (hbit : bitShift < 64) {carry limb : UInt64} (hcarry : carry.toNat < 2
    ^ bitShift) :
    (carry ||| limb <<< UInt64.ofNat bitShift).toNat +
        limbBase * (if bitShift ≠ 0 then limb >>> UInt64.ofNat (64 - bitShift) else 0).toNat =
      limb.toNat * 2 ^ bitShift + carry.toNat := by
  have hmod : bitShift % 2 ^ 64 % 64 = bitShift := by omega
  have hlimb := limb.toNat_lt
  have hsplit : 2 ^ 64 = 2 ^ (64 - bitShift) * 2 ^ bitShift := by
    rw [← pow_add]
    congr 1
    omega
  -- what stays in the word is a multiple of the power, above the carry
  have hkeep : limb.toNat * 2 ^ bitShift % 2 ^ 64 = limb.toNat % 2 ^
      (64 - bitShift) * 2 ^ bitShift := by
    rw [hsplit, Nat.mul_mod_mul_right]
  have hword : (carry ||| limb <<< UInt64.ofNat bitShift).toNat =
      limb.toNat % 2 ^ (64 - bitShift) * 2 ^ bitShift + carry.toNat := by
    rw [UInt64.toNat_or, UInt64.toNat_shiftLeft, UInt64.toNat_ofNat', hmod, Nat.shiftLeft_eq, hkeep,
      ← Nat.shiftLeft_eq, Nat.or_comm, Nat.shiftLeft_add_eq_or_of_lt hcarry]
  have hn : (if bitShift ≠ 0 then limb >>> UInt64.ofNat (64 - bitShift) else 0).toNat =
      limb.toNat / 2 ^ (64 - bitShift) := by
    split_ifs with hz
    · have hmod' : (64 - bitShift) % 2 ^ 64 % 64 = 64 - bitShift := by omega
      rw [UInt64.toNat_shiftRight, UInt64.toNat_ofNat', hmod', Nat.shiftRight_eq_div_pow]
    · rw [Decidable.not_not.mp hz, UInt64.toNat_zero, Nat.div_eq_of_lt hlimb]
  rw [hword, hn, limbBase, hsplit, Nat.add_right_comm,
    show 2 ^ (64 - bitShift) * 2 ^ bitShift * (limb.toNat / 2 ^ (64 - bitShift)) =
      2 ^ (64 - bitShift) * (limb.toNat / 2 ^ (64 - bitShift)) * 2 ^ bitShift by ring,
    ← add_mul, Nat.mod_add_div]

theorem limbsValue_shiftLeftLimbs {bitShift : Nat} (hbit : bitShift < 64) (limbs : List UInt64)
    {carry : UInt64} (hcarry : carry.toNat < 2 ^ bitShift) :
    limbsValue (shiftLeftLimbs bitShift limbs carry) =
      limbsValue limbs * 2 ^ bitShift + carry.toNat := by
  induction limbs generalizing carry with
  | nil =>
    simp only [shiftLeftLimbs]
    split_ifs with hz
    · simp
    · rw [Decidable.not_not.mp hz] at hcarry
      simpa using (Nat.lt_one_iff.mp hcarry).symm
  | cons limb rest ih =>
    have hword := @toNat_shiftLeft_carry bitShift hbit carry limb hcarry
    have hn : (if bitShift ≠ 0 then limb >>> UInt64.ofNat (64 - bitShift) else 0).toNat <
        2 ^ bitShift := by
      split
      · have hmod : (64 - bitShift) % 2 ^ 64 % 64 = 64 - bitShift := by omega
        rw [UInt64.toNat_shiftRight, UInt64.toNat_ofNat', hmod, Nat.shiftRight_eq_div_pow,
          Nat.div_lt_iff_lt_mul (Nat.two_pow_pos _), ← pow_add]
        exact lt_of_lt_of_le limb.toNat_lt (Nat.pow_le_pow_right (by decide) (by omega))
      · exact Nat.two_pow_pos _
    simp only [shiftLeftLimbs, limbsValue_cons]
    rw [ih hn, mul_add, ← add_assoc, Nat.add_right_comm, hword]
    ring

/-- The bits that a word keeps, with those it takes from the word above. -/
theorem toNat_shiftRight_next (hbit : bitShift < 64) (limb next : UInt64) :
    (if bitShift ≠ 0 then limb >>> UInt64.ofNat bitShift ||| next <<< UInt64.ofNat (64 - bitShift)
      else limb >>> UInt64.ofNat bitShift).toNat =
      limb.toNat / 2 ^ bitShift + next.toNat % 2 ^ bitShift * 2 ^ (64 - bitShift) := by
  have hmod : bitShift % 2 ^ 64 % 64 = bitShift := by omega
  have hlimb := limb.toNat_lt
  split_ifs with hz
  · have hmod' : (64 - bitShift) % 2 ^ 64 % 64 = 64 - bitShift := by omega
    have hsplit : 2 ^ 64 = 2 ^ bitShift * 2 ^ (64 - bitShift) := by
      rw [← pow_add]
      congr 1
      omega
    have hlow : limb.toNat / 2 ^ bitShift < 2 ^ (64 - bitShift) := by
      rw [Nat.div_lt_iff_lt_mul (Nat.two_pow_pos _), mul_comm, ← hsplit]
      exact hlimb
    rw [UInt64.toNat_or, UInt64.toNat_shiftLeft, UInt64.toNat_shiftRight, UInt64.toNat_ofNat',
      UInt64.toNat_ofNat', hmod, hmod', Nat.shiftLeft_eq, hsplit, Nat.mul_mod_mul_right,
      Nat.shiftRight_eq_div_pow, Nat.or_comm, ← Nat.shiftLeft_eq,
      ← Nat.shiftLeft_add_eq_or_of_lt hlow, add_comm]
  · rw [Decidable.not_not.mp hz]
    simp [Nat.mod_one]

theorem limbsValue_shiftRightLimbs (hbit : bitShift < 64) (limbs : List UInt64) :
    limbsValue (shiftRightLimbs bitShift limbs) = limbsValue limbs / 2 ^ bitShift := by
  induction limbs with
  | nil => simp [shiftRightLimbs]
  | cons limb rest ih =>
    have hsplit : limbBase = 2 ^ bitShift * 2 ^ (64 - bitShift) := by
      rw [limbBase, ← pow_add]
      congr 1
      omega
    have hhead : (rest.headD 0).toNat % 2 ^ bitShift = limbsValue rest % 2 ^ bitShift := by
      rw [limbsValue_headD_tail rest, hsplit, mul_assoc, Nat.add_mul_mod_self_left]
    have hword : limbsValue rest % 2 ^ bitShift * 2 ^ (64 - bitShift) +
        limbBase * (limbsValue rest / 2 ^ bitShift) = 2 ^ (64 - bitShift) * limbsValue rest := by
      have hdecompose := Nat.mod_add_div (limbsValue rest) (2 ^ bitShift)
      calc limbsValue rest % 2 ^ bitShift * 2 ^ (64 - bitShift) +
            limbBase * (limbsValue rest / 2 ^ bitShift)
          = 2 ^ (64 - bitShift) *
              (limbsValue rest % 2 ^ bitShift + 2 ^ bitShift *
                (limbsValue rest / 2 ^ bitShift)) := by
            rw [hsplit]
            ring
        _ = 2 ^ (64 - bitShift) * limbsValue rest := by rw [hdecompose]
    simp only [shiftRightLimbs, limbsValue_cons]
    rw [toNat_shiftRight_next hbit, ih, hhead, add_assoc, hword, hsplit, mul_assoc,
      Nat.add_mul_div_left _ _ (Nat.two_pow_pos _)]

theorem shiftRightLimbs_length (bitShift : Nat) (limbs : List UInt64) :
    (shiftRightLimbs bitShift limbs).length = limbs.length := by
  induction limbs with
  | nil => rfl
  | cons limb rest ih => simp only [shiftRightLimbs, List.length_cons, ih]

theorem limbsValue_drop (limbs : List UInt64) (cnt : Nat) :
    limbsValue (limbs.drop cnt) = limbsValue limbs / limbBase ^ cnt := by
  induction cnt generalizing limbs with
  | zero => simp
  | succ cnt ih =>
    have hlow := (limbs.headD 0).toNat_lt
    have htail : limbsValue limbs / limbBase = limbsValue limbs.tail := by
      rw [limbsValue_headD_tail limbs, Nat.add_mul_div_left _ _ (by decide),
        Nat.div_eq_of_lt hlow, zero_add]
    rw [← List.drop_tail, ih, ← htail, Nat.div_div_eq_div_mul, ← pow_succ']

theorem limbsValue_take (limbs : List UInt64) (cnt : Nat) :
    limbsValue (limbs.take cnt) = limbsValue limbs % limbBase ^ cnt := by
  have hsplit := limbsValue_append (limbs.take cnt) (limbs.drop cnt)
  rw [List.take_append_drop, limbsValue_drop] at hsplit
  rcases lt_or_ge limbs.length cnt with hlt | hle
  · have hless := limbsValue_lt limbs
    have hpow : limbBase ^ limbs.length ≤ limbBase ^ cnt := Nat.pow_le_pow_right (by decide) hlt.le
    rw [List.take_of_length_le hlt.le, Nat.mod_eq_of_lt (lt_of_lt_of_le hless hpow)]
  · rw [List.length_take_of_le hle] at hsplit
    have hdecompose := Nat.mod_add_div (limbsValue limbs) (limbBase ^ cnt)
    omega

theorem limbsValue_eq_zero_iff (limbs : List UInt64) :
    limbsValue limbs = 0 ↔ ∀ limb ∈ limbs, limb = 0 := by
  induction limbs with
  | nil => simp
  | cons limb rest ih =>
    have hword : limb.toNat = 0 ↔ limb = 0 := by rw [← UInt64.toNat_inj, UInt64.toNat_zero]
    have hbase : 0 < limbBase := by decide
    rw [limbsValue_cons, List.forall_mem_cons, ← ih, ← hword, Nat.add_eq_zero_iff, mul_eq_zero]
    omega

/-- The low bits of a word. -/
theorem and_mask_eq_zero {part : Nat} (hpart : part < 64) (limb : UInt64) :
    limb &&& ((1 <<< UInt64.ofNat part) - 1) = 0 ↔ limb.toNat % 2 ^ part = 0 := by
  have hmod : part % 2 ^ 64 % 64 = part := by omega
  have hpow : 2 ^ part < 2 ^ 64 := Nat.pow_lt_pow_right (by decide) hpart
  have hone : ((1 : UInt64) <<< UInt64.ofNat part).toNat = 2 ^ part := by
    rw [UInt64.toNat_shiftLeft, UInt64.toNat_ofNat', hmod, UInt64.toNat_one, Nat.one_shiftLeft,
      Nat.mod_eq_of_lt hpow]
  have hmask : ((1 <<< UInt64.ofNat part) - 1 : UInt64).toNat = 2 ^ part - 1 := by
    rw [UInt64.toNat_sub_of_le _ _ ?_, hone, UInt64.toNat_one]
    rw [UInt64.le_iff_toNat_le, hone]
    exact Nat.two_pow_pos part
  rw [← UInt64.toNat_inj, UInt64.toNat_and, hmask, Nat.and_two_pow_sub_one_eq_mod,
    UInt64.toNat_zero]

/-- A right shift rounds a negative value when it drops a bit that is set. -/
theorem discardedBitsNonzero_iff (limbs : List UInt64) (shift : Nat) :
    discardedBitsNonzero limbs shift = true ↔ limbsValue limbs % 2 ^ shift ≠ 0 := by
  have hpart : shift % 64 < 64 := Nat.mod_lt _ (by decide)
  have hpow : 2 ^ shift = limbBase ^ (shift / 64) * 2 ^ (shift % 64) := by
    rw [limbBase_pow, ← pow_add, Nat.div_add_mod]
  have hwhole : (limbs.take (shift / 64)).any (· ≠ 0) = true ↔
      limbsValue limbs % limbBase ^ (shift / 64) ≠ 0 := by
    rw [← limbsValue_take, Ne, limbsValue_eq_zero_iff]
    simp
  have hrest : (limbs[shift / 64]?).any (fun limb => limb &&& ((1 <<< UInt64.ofNat (shift % 64))
    - 1) ≠ 0)
      = true ↔ limbsValue limbs / limbBase ^ (shift / 64) % 2 ^ (shift % 64) ≠ 0 := by
    rw [← limbsValue_drop, ← List.head?_drop]
    cases limbs.drop (shift / 64) with
    | nil => simp
    | cons limb higher =>
      have hsplit : limbBase = 2 ^ (shift % 64) * 2 ^ (64 - shift % 64) := by
        rw [limbBase, ← pow_add]
        congr 1
        omega
      rw [List.head?_cons, Option.any_some, decide_eq_true_iff, Ne, and_mask_eq_zero hpart,
        limbsValue_cons, hsplit, mul_assoc, Nat.add_mul_mod_self_left]
  have hbase : 0 < limbBase ^ (shift / 64) := Nat.pow_pos (by decide)
  have hmod : limbsValue limbs % 2 ^ shift ≠ 0 ↔ limbsValue limbs % limbBase ^ (shift / 64) ≠ 0 ∨
      limbsValue limbs / limbBase ^ (shift / 64) % 2 ^ (shift % 64) ≠ 0 := by
    rw [hpow, Nat.mod_mul, Ne, Nat.add_eq_zero_iff, mul_eq_zero]
    omega
  rw [hmod, discardedBitsNonzero]
  split
  · next h => exact iff_of_true rfl (.inl (hwhole.mp h))
  next h =>
    have hn : shift % 64 = 0 → ¬ limbsValue limbs / limbBase ^ (shift / 64) % 2 ^
        (shift % 64) ≠ 0 := by
      intro hz hne
      rw [hz, pow_zero, Nat.mod_one] at hne
      exact hne rfl
    rw [Bool.and_eq_true, hrest, decide_eq_true_eq]
    constructor
    · exact fun hrounds => .inr hrounds.2
    · rintro (hlow | hpartial)
      · exact absurd (hwhole.mpr hlow) h
      · exact ⟨fun hz => hn hz hpartial, hpartial⟩

/-! ## Values -/

namespace BigIntValue

theorem denotes_fromI64 {val : Int} (hv : val.natAbs < 2 ^ 64) : Denotes val (fromI64 val) := by
  obtain ⟨hcanon, hmag⟩ := denotes_fromU64 (UInt64.ofNat val.natAbs)
  have hword : (UInt64.ofNat val.natAbs).toNat = val.natAbs := by
    rw [UInt64.toNat_ofNat', Nat.mod_eq_of_lt hv]
  have hls : limbsValue (fromU64 (UInt64.ofNat val.natAbs)).limbs = val.natAbs := by
    have hplain : (fromU64 (UInt64.ofNat val.natAbs)).negative = false := by
      rw [fromU64]
      split
      · rfl
      · rfl
    rw [toInt, hplain, hword] at hmag
    exact Int.ofNat.inj hmag
  refine ⟨⟨hcanon.limbs, ?_⟩, ?_⟩
  · intro hnil
    rw [fromI64] at hnil ⊢
    have hz := hcanon.limbs.value_eq_zero.mpr hnil
    exact decide_eq_false (by omega)
  · rw [toInt, fromI64, signed]
    simp only [decide_eq_true_eq]
    split
    · omega
    · omega

theorem computes_shiftLeftMagnitude (val : BigIntValue) (shift : Nat) :
    Computes (val.toInt * 2 ^ shift) (val.shiftLeftMagnitude shift) := by
  refine Yields.bind (yields_checkedLength _ _) fun resultBits _ => ?_
  split
  · exact Yields.throw _
  · refine Yields.bind (yields_checkedLength _ _) fun words _ => ?_
    refine Yields.bind (yields_checkedLength _ _) fun limbCount _ => ?_
    refine Yields.bind (yields_zeroedLimbs _) fun _ _ => Yields.pure ?_
    have hbit : shift % 64 < 64 := Nat.mod_lt _ (by decide)
    have hcarry : (0 : UInt64).toNat < 2 ^ (shift % 64) := Nat.two_pow_pos _
    have hmag : limbsValue (List.replicate (shift / 64) 0 ++ shiftLeftLimbs (shift % 64)
      val.limbs 0) =
        limbsValue val.limbs * 2 ^ shift := by
      rw [limbsValue_append, limbsValue_replicate_zero, List.length_replicate, zero_add,
        limbsValue_shiftLeftLimbs hbit _ hcarry, UInt64.toNat_zero, add_zero, limbBase_pow,
        mul_left_comm, ← pow_add, Nat.div_add_mod]
    have hsigned : val.toInt * 2 ^ shift = signed val.negative
        (limbsValue val.limbs * 2 ^ shift) := by
      rw [toInt]
      cases val.negative with
      | false | true => simp [signed]
    rw [hsigned, ← hmag]
    exact denotes_fromOwnedLimbs _ _

/-- A negative magnitude that is shifted to the right is rounded up when a bit is dropped. -/
theorem signed_ediv (neg : Bool) (m shift : Nat) :
    signed neg m / 2 ^ shift =
      signed neg (m / 2 ^ shift + if neg ∧ m % 2 ^ shift ≠ 0 then 1 else 0) := by
  have hpow : (0 : Int) < 2 ^ shift := by positivity
  cases neg with
  | false => simp [signed]
  | true =>
    have hdecompose := Nat.mod_add_div m (2 ^ shift)
    have hlt := Nat.mod_lt m (Nat.two_pow_pos shift)
    generalize m % 2 ^ shift = low at hdecompose hlt ⊢
    generalize m / 2 ^ shift = high at hdecompose ⊢
    have hcast : (m : Int) = low + 2 ^ shift * high := by
      rw [← hdecompose]
      rfl
    have hlow : (low : Int) < 2 ^ shift := by exact_mod_cast hlt
    simp only [signed, true_and, if_true, hcast]
    split_ifs with hz
    · have hshape : -((low : Int) + 2 ^ shift * high) =
          (2 ^ shift - low) + 2 ^ shift * (-(high : Int) - 1) := by ring
      rw [hshape, Int.add_mul_ediv_left _ _ hpow.ne', Int.ediv_eq_zero_of_lt (by omega) (by omega)]
      push_cast
      ring
    · rw [Decidable.not_not.mp hz]
      have hshape : -(((0 : Nat) : Int) + 2 ^ shift * high) = 2 ^ shift * -(high : Int) := by
        ring
      rw [hshape, Int.mul_ediv_cancel_left _ hpow.ne']
      rfl

variable {val : BigIntValue} {shift : Nat}

/-- A right shift that drops every bit leaves the sign. -/
theorem computes_dropped (h : val.Canonical) (hless : limbsValue val.limbs < 2 ^ shift) :
    Computes (val.toInt / 2 ^ shift) (pure (fromI64 (if val.negative then -1 else 0))) := by
  rw [toInt, signed_ediv, Nat.div_eq_of_lt hless, Nat.mod_eq_of_lt hless]
  cases hsign : val.negative with
  | false => exact Yields.pure ⟨by decide, rfl⟩
  | true =>
    have hne : limbsValue val.limbs ≠ 0 := by
      intro hz
      have hplain := h.zero (h.limbs.value_eq_zero.mp hz)
      rw [hsign] at hplain
      cases hplain
    rw [if_pos ⟨rfl, hne⟩]
    exact Yields.pure ⟨by decide, rfl⟩

/-- A negative value is rounded by a right shift whose retained words are all ones: the addition has
no word for its carry. The number of the retained words is one that the limit on results admits. -/
structure LosesCarry (val : BigIntValue) (shift : Nat) : Prop where
  negative : val.negative = true
  aligned : shift % 64 = 0
  short : shift / 64 < val.limbs.length
  dropped : ∃ limb ∈ val.limbs.take (shift / 64), limb ≠ 0
  retained : ∀ limb ∈ val.limbs.drop (shift / 64), limb.toNat = limbBase - 1
  admitted : val.limbs.length - shift / 64 ≤ (maxResultBits + 63) / 64

/-- The words that a right shift retains. -/
theorem limbsValue_retained (val : BigIntValue) (shift : Nat) :
    limbsValue (shiftRightLimbs (shift % 64) (val.limbs.drop (shift / 64))) =
      limbsValue val.limbs / 2 ^ shift := by
  have hbit : shift % 64 < 64 := Nat.mod_lt _ (by decide)
  rw [limbsValue_shiftRightLimbs hbit, limbsValue_drop, Nat.div_div_eq_div_mul, limbBase_pow,
    ← pow_add, Nat.div_add_mod]

theorem retained_length (val : BigIntValue) (shift : Nat) :
    (shiftRightLimbs (shift % 64) (val.limbs.drop (shift / 64))).length =
      val.limbs.length - shift / 64 := by
  rw [shiftRightLimbs_length, List.length_drop]

/-- Only a shift by whole words can retain a magnitude that has no room for an addition. -/
theorem aligned_of_full (hshort : shift / 64 < val.limbs.length) (hfull : limbsValue val.limbs / 2 ^
    shift + 1 = limbBase ^ (val.limbs.length - shift / 64)) : shift % 64 = 0 := by
  by_contra hpart
  have hlt := limbsValue_lt val.limbs
  have hwords : 64 * val.limbs.length = (64 * (val.limbs.length - shift / 64) - shift % 64) +
      shift := by
    omega
  rw [limbBase_pow, hwords, Nat.pow_add] at hlt
  have hquot := Nat.div_lt_of_lt_mul (Nat.mul_comm _ _ ▸ hlt)
  -- the highest word that is retained has lost its high bits
  have hless : 2 ^ (64 * (val.limbs.length - shift / 64) - shift % 64) <
      2 ^ (64 * (val.limbs.length - shift / 64)) :=
    Nat.pow_lt_pow_right (by decide) (by omega)
  rw [limbBase_pow] at hfull
  omega

theorem LosesCarry.of_full (hneg : val.negative = true) (hshort : shift / 64 < val.limbs.length)
    (hrounds : limbsValue val.limbs % 2 ^ shift ≠ 0) (hfull : limbsValue val.limbs / 2 ^ shift + 1 =
    limbBase ^ (val.limbs.length - shift / 64)) (hadmitted : val.limbs.length - shift / 64 ≤
    (maxResultBits + 63) / 64) : val.LosesCarry shift := by
  have haligned := aligned_of_full hshort hfull
  have hpow : 2 ^ shift = limbBase ^ (shift / 64) := by
    rw [limbBase_pow]
    congr 1
    omega
  rw [hpow] at hrounds hfull
  refine ⟨hneg, haligned, hshort, ?_, ?_, hadmitted⟩
  · rw [← limbsValue_take, Ne, limbsValue_eq_zero_iff] at hrounds
    push Not at hrounds
    exact hrounds
  · rw [← limbsValue_drop, ← List.length_drop, limbsValue_succ_eq_iff] at hfull
    exact hfull

namespace LosesCarry

variable {val : BigIntValue} {shift : Nat}

theorem pow_eq (h : val.LosesCarry shift) : 2 ^ shift = limbBase ^ (shift / 64) := by
  have haligned := h.aligned
  rw [limbBase_pow]
  congr 1
  omega

theorem rounds (h : val.LosesCarry shift) : limbsValue val.limbs % 2 ^ shift ≠ 0 := by
  obtain ⟨limb, hm, hlimb⟩ := h.dropped
  rw [h.pow_eq, ← limbsValue_take, Ne, limbsValue_eq_zero_iff]
  intro hz
  exact hlimb (hz limb hm)

theorem full (h : val.LosesCarry shift) :
    limbsValue val.limbs / 2 ^ shift + 1 = limbBase ^ (val.limbs.length - shift / 64) := by
  rw [h.pow_eq, ← limbsValue_drop, ← List.length_drop, limbsValue_succ_eq_iff]
  exact h.retained

end LosesCarry

/-- A right shift is a quotient rounded towards minus infinity, where it does not lose its carry. -/
theorem computes_shiftRightArithmetic (h : val.Canonical) (hkeeps : ¬ val.LosesCarry shift) :
    Computes (val.toInt / 2 ^ shift) (val.shiftRightArithmetic shift) := by
  simp only [shiftRightArithmetic]
  by_cases hall : val.bitLength ≤ shift
  · -- every bit of the magnitude is dropped
    rw [if_pos hall]
    exact computes_dropped h (lt_of_lt_of_le (limbsValue_lt_bitLength val.limbs)
      (Nat.pow_le_pow_right (by decide) hall))
  · rw [if_neg hall]
    have hshort : shift / 64 < val.limbs.length := by
      have hbits := bitLengthOf_le val.limbs
      rw [bitLength] at hall
      omega
    by_cases hadmitted : val.limbs.length - shift / 64 ≤ (maxResultBits + 63) / 64
    · refine Yields.bind (yields_zeroedLimbs _) fun _ _ => Yields.pure ?_
      have hmag : limbsValue (if val.negative && discardedBitsNonzero val.limbs shift then
            addOneInPlace (shiftRightLimbs (shift % 64) (val.limbs.drop (shift / 64)))
          else shiftRightLimbs (shift % 64) (val.limbs.drop (shift / 64))) =
          limbsValue val.limbs / 2 ^ shift +
            if val.negative ∧ limbsValue val.limbs % 2 ^ shift ≠ 0 then 1 else 0 := by
        simp only [Bool.and_eq_true, discardedBitsNonzero_iff]
        split_ifs with hrounds
        · have hlt := limbsValue_lt (shiftRightLimbs (shift % 64) (val.limbs.drop (shift / 64)))
          rw [limbsValue_retained, retained_length] at hlt
          have hroom : limbsValue val.limbs / 2 ^ shift + 1 ≠
              limbBase ^ (val.limbs.length - shift / 64) :=
            fun hfull => hkeeps (.of_full hrounds.1 hshort hrounds.2 hfull hadmitted)
          rw [limbsValue_addOneInPlace, limbsValue_retained, retained_length,
            Nat.mod_eq_of_lt (by omega)]
        · exact limbsValue_retained val shift
      rw [toInt, signed_ediv, ← hmag]
      exact denotes_fromOwnedLimbs _ _
    · -- the request for the retained words is refused
      rw [zeroedLimbs, ensureResultLimbs, if_pos (not_le.mp hadmitted)]
      exact Yields.throw _

/-- The places by which a shift moves the bits up. -/
def placesUp (count : Int) (left : Bool) : Int := if left then count else -count

/-- An integer moved by places: a product, or a quotient rounded towards minus infinity. -/
def moved (val places : Int) : Int :=
  if 0 ≤ places then val * 2 ^ places.toNat else val / 2 ^ (-places).toNat

theorem natAbs_toInt (val : BigIntValue) : val.toInt.natAbs = limbsValue val.limbs := by
  simp only [toInt, signed]
  split
  · omega
  · omega

theorem Canonical.negative_eq (h : val.Canonical) : val.negative = decide (val.toInt < 0) := by
  have hz : limbsValue val.limbs = 0 → val.negative = false :=
    fun hv => h.zero (h.limbs.value_eq_zero.mp hv)
  rw [Bool.eq_iff_iff, decide_eq_true_iff, toInt, signed]
  constructor
  · intro hsign
    have hne : limbsValue val.limbs ≠ 0 := by
      intro hv
      rw [hz hv] at hsign
      cases hsign
    rw [if_pos hsign]
    omega
  · intro hneg
    by_contra hsign
    rw [if_neg hsign] at hneg
    omega

theorem asUsizeIfFits_eq (val : BigIntValue) : val.asUsizeIfFits = none ∧ 2 ≤ val.limbs.length ∨
      val.asUsizeIfFits = some val.toInt.natAbs := by
  rw [natAbs_toInt, asUsizeIfFits]
  rcases hls : val.limbs with _ | ⟨low, _ | ⟨high, rest⟩⟩
  · exact .inr rfl
  · exact .inr (by simp)
  · exact .inl ⟨rfl, by simp⟩

/-- A shift moves the integer by the count, where a right shift does not lose its carry and the
count is not beyond every bit that memory can hold. -/
theorem computes_shift {cnt : BigIntValue} (hv : val.Canonical) (hc : cnt.Canonical) (left : Bool)
    (hbits : val.bitLength ≤ 2 ^ 64) (hkeeps : placesUp cnt.toInt left < 0 → ¬ val.LosesCarry
    cnt.toInt.natAbs) :
    Computes (moved val.toInt (placesUp cnt.toInt left)) (val.shift cnt left) := by
  simp only [shift]
  have hdirection : cnt.toInt ≠ 0 →
      ((left != cnt.negative) = true ↔ 0 ≤ placesUp cnt.toInt left) := by
    rw [hc.negative_eq, placesUp]
    cases left with
    | false => simp only [Bool.false_bne, Bool.false_eq_true, if_false, decide_eq_true_eq]; omega
    | true => simp
  split
  next hz =>
    have hmoved : moved val.toInt (placesUp cnt.toInt left) = val.toInt := by
      rcases Bool.or_eq_true_iff.mp hz with h | h
      · rw [hv.isZero_iff.mp h, moved]
        split
        · simp
        · simp
      · rw [hc.isZero_iff.mp h, moved, placesUp]
        simp
    rw [hmoved]
    exact Yields.pure hv.denotes
  next hne =>
    have hcount_ne : cnt.toInt ≠ 0 := by
      intro hz
      exact hne (Bool.or_eq_true_iff.mpr (.inr (hc.isZero_iff.mpr hz)))
    have hplaces : (placesUp cnt.toInt left).natAbs = cnt.toInt.natAbs := by
      rw [placesUp]
      split
      · rfl
      · exact Int.natAbs_neg _
    split
    next hup =>
      have hup' := (hdirection hcount_ne).mp hup
      have hshift : Yields (fun shift => shift = cnt.toInt.natAbs)
          (cnt.asBoundedUsize maxResultBits) := by
        simp only [asBoundedUsize]
        rcases cnt.asUsizeIfFits_eq with ⟨hn, -⟩ | hsome
        · rw [hn]
          exact Yields.throw _
        · rw [hsome]
          show Yields _ (if maxResultBits < cnt.toInt.natAbs then throw
            BigIntArithmeticError.resultTooLarge
            else pure cnt.toInt.natAbs)
          split
          · exact Yields.throw _
          · exact Yields.pure rfl
      refine Yields.bind hshift fun shift hshift => ?_
      have hplaces' : (placesUp cnt.toInt left).toNat = shift := by omega
      rw [moved, if_pos hup', hplaces']
      exact computes_shiftLeftMagnitude val shift
    next hdown =>
      have hdown' : ¬ 0 ≤ placesUp cnt.toInt left := fun h => hdown ((hdirection hcount_ne).mpr h)
      have hplaces' : (-placesUp cnt.toInt left).toNat = cnt.toInt.natAbs := by omega
      rw [moved, if_neg hdown', hplaces']
      rcases cnt.asUsizeIfFits_eq with ⟨hn, hlong⟩ | hsome
      · rw [hn]
        have hbeyond : limbsValue val.limbs < 2 ^ cnt.toInt.natAbs := by
          have hpow := hc.limbs.pow_le (by rintro hnil; rw [hnil] at hlong; exact absurd hlong (by decide))
          have hword : 2 ^ 64 ≤ limbsValue cnt.limbs := by
            refine le_trans ?_ hpow
            have h := Nat.pow_le_pow_right (n := limbBase) (by decide)
              (show 1 ≤ cnt.limbs.length - 1 by omega)
            rwa [pow_one] at h
          rw [natAbs_toInt]
          exact lt_of_lt_of_le (limbsValue_lt_bitLength val.limbs)
            (Nat.pow_le_pow_right (by decide) (le_trans hbits hword))
        exact computes_dropped hv hbeyond
      · rw [hsome]
        exact computes_shiftRightArithmetic hv (hkeeps (Int.not_le.mp hdown'))

end BigIntValue

end TachyonEngine.Vm
