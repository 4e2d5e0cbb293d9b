import TachyonEngine.Vm.BigIntShift
import TachyonEngine.Vm.BigIntTruncate

/-!
# The size limit of BigInt results

Every operation estimates the words of its result before it requests them: a sum of equal signs has
one word more than its longer operand, a product as many as its factors together, a power the bits
of its base times the exponent. What an operation returns is the exact result and within the limit,
and it is too large only for its own estimate, which the exact result need not be.
-/

namespace TachyonEngine.Vm

open Lib Lib.Capacity

/-- The largest number of words of a result. -/
def resultLimbs : Nat := (maxResultBits + 63) / 64

theorem maxResultBits_eq : maxResultBits = 64 * resultLimbs := by decide

theorem resultLimbs_lt : resultLimbs < 2 ^ 64 := by decide

/-- Out of memory where some request is refused, or too large where an estimate says so. -/
def Refuses (asked : Nat → Bool) (estimate : Prop) (e : BigIntArithmeticError) : Prop :=
  e = .allocationFailed ∧ (∃ n, asked n = true) ∨ e = .resultTooLarge ∧ estimate

/-- A computation whose requests are refused as `asked` says. -/
abbrev Limited {α : Type} (asked : Nat → Bool) (estimate : Prop) (holds : α → Prop)
    (run : Arithmetic α) : Prop :=
  Delivers (fun alloc => alloc.refuses = asked) (Refuses asked estimate) holds run

namespace BigIntValue

/-- A magnitude of at most the largest number of bits of a result. -/
def Within (n : Int) : Prop := n.natAbs < 2 ^ maxResultBits

/-- An operation that returns the exact result, which is within the limit, unless memory is refused
or the result is too large. That it is where `estimate` says so, and only where it is `possible`. -/
structure Sized (possible estimate : Prop) (exact : Int → Prop) (run : Arithmetic BigIntValue) :
    Prop where
  delivers : ∀ asked, Limited asked possible
    (fun val => val.Canonical ∧ exact val.toInt ∧ ¬ estimate ∧ Within val.toInt) run
  tooLarge : ∀ alloc, (∀ n, alloc.refuses n = false) →
    (estimate → run alloc = .error .resultTooLarge) ∧ (run alloc = .error .resultTooLarge →
      possible)

/-- An operation that is too large exactly for its estimate. -/
abbrev SizedBy (estimate : Prop) (exact : Int → Prop) (run : Arithmetic BigIntValue) : Prop :=
  Sized estimate estimate exact run

/-! ## The estimates -/

section

variable (left right : BigIntValue)

def sumLimbs : Nat :=
  max left.limbs.length right.limbs.length + if left.negative = right.negative then 1 else 0

def productLimbs : Nat :=
  if left.isZero || right.isZero then 0 else left.limbs.length + right.limbs.length

def bitwiseLimbs : Nat := max left.limbs.length right.limbs.length + 1

end

def shiftedLimbs (val : BigIntValue) (shift : Nat) : Nat :=
  val.limbs.length + shift / 64 + if shift % 64 ≠ 0 then 1 else 0

section

variable {asked : Nat → Bool} {refused : Prop}

theorem delivers_ensureResultLimbs {length : Nat} (h : resultLimbs < length → refused) :
    Limited asked refused (fun _ => ¬ resultLimbs < length) (ensureResultLimbs length) := by
  rw [ensureResultLimbs]
  split_ifs with hlong
  · exact Delivers.throw (.inr ⟨rfl, h hlong⟩)
  · exact Delivers.pure hlong

theorem delivers_reserveLimbs : Limited asked refused (fun _ => True) reserveLimbs := by
  rintro alloc rfl
  rw [reserveLimbs, Allocator.request]
  cases hasked : alloc.refuses alloc.requests with
  | false => exact ⟨trivial, rfl⟩
  | true => exact .inl ⟨rfl, _, hasked⟩

theorem delivers_zeroedLimbs {length : Nat} (h : resultLimbs < length → refused) :
    Limited asked refused (fun _ => ¬ resultLimbs < length) (zeroedLimbs length) :=
  Delivers.bind (delivers_ensureResultLimbs h) fun _ hshort =>
    Delivers.bind delivers_reserveLimbs fun _ _ => Delivers.pure hshort

theorem delivers_checkedLength {left right : Nat} (h : 2 ^ 64 ≤ left + right → refused) :
    Limited asked refused (fun length => length = left + right) (checkedLength left right) := by
  rw [checkedLength]
  split_ifs with hlong
  · exact Delivers.pure rfl
  · exact Delivers.throw (.inr ⟨rfl, h (not_lt.mp hlong)⟩)

end

/-! ## Magnitudes -/

variable {left right val : BigIntValue} {asked : Nat → Bool} {refused estimate admitted : Prop}
  {exact : Int → Prop} {run : Arithmetic BigIntValue}

theorem Sized.of_limited
    (h : ∀ asked, Limited asked refused (fun val => val.Canonical ∧ exact val.toInt ∧ ¬ estimate ∧
      Within val.toInt) run) : Sized refused estimate exact run := by
  refine ⟨h, fun alloc hgranted => ?_⟩
  have hends := h alloc.refuses alloc rfl
  cases hrun : run alloc with
  | error e =>
    rw [hrun] at hends
    rcases hends with ⟨-, n, hn⟩ | ⟨rfl, hrefused⟩
    · rw [hgranted n] at hn
      cases hn
    · exact ⟨fun _ => rfl, fun _ => hrefused⟩
  | ok res =>
    rw [hrun] at hends
    exact ⟨fun hestimate => absurd hestimate hends.1.2.2.1, fun heq => by cases heq⟩

theorem Sized.of_delivers (h : ∀ asked, Limited asked refused (fun _ => ¬ estimate) run)
    (hy : Yields (fun val => val.Canonical ∧ exact val.toInt) run)
    (hw : ¬ estimate → ∀ n, exact n → Within n) : Sized refused estimate exact run := by
  apply Sized.of_limited
  intro asked
  apply ((h asked).and_yields hy).imp
  rintro res ⟨hadmitted, hcanon, hexact⟩
  exact ⟨hcanon, hexact, hadmitted, hw hadmitted _ hexact⟩

theorem Sized.of_computes {n : Int} (h : ∀ asked, Limited asked refused (fun _ => ¬ estimate) run)
    (hc : Computes n run) (hw : ¬ estimate → Within n) :
    Sized refused estimate (fun m => m = n) run :=
  Sized.of_delivers h hc fun hadmitted _ heq => heq ▸ hw hadmitted

/-- The words of a canonical value are those of its bits. -/
theorem Canonical.length_le (h : val.Canonical) (bits : Nat) (hlt : val.toInt.natAbs < 2 ^ bits) :
    val.limbs.length ≤ (bits + 63) / 64 := by
  by_cases hnil : val.limbs = []
  · rw [hnil]
    exact Nat.zero_le _
  · have hpow := h.limbs.pow_le hnil
    rw [natAbs_toInt] at hlt
    rw [limbBase_pow] at hpow
    have hexp := (Nat.pow_lt_pow_iff_right (by decide)).mp (lt_of_le_of_lt hpow hlt)
    omega

theorem Canonical.length_le_resultLimbs (h : val.Canonical) (hw : Within val.toInt) :
    val.limbs.length ≤ resultLimbs := h.length_le _ hw

theorem within_of_lt {n : Int} (bits : Nat) (hlt : n.natAbs < 2 ^ bits)
    (hbits : bits ≤ maxResultBits) :
    Within n :=
  lt_of_lt_of_le hlt (Nat.pow_le_pow_right (by decide) hbits)

theorem natAbs_toInt_lt (val : BigIntValue) {cnt : Nat} (h : val.limbs.length ≤ cnt) :
    val.toInt.natAbs < 2 ^ (64 * cnt) := by
  rw [natAbs_toInt]
  refine lt_of_lt_of_le (limbsValue_lt val.limbs) ?_
  rw [limbBase_pow]
  exact Nat.pow_le_pow_right (by decide) (by omega)

/-! ## Sums and products -/

theorem delivers_difference (limbs subtrahend : List UInt64) (neg : Bool)
    (h : resultLimbs < limbs.length → refused) (hadmitted : admitted) :
    Limited asked refused (fun _ => admitted) (do
      let limbs ← subtractMagnitudes limbs subtrahend
      pure (fromOwnedLimbs neg limbs)) := by
  have hsub : Limited asked refused (fun _ => True) (subtractMagnitudes limbs subtrahend) :=
    Delivers.bind (delivers_zeroedLimbs h) fun _ _ => Delivers.pure trivial
  exact Delivers.bind hsub fun _ _ => Delivers.pure hadmitted

theorem sized_add (hl : left.Canonical) (hr : right.Canonical) (hlw : Within left.toInt)
    (hrw : Within right.toInt) : SizedBy (resultLimbs < sumLimbs left right)
      (fun n => n = left.toInt + right.toInt) (left.add right) := by
  have hleft := hl.length_le_resultLimbs hlw
  have hright := hr.length_le_resultLimbs hrw
  have hwords := resultLimbs_lt
  apply Sized.of_computes ?_ (computes_add hl hr)
  · intro hshort
    -- with different signs the longer magnitude bounds the sum
    rw [sumLimbs] at hshort
    split_ifs at hshort with hsign
    · have hcarry := natAbs_toInt_lt left (le_max_left _ right.limbs.length)
      have hcarry' := natAbs_toInt_lt right (le_max_right left.limbs.length _)
      have hbits := maxResultBits_eq
      refine within_of_lt (64 * max left.limbs.length right.limbs.length + 1) ?_ (by omega)
      omega
    · rw [Within] at hlw hrw ⊢
      simp only [toInt, signed] at hlw hrw ⊢
      cases hln : left.negative <;> cases hrn : right.negative <;>
        simp only [hln, hrn, not_true, if_true, if_false, Bool.false_eq_true] at hsign hlw hrw ⊢ <;>
        omega
  · intro asked
    simp only [add, sumLimbs]
    split
    · refine Delivers.bind ?_ fun _ => Delivers.pure
      refine Delivers.bind (delivers_checkedLength fun h => by omega) fun cap hcap => ?_
      subst hcap
      refine Delivers.bind (delivers_ensureResultLimbs id) fun _ hshort => ?_
      exact Delivers.bind (delivers_zeroedLimbs id) fun _ _ => Delivers.pure hshort
    · have hshort : ¬ resultLimbs < max left.limbs.length right.limbs.length + 0 := by omega
      split
      · exact delivers_difference _ _ _ (by omega) hshort
      · exact delivers_difference _ _ _ (by omega) hshort
      · exact Delivers.pure hshort

theorem delivers_multiply (asked : Nat → Bool) (left right : BigIntValue) :
    Limited asked (resultLimbs < productLimbs left right)
      (fun _ => ¬ resultLimbs < productLimbs left right) (left.multiply right) := by
  have hwords := resultLimbs_lt
  simp only [multiply, productLimbs]
  split
  · exact Delivers.pure (Nat.not_lt_zero _)
  · refine Delivers.bind (delivers_checkedLength fun h => by omega) fun limbCount hcount => ?_
    subst hcount
    refine Delivers.bind (delivers_ensureResultLimbs id) fun _ hshort => ?_
    exact Delivers.bind (delivers_zeroedLimbs id) fun _ _ => Delivers.pure hshort

theorem sized_multiply (hl : left.Canonical) (hr : right.Canonical) :
    SizedBy (resultLimbs < productLimbs left right) (fun n => n = left.toInt * right.toInt)
      (left.multiply right) := by
  apply Sized.of_computes (fun asked => delivers_multiply asked left right)
    (computes_multiply hl hr)
  intro hshort
  rw [productLimbs] at hshort
  split_ifs at hshort with hz
  · have hprod : left.toInt * right.toInt = 0 := by
      rcases Bool.or_eq_true_iff.mp hz with h | h
      · rw [hl.isZero_iff.mp h, Int.zero_mul]
      · rw [hr.isZero_iff.mp h, Int.mul_zero]
    rw [hprod]
    exact Nat.two_pow_pos _
  · have hbits := maxResultBits_eq
    refine within_of_lt (64 * (left.limbs.length + right.limbs.length)) ?_ (by omega)
    rw [Int.natAbs_mul, mul_add, pow_add]
    exact Nat.mul_lt_mul'' (natAbs_toInt_lt left le_rfl) (natAbs_toInt_lt right le_rfl)

/-! ## Powers -/

theorem delivers_asBoundedUsize (h : val.Canonical) {maximum : Nat} (hmax : maximum < 2 ^ 64)
    (hbig : maximum < val.toInt.natAbs → refused) :
    Limited asked refused (fun n => n = val.toInt.natAbs) (val.asBoundedUsize maximum) := by
  simp only [asBoundedUsize]
  rcases val.asUsizeIfFits_eq with ⟨hn, hlong⟩ | hsome
  · rw [hn]
    refine Delivers.throw (.inr ⟨rfl, hbig ?_⟩)
    by_contra hsmall
    have hshort := h.length_le 64 (by omega)
    omega
  · rw [hsome]
    show Limited _ _ _ (if maximum < val.toInt.natAbs then throw
      BigIntArithmeticError.resultTooLarge
      else pure val.toInt.natAbs)
    split_ifs with hlt
    · exact Delivers.throw (.inr ⟨rfl, hbig hlt⟩)
    · exact Delivers.pure rfl

/-- Two factors whose bits leave room for the last words of both have a product that is admitted. -/
theorem delivers_product (hl : left.Canonical) (hr : right.Canonical) {l r : Nat}
    (hleft : left.toInt.natAbs < 2 ^ l) (hright : right.toInt.natAbs < 2 ^ r)
    (hroom : ¬ refused → l + r ≤ maxResultBits - 63) :
    Limited asked refused (fun val => val.Canonical ∧ val.toInt.natAbs < 2 ^ (l + r))
      (left.multiply right) := by
  have hshort : resultLimbs < productLimbs left right → refused := by
    intro hlong
    by_contra hn
    have hroom := hroom hn
    have hleft := hl.length_le l hleft
    have hright := hr.length_le r hright
    have hbits := maxResultBits_eq
    rw [productLimbs] at hlong
    split at hlong
    · exact absurd hlong (Nat.not_lt_zero _)
    · omega
  have hmul := (delivers_multiply asked left right).and_yields (computes_multiply hl hr)
  refine (hmul.imp_error fun e he => he.imp_right fun h => ⟨h.1, hshort h.2⟩).imp ?_
  rintro product ⟨-, hcanon, hv⟩
  refine ⟨hcanon, ?_⟩
  rw [hv, Int.natAbs_mul, pow_add]
  exact Nat.mul_lt_mul'' hleft hright

/-- The bits of the result and those of the factors that are still to be multiplied in leave room
for the last words of two operands. -/
theorem delivers_powerLoop {power res : BigIntValue} (hpower : power.Canonical)
    (hres : res.Canonical) (remaining : Nat) {p r : Nat} (hp : power.toInt.natAbs < 2 ^ p)
    (hr : res.toInt.natAbs < 2 ^ r) (hroom : ¬ refused → r + p * remaining ≤ maxResultBits - 63) :
    Limited asked refused (fun _ => True) (powerLoop power res remaining) := by
  induction remaining using Nat.strongRecOn generalizing power res p r with
  | ind remaining ih =>
    rw [powerLoop]
    split
    · exact Delivers.pure trivial
    · have hhalf : remaining >>> 1 = remaining / 2 := Nat.shiftRight_eq_div_pow remaining 1
      have hodd : remaining &&& 1 = remaining % 2 := Nat.and_one_is_mod remaining
      have hsplit : p * remaining = p * (remaining % 2) + (p + p) * (remaining / 2) := by
        conv_lhs => rw [← Nat.mod_add_div remaining 2]
        ring
      -- the loop goes on with the square of the base
      have hn : ∀ taken, (taken.Canonical ∧ taken.toInt.natAbs < 2 ^ (r + p * (remaining % 2))) →
          Limited asked refused (fun _ => True) (if remaining >>> 1 ≠ 0 then do
              let power ← power.multiply power
              powerLoop power taken (remaining >>> 1)
            else powerLoop power taken (remaining >>> 1)) := by
        rintro taken ⟨hcanon, htaken⟩
        split_ifs with hlast
        · have htwo : p + p ≤ (p + p) * (remaining / 2) := Nat.le_mul_of_pos_right _ (by omega)
          refine Delivers.bind (delivers_product hpower hpower hp hp fun h => ?_) ?_
          · have hroom := hroom h
            omega
          · rintro square ⟨hsquare, hlt⟩
            refine ih _ (by omega) hsquare hcanon hlt htaken fun h => ?_
            have hroom := hroom h
            rw [hhalf]
            omega
        · rw [Decidable.not_not.mp hlast]
          refine ih 0 (by omega) hpower hcanon hp htaken fun h => ?_
          have hroom := hroom h
          omega
      rw [hodd]
      rcases Nat.mod_two_eq_zero_or_one remaining with h | h
      · rw [h] at hn ⊢
        exact Delivers.bind (Delivers.pure ⟨hres, hr⟩) hn
      · rw [h, mul_one] at hn hsplit
        rw [h]
        refine Delivers.bind (delivers_product hres hpower hr hp fun h => ?_) hn
        have hroom := hroom h
        omega

theorem natAbs_pow_lt {n : Int} {bits e : Nat} (h : n.natAbs < 2 ^ bits) (he : e ≠ 0) :
    (n ^ e).natAbs < 2 ^ (bits * e) := by
  rw [Int.natAbs_pow, pow_mul]
  exact Nat.pow_lt_pow_left h he

theorem sized_exponentiate {base exponent : BigIntValue} (hbase : base.Canonical)
    (hexp : exponent.Canonical) (hpos : 0 ≤ exponent.toInt) :
    Sized (1 < base.toInt.natAbs ∧ maxResultBits - 64 < base.bitLength * exponent.toInt.toNat)
      (1 < base.toInt.natAbs ∧ maxResultBits < base.bitLength * exponent.toInt.toNat)
      (fun n => n = base.toInt ^ exponent.toInt.toNat) (base.exponentiate exponent) := by
  have hbits : base.toInt.natAbs < 2 ^ base.bitLength := by
    rw [natAbs_toInt]
    exact limbsValue_lt_bitLength base.limbs
  apply Sized.of_computes ?_ (computes_exponentiate hbase hexp)
  · intro hadmitted
    rw [not_and_or, not_lt, not_lt] at hadmitted
    rcases hadmitted with hsmall | hfits
    · have hpow : (base.toInt ^ exponent.toInt.toNat).natAbs ≤ 1 := by
        rw [Int.natAbs_pow]
        exact pow_le_one₀ (Nat.zero_le _) hsmall
      exact within_of_lt 1 (by omega) (by decide)
    · by_cases hz : exponent.toInt.toNat = 0
      · rw [hz, pow_zero]
        exact within_of_lt 1 (by decide) (by decide)
      · exact within_of_lt _ (natAbs_pow_lt hbits hz) hfits
  · intro asked
    have hsign : exponent.negative = false := by
      rw [hexp.negative_eq]
      exact decide_eq_false (Int.not_lt.mpr hpos)
    rw [not_and_or, not_lt, not_lt, exponentiate, hsign, if_neg Bool.false_ne_true]
    split
    next hz =>
      rw [hexp.isZero_iff.mp hz]
      exact Delivers.pure (.inr (Nat.zero_le _))
    · split
      next hfixed =>
        have hsmall : base.toInt.natAbs ≤ 1 := by
          rcases Bool.or_eq_true_iff.mp hfixed with h | h
          · rw [hbase.isZero_iff.mp h]
            decide
          · rw [isOne, Bool.and_eq_true, beq_iff_eq] at h
            rw [natAbs_toInt, h.2]
            decide
        exact Delivers.pure (.inl hsmall)
      next hne =>
        split
        next hminus =>
          rw [Bool.and_eq_true, beq_iff_eq] at hminus
          have hsmall : base.toInt.natAbs ≤ 1 := by
            rw [natAbs_toInt, hminus.2]
            decide
          split
          · exact Delivers.pure (.inl hsmall)
          · exact Delivers.pure (.inl hsmall)
        next hminus =>
          have hbig : 1 < base.toInt.natAbs := by
            by_contra hsmall
            rw [natAbs_toInt, not_lt, Nat.le_one_iff_eq_zero_or_eq_one] at hsmall
            rcases hsmall with hz | hone
            · apply hne
              rw [isZero, hbase.limbs.value_eq_zero.mp hz]
              rfl
            · have hls := hbase.limbs.eq_of_value_eq (by decide : CanonicalLimbs [1]) hone
              cases hn : base.negative with
              | false => simp [isOne, hls, hn] at hne
              | true => simp [hls, hn] at hminus
          have hlen : 0 < base.bitLength := by
            by_contra hz
            rw [Nat.eq_zero_of_not_pos hz] at hbits
            omega
          have he : exponent.toInt.natAbs = exponent.toInt.toNat := by omega
          have hlimit : maxResultBits < 2 ^ 64 := by decide
          have hword : 64 ≤ maxResultBits := by decide
          refine Delivers.bind (delivers_asBoundedUsize hexp hlimit fun hlt => ⟨hbig, ?_⟩)
            fun n hn => ?_
          · have hle := Nat.le_mul_of_pos_left exponent.toInt.toNat hlen
            omega
          · rw [hn, he]
            dsimp only
            split
            · exact Delivers.throw (.inr ⟨rfl, hbig, by omega⟩)
            · have hloop : Limited asked (1 < base.toInt.natAbs ∧
                  maxResultBits - 64 < base.bitLength * exponent.toInt.toNat) (fun _ => True) _ :=
                delivers_powerLoop hbase (denotes_fromU64 1).1 exponent.toInt.toNat (r := 1) hbits
                  (by decide) fun hroom => by omega
              exact hloop.imp fun _ _ => .inr (by omega)

/-! ## Bits -/

theorem delivers_twosComplement (val : BigIntValue) {width : Nat} (h : resultLimbs < width →
    refused) :
    Limited asked refused (fun _ => True) (val.twosComplement width) :=
  Delivers.bind (delivers_zeroedLimbs h) fun _ _ => Delivers.pure trivial

/-- Words that are read in two's complement have a magnitude within their width. -/
theorem natAbs_fromTwosComplement_lt (limbs : List UInt64) :
    (fromTwosComplement limbs).toInt.natAbs < 2 ^ (64 * limbs.length) := by
  rw [natAbs_toInt, fromTwosComplement, fromOwnedLimbs, limbsValue_trimLimbs, ← limbBase_pow]
  split
  · have hlt := limbsValue_lt (negateLimbs limbs)
    rwa [negateLimbs_length] at hlt
  · exact limbsValue_lt limbs

theorem sized_bitwise (hl : left.Canonical) (hr : right.Canonical) (op : BitwiseOpcode) :
    SizedBy (resultLimbs < bitwiseLimbs left right)
      (fun n => n = op.onInts left.toInt right.toInt) (left.bitwise right op) := by
  have hwords := resultLimbs_lt
  have hd : ∀ asked, Limited asked (resultLimbs < bitwiseLimbs left right) (fun val =>
      ¬ resultLimbs < bitwiseLimbs left right ∧ Within val.toInt) (left.bitwise right op) := by
    intro asked
    rw [bitwiseLimbs]
    refine Delivers.bind (delivers_checkedLength fun h => by omega) fun width hwidth => ?_
    subst hwidth
    refine Delivers.bind (delivers_ensureResultLimbs id) fun _ hshort => ?_
    refine Delivers.bind ((delivers_twosComplement left id).and_yields
      (yields_twosComplement hl (by omega))) fun leftLimbs hll => ?_
    refine Delivers.bind (delivers_twosComplement right id) fun rightLimbs _ => ?_
    refine Delivers.bind (delivers_zeroedLimbs id) fun _ _ => Delivers.pure ⟨hshort, ?_⟩
    have hlen : (List.zipWith op.onLimbs leftLimbs rightLimbs).length ≤ resultLimbs := by
      rw [List.length_zipWith]
      omega
    have hbits := maxResultBits_eq
    exact within_of_lt _ (natAbs_fromTwosComplement_lt _) (by omega)
  apply Sized.of_limited
  intro asked
  apply ((hd asked).and_yields (computes_bitwise hl hr op)).imp
  rintro res ⟨⟨hadmitted, hwithin⟩, hcanon, hv⟩
  exact ⟨hcanon, hv, hadmitted, hwithin⟩

/-! ## Shifts -/

/-- The bits and the words of a magnitude that is shifted to the left. -/
def ShiftTooLong (val : BigIntValue) (shift : Nat) : Prop :=
  maxResultBits < val.bitLength + shift ∨ resultLimbs < shiftedLimbs val shift

theorem delivers_shiftLeftMagnitude (val : BigIntValue) (shift : Nat) :
    Limited asked (ShiftTooLong val shift) (fun _ => ¬ ShiftTooLong val shift)
      (val.shiftLeftMagnitude shift) := by
  have hwords := resultLimbs_lt
  have hlimit : maxResultBits < 2 ^ 64 := by decide
  refine Delivers.bind (delivers_checkedLength fun h => .inl (by omega)) fun resultBits hbits => ?_
  subst hbits
  split
  next hlong =>
    exact Delivers.throw (.inr ⟨rfl, .inl hlong⟩)
  next hfits =>
    refine Delivers.bind (delivers_checkedLength fun h => .inr ?_) fun words hwords => ?_
    · rw [shiftedLimbs]
      omega
    · subst hwords
      refine Delivers.bind (delivers_checkedLength fun h => .inr ?_) fun limbCount hcount => ?_
      · rw [shiftedLimbs]
        omega
      · subst hcount
        refine Delivers.bind (delivers_zeroedLimbs .inr) fun _ hshort => Delivers.pure ?_
        rintro (hlong | hlong)
        · exact hfits hlong
        · exact hshort hlong

theorem natAbs_bitLength_lt (val : BigIntValue) : val.toInt.natAbs < 2 ^ val.bitLength := by
  rw [natAbs_toInt]
  exact limbsValue_lt_bitLength val.limbs

/-- A shift upwards, which is to the left by a positive count and to the right by a negative one. -/
theorem sized_shift {val cnt : BigIntValue} (hv : val.Canonical) (hc : cnt.Canonical)
    (hw : Within val.toInt) (left : Bool) (hup : 0 ≤ placesUp cnt.toInt left) :
    SizedBy (val.toInt ≠ 0 ∧ cnt.toInt ≠ 0 ∧ ShiftTooLong val cnt.toInt.natAbs)
      (fun n => n = moved val.toInt (placesUp cnt.toInt left)) (val.shift cnt left) := by
  have hbits : val.bitLength ≤ 2 ^ 64 := by
    have hlen := hv.length_le_resultLimbs hw
    have hle : val.bitLength ≤ _ := bitLengthOf_le val.limbs
    have hcount : resultLimbs * 64 ≤ 2 ^ 64 := by decide
    omega
  apply Sized.of_computes ?_ (computes_shift hv hc left hbits fun hdown =>
    absurd hup (Int.not_le.mpr hdown))
  · intro hadmitted
    have hplaces : (placesUp cnt.toInt left).toNat = cnt.toInt.natAbs := by
      cases left with
      | false =>
        simp only [placesUp, Bool.false_eq_true, if_false] at hup ⊢
        omega
      | true =>
        simp only [placesUp, if_true] at hup ⊢
        omega
    rw [moved, if_pos hup, hplaces, Within, Int.natAbs_mul, Int.natAbs_pow]
    by_cases hz : val.toInt = 0 ∨ cnt.toInt = 0
    · rcases hz with hz | hz
      · rw [hz, Int.natAbs_zero, Nat.zero_mul]
        exact Nat.two_pow_pos _
      · rw [hz, Int.natAbs_zero, pow_zero, mul_one]
        exact hw
    · obtain ⟨hzv, hzc⟩ := not_or.mp hz
      have hfits : ¬ maxResultBits < val.bitLength + cnt.toInt.natAbs :=
        fun hlong => hadmitted ⟨hzv, hzc, .inl hlong⟩
      refine lt_of_lt_of_le ?_ (Nat.pow_le_pow_right (by decide) (not_lt.mp hfits))
      rw [pow_add]
      exact mul_lt_mul_of_pos_right (natAbs_bitLength_lt val) (Nat.two_pow_pos _)
  · intro asked
    rw [shift]
    split
    next hz =>
      refine Delivers.pure ?_
      rintro ⟨hzv, hzc, -⟩
      rcases Bool.or_eq_true_iff.mp hz with h | h
      · exact hzv (hv.isZero_iff.mp h)
      · exact hzc (hc.isZero_iff.mp h)
    next hne =>
      have hzv : val.toInt ≠ 0 := fun hz => hne
        (Bool.or_eq_true_iff.mpr (.inl (hv.isZero_iff.mpr hz)))
      have hzc : cnt.toInt ≠ 0 := fun hz => hne
        (Bool.or_eq_true_iff.mpr (.inr (hc.isZero_iff.mpr hz)))
      have hdirection : (left != cnt.negative) = true := by
        rw [hc.negative_eq]
        rw [placesUp] at hup
        cases left with
        | false =>
          rw [if_neg Bool.false_ne_true] at hup
          simp only [Bool.false_bne, decide_eq_true_eq]
          omega
        | true =>
          rw [if_pos rfl] at hup
          simp only [Bool.true_bne, Bool.not_eq_eq_eq_not, Bool.not_true, decide_eq_false_iff_not]
          omega
      rw [if_pos hdirection]
      refine Delivers.bind (delivers_asBoundedUsize hc (by decide) fun hlt =>
        ⟨hzv, hzc, .inl (Nat.lt_add_left _ hlt)⟩) fun shift hshift => ?_
      subst hshift
      refine ((delivers_shiftLeftMagnitude val _).imp_error fun e he => ?_).imp ?_
      · exact he.imp_right fun h => ⟨h.1, hzv, hzc, h.2⟩
      · exact fun _ hshort h => hshort h.2.2

/-! ## Residues -/

end BigIntValue

end TachyonEngine.Vm
