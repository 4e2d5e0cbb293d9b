import TachyonEngine.Vm.SmallBigInt

/-!
# Representations of a BigInt

A canonical value is published as an immediate exactly when its integer has 48 bits, and equality
and order of two BigInts are those of their integers for any of their representations.
-/

namespace TachyonEngine.Vm

open Gc (RawHeapRef)
open Lib

variable {n : Int}

theorem isSmall_iff : IsSmall n ↔ -2 ^ 47 ≤ n ∧ n < 2 ^ 47 := by
  simp only [IsSmall, smallBigintMin, smallBigintMax]
  omega

theorem IsSmall.natAbs_lt (h : IsSmall n) : n.natAbs < 2 ^ 64 := by
  rw [isSmall_iff] at h
  omega

theorem fromSmallBigint_eq (n : Int) :
    Value.fromSmallBigint n = if IsSmall n then some (.smallBigint n) else none := by
  have hbounds : n < smallBigintMin ∨ smallBigintMax < n ↔ ¬ IsSmall n := by
    simp only [IsSmall]
    omega
  rw [Value.fromSmallBigint]
  by_cases h : IsSmall n
  · rw [if_pos h, if_neg fun hout => hbounds.mp hout h]
  · rw [if_neg h, if_pos (hbounds.mpr h)]

namespace BigIntValue

variable {left right : BigIntValue}

/-- A canonical value is that of its integer. -/
theorem Canonical.eq_of_toInt_eq (hl : left.Canonical) (hr : right.Canonical) (h : left.toInt =
    right.toInt) : left = right := by
  have hls : left.limbs = right.limbs := by
    apply hl.limbs.eq_of_value_eq hr.limbs
    rw [← natAbs_toInt, ← natAbs_toInt, h]
  have hneg : left.negative = right.negative := by
    rw [hl.negative_eq, hr.negative_eq, h]
  cases left with
  | mk leftNegative leftLimbs =>
    cases right with
    | mk rightNegative rightLimbs =>
      simp only at hls hneg
      rw [hls, hneg]

variable {val : BigIntValue}

/-- Two words or more make a number that no single word holds. -/
theorem Canonical.le_natAbs (h : val.Canonical) (hlong : 2 ≤ val.limbs.length) :
    2 ^ 64 ≤ val.toInt.natAbs := by
  have hne : val.limbs ≠ [] := by
    intro hnil
    rw [hnil] at hlong
    exact absurd hlong (by decide)
  have hpow := Nat.pow_le_pow_right (n := limbBase) (by decide)
    (show 1 ≤ val.limbs.length - 1 by omega)
  rw [natAbs_toInt]
  exact le_trans hpow (h.limbs.pow_le hne)

theorem Canonical.length_le_one (h : val.Canonical) (hlt : val.toInt.natAbs < 2 ^ 64) :
    val.limbs.length ≤ 1 := by
  by_contra hlong
  exact absurd (h.le_natAbs (by omega)) (not_le.mpr hlt)

theorem Canonical.smallValue_eq (h : val.Canonical) :
    val.smallValue = if IsSmall val.toInt then some val.toInt else none := by
  have hneg := h.negative_eq
  have hnatAbs := val.natAbs_toInt
  rw [smallValue]
  match hls : val.limbs with
  | [] =>
    rw [hls, limbsValue_nil] at hnatAbs
    have hz : val.toInt = 0 := by omega
    rw [hz]
    rfl
  | [magnitude] =>
    have hmag : limbsValue [magnitude] = magnitude.toNat := by simp
    rw [hls] at hnatAbs
    simp only [hneg, decide_eq_true_eq]
    by_cases hsign : val.toInt < 0
    · rw [if_pos hsign]
      by_cases hfits : magnitude.toNat ≤ 2 ^ 47
      · rw [if_pos hfits, if_pos (isSmall_iff.mpr (by omega))]
        congr 1
        omega
      · rw [if_neg hfits, if_neg (by rw [isSmall_iff]; omega)]
    · rw [if_neg hsign]
      by_cases hfits : magnitude.toNat < 2 ^ 47
      · rw [if_pos hfits, if_pos (isSmall_iff.mpr (by omega))]
        congr 1
        omega
      · rw [if_neg hfits, if_neg (by rw [isSmall_iff]; omega)]
  | low :: high :: rest =>
    have hlong := h.le_natAbs (by rw [hls]; simp)
    rw [if_neg]
    rintro hsm
    exact absurd hsm.natAbs_lt (not_lt.mpr hlong)

/-! ## Order -/

variable {m n : Int}

/-- Integers that are not negative are ordered as their magnitudes are. -/
theorem compare_natAbs (hm : ¬ m < 0) (hn : ¬ n < 0) : compare m.natAbs n.natAbs = compare m n := by
  rw [Nat.compare_eq_ite_lt, Int.compare_eq_ite_lt]
  simp only [show m.natAbs < n.natAbs ↔ m < n by omega, show n.natAbs < m.natAbs ↔ n < m by omega]

/-- Negative integers are ordered the other way round. -/
theorem compare_natAbs_swap (hm : m < 0) (hn : n < 0) :
    (compare m.natAbs n.natAbs).swap = compare m n := by
  rw [Nat.compare_swap, Nat.compare_eq_ite_lt, Int.compare_eq_ite_lt]
  simp only [show n.natAbs < m.natAbs ↔ m < n by omega, show m.natAbs < n.natAbs ↔ n < m by omega]

theorem mathematicalCmp_eq (hleft : left.Canonical) (hright : right.Canonical) :
    left.mathematicalCmp right = compare left.toInt right.toInt := by
  rw [mathematicalCmp, hleft.negative_eq, hright.negative_eq,
    magnitudeCmp_eq hleft.limbs hright.limbs, ← left.natAbs_toInt, ← right.natAbs_toInt]
  by_cases hl : left.toInt < 0
  · by_cases hr : right.toInt < 0
    · rw [decide_eq_true hl, decide_eq_true hr]
      exact compare_natAbs_swap hl hr
    · rw [decide_eq_true hl, decide_eq_false hr]
      exact (Int.compare_eq_lt.mpr (by omega)).symm
  · by_cases hr : right.toInt < 0
    · rw [decide_eq_false hl, decide_eq_true hr]
      exact (Int.compare_eq_gt.mpr (by omega)).symm
    · rw [decide_eq_false hl, decide_eq_false hr]
      exact compare_natAbs hl hr

theorem Canonical.wordCmp_eq (h : val.Canonical) {n : Nat} (hn : n < 2 ^ 64) :
    wordCmp val.limbs n = compare val.toInt.natAbs n := by
  match hls : val.limbs with
  | [] =>
    rw [natAbs_toInt, hls]
    rfl
  | [limb] =>
    rw [natAbs_toInt, hls, wordCmp]
    simp
  | low :: high :: rest =>
    have hlong := h.le_natAbs (by rw [hls]; simp)
    exact (Nat.compare_eq_gt.mpr (lt_of_lt_of_le hn hlong)).symm

theorem mathematicalCmpI64_eq (h : val.Canonical) {other : Int} (hother : other.natAbs < 2 ^ 64) :
    val.mathematicalCmpI64 other = compare val.toInt other := by
  simp only [mathematicalCmpI64]
  rw [h.wordCmp_eq hother, h.negative_eq]
  by_cases hv : val.toInt < 0
  · by_cases ho : other < 0
    · rw [decide_eq_true hv, decide_eq_true ho]
      exact compare_natAbs_swap hv ho
    · rw [decide_eq_true hv, decide_eq_false ho]
      exact (Int.compare_eq_lt.mpr (by omega)).symm
  · by_cases ho : other < 0
    · rw [decide_eq_false hv, decide_eq_true ho]
      exact (Int.compare_eq_gt.mpr (by omega)).symm
    · rw [decide_eq_false hv, decide_eq_false ho]
      exact compare_natAbs hv ho

theorem equalsSmall_eq (h : val.Canonical) {small : Int} (hsm : small.natAbs < 2 ^ 64) :
    val.equalsSmall small = decide (val.toInt = small) := by
  rw [equalsSmall]
  split_ifs with hz
  · have hisZero := h.isZero_iff
    rw [isZero] at hisZero
    rw [hz, Bool.eq_iff_iff, hisZero, decide_eq_true_iff]
  · have hdenotes := denotes_fromI64 hsm
    have hfrom : fromI64 small = ⟨decide (small < 0), [UInt64.ofNat small.natAbs]⟩ := by
      have hword : UInt64.ofNat small.natAbs ≠ 0 := by
        intro hz
        have hnat := congrArg UInt64.toNat hz
        rw [UInt64.toNat_ofNat', Nat.mod_eq_of_lt hsm, UInt64.toNat_zero] at hnat
        omega
      rw [fromI64, fromU64, if_neg hword]
    rw [Bool.eq_iff_iff, Bool.and_eq_true, beq_iff_eq, beq_iff_eq, decide_eq_true_iff]
    constructor
    · rintro ⟨hneg, hls⟩
      rw [← hdenotes.2, hfrom]
      cases val with
      | mk neg limbs =>
        simp only at hneg hls
        rw [hneg, hls]
    · intro hv
      have heq := h.eq_of_toInt_eq hdenotes.1 (hv.trans hdenotes.2.symm)
      rw [heq, hfrom]
      exact ⟨rfl, rfl⟩

end BigIntValue

/-! ## Values of the heap -/

namespace BigIntHeap

/-- Every cell is canonical. -/
def Canonical (heap : BigIntHeap) : Prop :=
  ∀ reference bigint, heap.cells reference = some bigint → bigint.Canonical

/-- A value is a BigInt of an integer: an immediate, or the reference of a cell. -/
inductive Represents (heap : BigIntHeap) : Value → Int → Prop
  | immediate {n : Int} (hsm : IsSmall n) : Represents heap (.smallBigint n) n
  | cell {reference : RawHeapRef} {bigint : BigIntValue}
      (hcell : heap.cells reference = some bigint)
      (hcanon : bigint.Canonical) : Represents heap (.heapRef reference) bigint.toInt

variable {heap : BigIntHeap}

variable {bigint : BigIntValue}

theorem bigintReference_of_cell {ref : RawHeapRef} (hcell : heap.cells ref = some bigint) :
    heap.bigintReference (.heapRef ref) = .ok bigint := by
  rw [bigintReference, Value.asHeapRef, Option.bind_some, hcell]

variable {n : Int}

variable {left right : Value} {m : Int}

theorem bigintEqual_eq (hl : heap.Represents left m) (hr : heap.Represents right n) :
    heap.bigintEqual left right = .ok (decide (m = n)) := by
  cases hl with
  | immediate hm =>
    cases hr with
    | immediate hn => rfl
    | cell hcell hcanon =>
      show (heap.bigintReference _).map _ = _
      rw [bigintReference_of_cell hcell, Except.map, BigIntValue.equalsSmall_eq hcanon hm.natAbs_lt]
      simp only [eq_comm]
  | cell hcell hcanon =>
    cases hr with
    | immediate hn =>
      show (heap.bigintReference _).map _ = _
      rw [bigintReference_of_cell hcell, Except.map, BigIntValue.equalsSmall_eq hcanon hn.natAbs_lt]
    | cell hcell' hcanon' =>
      show (do
        let left ← heap.bigintReference _
        let right ← heap.bigintReference _
        pure (decide (left = right))) = _
      rw [bigintReference_of_cell hcell, bigintReference_of_cell hcell']
      have hiff := Iff.intro (hcanon.eq_of_toInt_eq hcanon') (congrArg BigIntValue.toInt)
      exact congrArg Except.ok (decide_eq_decide.mpr hiff.symm)

theorem bigintCompare_eq (hl : heap.Represents left m) (hr : heap.Represents right n) :
    heap.bigintCompare left right = .ok (compare m n) := by
  cases hl with
  | immediate hm =>
    cases hr with
    | immediate hn => rfl
    | cell hcell hcanon =>
      show (heap.bigintReference _).map _ = _
      rw [bigintReference_of_cell hcell, Except.map,
        BigIntValue.mathematicalCmpI64_eq hcanon hm.natAbs_lt, Int.compare_swap]
  | cell hcell hcanon =>
    cases hr with
    | immediate hn =>
      show (heap.bigintReference _).map _ = _
      rw [bigintReference_of_cell hcell, Except.map,
        BigIntValue.mathematicalCmpI64_eq hcanon hn.natAbs_lt]
    | cell hcell' hcanon' =>
      show (do
        let left ← heap.bigintReference _
        let right ← heap.bigintReference _
        pure (left.mathematicalCmp right)) = _
      rw [bigintReference_of_cell hcell, bigintReference_of_cell hcell']
      exact congrArg Except.ok (BigIntValue.mathematicalCmp_eq hcanon hcanon')

/-! ## Publication -/

/-- What a publication leaves: the value represents the integer, as an immediate exactly when the
integer has 48 bits, and the cells stay canonical. -/
structure Publishes (n : Int) (val : Value) (heap : BigIntHeap) : Prop where
  represents : heap.Represents val n
  immediate : (∃ small, val.asSmallBigint = some small) ↔ IsSmall n
  canonical : heap.Canonical

theorem Publishes.value_eq {val : Value} (h : Publishes n val heap) (hsm : IsSmall n) :
    val = .smallBigint n := by
  obtain ⟨small, hsome⟩ := h.immediate.mpr hsm
  cases h.represents with
  | immediate _ => rfl
  | cell _ _ => cases hsome

theorem allocateBigint_publishes (hheap : heap.Canonical) (h : BigIntValue.Denotes n bigint) :
    Meets (fun err => ∃ refusal, err = .heapAllocation refusal)
      (fun res => Publishes n res.1 res.2) (allocateBigint bigint heap) := by
  obtain ⟨hcanon, rfl⟩ := h
  rw [allocateBigint, hcanon.smallValue_eq]
  by_cases hsm : IsSmall bigint.toInt
  · rw [if_pos hsm]
    simp only
    rw [fromSmallBigint_eq, if_pos hsm]
    exact ⟨.immediate hsm, iff_of_true ⟨_, rfl⟩ hsm, hheap⟩
  · rw [if_neg hsm]
    simp only [allocateExternal]
    split
    · next refusal _ => exact ⟨refusal, rfl⟩
    · refine ⟨.cell (if_pos rfl) hcanon, iff_of_false ?_ hsm, ?_⟩
      · rintro ⟨small, hsome⟩
        cases hsome
      · intro other cell hcell
        simp only at hcell
        split at hcell
        · cases hcell
          exact hcanon
        · split at hcell
          · exact hheap _ _ hcell
          · cases hcell

end BigIntHeap

end TachyonEngine.Vm
