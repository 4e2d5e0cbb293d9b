import TachyonEngine.Vm.BigIntShift

/-!
# Exact shifts

A shift that returns is the integer moved by its count. The rounding of a negative value is the one
exception: an addition to words that are all ones has no word for its carry, and zero is returned.
-/

namespace TachyonEngine.Vm

open Lib Lib.Capacity

namespace BigIntValue

/-- What the shifts of a value by a count return. -/
structure ShiftExact (val cnt : BigIntValue) (left : Bool) : Prop where
  /-- The canonical value of the integer moved by the count. -/
  exact : Computes (moved val.toInt (placesUp cnt.toInt left)) (val.shift cnt left)
  /-- A right shift by a count that is not a `usize` leaves the sign. -/
  beyond : placesUp cnt.toInt left < 0 → cnt.asUsizeIfFits = none →
    Computes (if val.negative then -1 else 0) (val.shift cnt left)

section Direction

variable {val cnt : BigIntValue} {left : Bool}

/-- The places go down by a count that is not zero, against the direction of a left shift. -/
theorem Canonical.direction_of_down (hc : cnt.Canonical) (hdown : placesUp cnt.toInt left < 0) :
    cnt.isZero = false ∧ (left != cnt.negative) = false := by
  have hne : cnt.toInt ≠ 0 := by
    intro hz
    rw [placesUp, hz] at hdown
    split at hdown
    · exact absurd hdown (by decide)
    · exact absurd hdown (by decide)
  constructor
  · rw [Bool.eq_false_iff]
    intro hz
    exact hne (hc.isZero_iff.mp hz)
  · rw [hc.negative_eq]
    rw [placesUp] at hdown
    cases left with
    | false =>
      simp only [Bool.false_eq_true, if_false] at hdown
      rw [decide_eq_false (by omega)]
      rfl
    | true =>
      simp only [if_true] at hdown
      rw [decide_eq_true hdown]
      rfl

/-- A right shift of a value that is not zero. -/
theorem shift_of_down (hv : val.isZero = false) (hc : cnt.Canonical)
    (hdown : placesUp cnt.toInt left < 0) :
    val.shift cnt left =
      match cnt.asUsizeIfFits with
      | none => pure (fromI64 (if val.negative then -1 else 0))
      | some shift => val.shiftRightArithmetic shift := by
  obtain ⟨hz, hdirection⟩ := hc.direction_of_down hdown
  simp only [shift, hv, hz, hdirection]
  rfl

theorem computes_shift_beyond (hv : val.Canonical) (hc : cnt.Canonical)
    (hdown : placesUp cnt.toInt left < 0) (hn : cnt.asUsizeIfFits = none) :
    Computes (if val.negative then -1 else 0) (val.shift cnt left) := by
  cases hz : val.isZero with
  | true =>
    have hplain : val.negative = false := hv.zero (List.isEmpty_iff.mp hz)
    have hshift : val.shift cnt left = pure val := by
      simp only [shift, hz, Bool.true_or, if_true]
    rw [hshift, hplain]
    exact Yields.pure ⟨hv, hv.isZero_iff.mp hz⟩
  | false =>
    rw [shift_of_down hz hc hdown, hn]
    cases val.negative with
    | false | true => exact Yields.pure (denotes_fromI64 (by decide))

end Direction

/-! ## The carry that is lost -/

/-- A request for words that the limit on results admits, and that is granted. -/
theorem zeroedLimbs_granted {length : Nat} (hadmitted : length ≤ (maxResultBits + 63) / 64)
    {alloc : Allocator} (hgrants : alloc.refuses alloc.requests = false) :
    zeroedLimbs length alloc =
      .ok (List.replicate length 0, { alloc with requests := alloc.requests + 1 }) := by
  have hrsv : reserveLimbs alloc = .ok ((), { alloc with requests := alloc.requests + 1 }) := by
    simp only [reserveLimbs, Allocator.request, hgrants, Bool.not_false]
  rw [zeroedLimbs, ensureResultLimbs, if_neg (not_lt.mpr hadmitted)]
  show (reserveLimbs alloc >>= fun reserved => _) = _
  rw [hrsv]
  rfl

namespace LosesCarry

variable {val : BigIntValue} {shift : Nat}

section

variable (h : val.LosesCarry shift)

include h

theorem isZero : val.isZero = false := by
  rw [Bool.eq_false_iff]
  intro hempty
  have hshort := h.short
  rw [List.isEmpty_iff.mp hempty] at hshort
  exact absurd hshort (Nat.not_lt_zero _)

/-- The highest word is among those that are retained. -/
theorem shift_lt_bitLength : shift < val.bitLength := by
  by_contra hall
  have hfull := h.full
  rw [Nat.div_eq_of_lt (lt_of_lt_of_le (limbsValue_lt_bitLength val.limbs)
    (Nat.pow_le_pow_right (by decide) (not_lt.mp hall))), limbBase_pow] at hfull
  have hshort := h.short
  have hone : 2 ^ 1 ≤ 2 ^ (64 * (val.limbs.length - shift / 64)) :=
    Nat.pow_le_pow_right (by decide) (by omega)
  omega

/-- The words behind the addition are those of zero. -/
theorem limbsValue_rounded :
    limbsValue (addOneInPlace (shiftRightLimbs (shift % 64) (val.limbs.drop (shift / 64))))
    = 0 := by
  rw [limbsValue_addOneInPlace, limbsValue_retained, retained_length, h.full, Nat.mod_self]

theorem shiftRightArithmetic_eq (alloc : Allocator)
    (hgrants : alloc.refuses alloc.requests = false) :
    ∃ res alloc', val.shiftRightArithmetic shift alloc = .ok (res, alloc') ∧ res.toInt = 0 := by
  have hrounds := (discardedBitsNonzero_iff val.limbs shift).mpr h.rounds
  refine ⟨fromOwnedLimbs val.negative
      (addOneInPlace (shiftRightLimbs (shift % 64) (val.limbs.drop (shift / 64)))),
    { alloc with requests := alloc.requests + 1 }, ?_, ?_⟩
  · rw [shiftRightArithmetic, if_neg (not_le.mpr h.shift_lt_bitLength), hrounds, h.negative]
    show (zeroedLimbs _ alloc >>= fun words => _) = _
    rw [zeroedLimbs_granted h.admitted hgrants]
    rfl
  · rw [(denotes_fromOwnedLimbs _ _).2, h.limbsValue_rounded, signed_zero]

/-- The quotient of a negative value is not zero. -/
theorem quotient_ne_zero : val.toInt / 2 ^ shift ≠ 0 := by
  rw [toInt, signed_ediv, if_pos ⟨h.negative, h.rounds⟩, h.negative, signed]
  generalize limbsValue val.limbs / 2 ^ shift = quotient
  omega

end

end LosesCarry

theorem not_computes_of_losesCarry {val : BigIntValue} {shift : Nat} (h : val.LosesCarry shift) :
    ¬ Computes (val.toInt / 2 ^ shift) (val.shiftRightArithmetic shift) := by
  intro hcomputes
  obtain ⟨res, alloc', hrun, hz⟩ := h.shiftRightArithmetic_eq Allocator.granting rfl
  have hdenotes : Denotes (val.toInt / 2 ^ shift) res := hcomputes.of_ok hrun
  apply h.quotient_ne_zero
  rw [← hdenotes.2, hz]

/-- A count by which a value can be shifted to the right is a `usize`. -/
theorem asUsizeIfFits_of_lt {val cnt : BigIntValue} (hc : cnt.Canonical)
    (hbits : val.bitLength ≤ 2 ^ 64) (hlt : cnt.toInt.natAbs < val.bitLength) :
    cnt.asUsizeIfFits = some cnt.toInt.natAbs := by
  rcases cnt.asUsizeIfFits_eq with ⟨-, hlong⟩ | hsome
  · have hne : cnt.limbs ≠ [] := by
      intro hnil
      rw [hnil] at hlong
      exact absurd hlong (by decide)
    have hpow := hc.limbs.pow_le hne
    have hword := Nat.pow_le_pow_right (n := limbBase) (by decide)
      (show 1 ≤ cnt.limbs.length - 1 by omega)
    rw [natAbs_toInt] at hlt
    simp only [limbBase] at hword hpow
    omega
  · exact hsome

/-- The shifts of a value whose bits are counted by a `usize` are exact, up to the carry that a
right shift loses. -/
theorem shiftExact_iff {val cnt : BigIntValue} (hv : val.Canonical) (hc : cnt.Canonical)
    (left : Bool) (hbits : val.bitLength < 2 ^ 64) :
    ShiftExact val cnt left ↔
      ¬ (placesUp cnt.toInt left < 0 ∧ val.LosesCarry cnt.toInt.natAbs) := by
  constructor
  · rintro hexact ⟨hdown, hloses⟩
    have hcomputes := hexact.exact
    have hfits := asUsizeIfFits_of_lt hc hbits.le hloses.shift_lt_bitLength
    have hplaces : (-placesUp cnt.toInt left).toNat = cnt.toInt.natAbs := by
      have habs : (placesUp cnt.toInt left).natAbs = cnt.toInt.natAbs := by
        rw [placesUp]
        split
        · rfl
        · exact Int.natAbs_neg _
      omega
    rw [shift_of_down hloses.isZero hc hdown, hfits, moved, if_neg (Int.not_le.mpr hdown),
      hplaces] at hcomputes
    exact not_computes_of_losesCarry hloses hcomputes
  · intro hkeeps
    constructor
    · exact computes_shift hv hc left hbits.le fun hdown hloses => hkeeps ⟨hdown, hloses⟩
    · exact computes_shift_beyond hv hc

/-- Nothing is rounded where the dropped word is zero, and there is room where the shift is not by
whole words. -/
theorem shiftExact_fullWords :
    ShiftExact ⟨true, [0, 18446744073709551615]⟩ ⟨false, [64]⟩ false ∧
      ShiftExact ⟨true, [1, 18446744073709551615]⟩ ⟨false, [63]⟩ false := by
  constructor
  · refine (shiftExact_iff (by decide) (by decide) false (by decide)).mpr ?_
    rintro ⟨-, hloses⟩
    obtain ⟨limb, hm, hlimb⟩ := hloses.dropped
    have htake : ([0, 18446744073709551615] : List UInt64).take 1 = [0] := rfl
    exact hlimb (List.mem_singleton.mp (htake ▸ hm))
  · refine (shiftExact_iff (by decide) (by decide) false (by decide)).mpr ?_
    rintro ⟨-, hloses⟩
    exact absurd hloses.aligned (by decide)

/-- A negative value of two words of ones loses its carry, and its quotient by `2 ^ 64` is given as
zero. -/
theorem not_shiftExact : ¬ ShiftExact ⟨true, [18446744073709551615, 18446744073709551615]⟩
    ⟨false, [64]⟩ false := by
  intro hexact
  have hloses : LosesCarry ⟨true, [18446744073709551615, 18446744073709551615]⟩ 64 := by
    refine ⟨rfl, rfl, by decide, ⟨18446744073709551615, List.mem_singleton.mpr rfl, by decide⟩,
      ?_, by decide⟩
    intro limb hm
    rw [List.mem_singleton.mp hm]
    rfl
  have hcomputes : Computes _ ((⟨true, [18446744073709551615, 18446744073709551615]⟩ : BigIntValue)
    |>.shiftRightArithmetic 64) := hexact.exact
  exact not_computes_of_losesCarry hloses hcomputes

end BigIntValue

end TachyonEngine.Vm
