import TachyonEngine.Vm.BigIntArithmetic

/-!
# `BigInt.asIntN` and `BigInt.asUintN`

The residue of a value modulo a power of two. A negative magnitude is complemented in words that are
cut to the width, and the words are masked to the bits of the width. A residue that is negative is
the difference to the power of two.
-/

namespace TachyonEngine.Vm

open Lib Lib.Capacity List

namespace BigIntValue

/-- The low word in two's complement. -/
def moduloU64 (value : BigIntValue) : UInt64 :=
  let low := value.limbs.headD 0
  if value.negative then 0 - low else low

/-- The words of a value in two's complement, cut to so many words. -/
def residueLimbs (value : BigIntValue) (limbCount : Nat) (zeroes : List UInt64) : List UInt64 :=
  let copied := min value.limbs.length limbCount
  let residue := value.limbs.take copied ++ zeroes.drop copied
  if value.negative then negateLimbs residue else residue

/-- Clears the bits of the last word from the width on. -/
def maskLast (residue : List UInt64) (bits : Nat) : List UInt64 :=
  if bits % 64 ≠ 0 then
    residue.modify (residue.length - 1) fun limb => limb &&& ((1 <<< UInt64.ofNat (bits % 64)) - 1)
  else residue

/-- The value modulo `2 ^ bits`, in the signed range if asked. -/
def truncateToBits (value : BigIntValue) (bits : Nat) (isSigned : Bool) : Arithmetic BigIntValue :=
  if bits = 0 then pure (fromU64 0)
  else do
    let rounded ← checkedLength bits 63
    let limbCount := rounded / 64
    ensureResultLimbs limbCount
    let zeroes ← zeroedLimbs limbCount
    let residue := maskLast (value.residueLimbs limbCount zeroes) bits
    if isSigned && bitIsSet residue (bits - 1) then do
      let zeroes ← zeroedLimbs (limbCount + 1)
      let magnitude ← subtractMagnitudes
        (zeroes.set (bits / 64) (1 <<< UInt64.ofNat (bits % 64))) residue
      pure (fromOwnedLimbs true magnitude)
    else pure (fromOwnedLimbs false residue)

/-- The numbers of a width. -/
def Fits (bits : Nat) (isSigned : Bool) (n : Int) : Prop :=
  if bits = 0 then n = 0
  else if isSigned then -2 ^ (bits - 1) ≤ n ∧ n < 2 ^ (bits - 1)
  else 0 ≤ n ∧ n < 2 ^ bits

variable {bits cnt : Nat} {limbs : List UInt64}

theorem negateLimbs_modEq (limbs : List UInt64) :
    (limbsValue (negateLimbs limbs) : Int) ≡ -limbsValue limbs [ZMOD 2 ^ (64 * limbs.length)] := by
  have hcomplement := limbsValue_complement limbs
  rw [negateLimbs, limbsValue_addOneInPlace, length_map, limbBase_pow]
  rw [limbBase_pow] at hcomplement
  push_cast
  refine (Int.mod_modEq _ _).trans (Int.modEq_iff_dvd.mpr ⟨-1, ?_⟩)
  linarith

/-- The words that are copied are those of the number modulo the range of the copy. -/
theorem limbsValue_copied (limbs : List UInt64) (cnt : Nat) :
    limbsValue (limbs.take (min limbs.length cnt) ++
      (List.replicate cnt 0).drop (min limbs.length cnt)) = limbsValue limbs % 2 ^ (64 * cnt) := by
  rw [drop_replicate, limbsValue_append_zeros, ← limbBase_pow]
  rcases le_total limbs.length cnt with hle | hle
  · have hlt := lt_of_lt_of_le (limbsValue_lt limbs)
      (Nat.pow_le_pow_right (by decide : 0 < limbBase) hle)
    rw [min_eq_left hle, take_length, Nat.mod_eq_of_lt hlt]
  · have hsplit := limbsValue_append (limbs.take cnt) (limbs.drop cnt)
    have hlt := limbsValue_lt (limbs.take cnt)
    rw [take_append_drop, length_take_of_le hle] at hsplit
    rw [length_take_of_le hle] at hlt
    rw [min_eq_right hle, hsplit, Nat.add_mul_mod_self_left, Nat.mod_eq_of_lt hlt]

theorem residueLimbs_facts (val : BigIntValue) (cnt : Nat) :
    (val.residueLimbs cnt (List.replicate cnt 0)).length = cnt ∧
      (limbsValue (val.residueLimbs cnt (List.replicate cnt 0)) : Int) ≡ val.toInt
        [ZMOD 2 ^ (64 * cnt)] := by
  have hcopied := limbsValue_copied val.limbs cnt
  have hlen : (val.limbs.take (min val.limbs.length cnt) ++
      (replicate cnt 0).drop (min val.limbs.length cnt)).length = cnt := by
    rw [length_append, length_take, length_drop, length_replicate]
    omega
  have hv := Int.mod_modEq (limbsValue val.limbs : Int) (2 ^ (64 * cnt))
  simp only [residueLimbs, toInt, signed]
  generalize val.limbs.take (min val.limbs.length cnt) ++
    (replicate cnt 0).drop (min val.limbs.length cnt) = copy at *
  rw [← Nat.cast_ofNat, ← Nat.cast_pow, ← Int.natCast_mod, ← hcopied] at hv
  split
  · have hnegated := negateLimbs_modEq copy
    rw [hlen] at hnegated
    exact ⟨(negateLimbs_length copy).trans hlen, hnegated.trans hv.neg⟩
  · exact ⟨hlen, hv⟩

/-- The mask keeps the number modulo the power of two. -/
theorem limbsValue_maskLast (hlow : 64 * limbs.length < bits + 64)
    (hhigh : bits ≤ 64 * limbs.length)
    (hpos : 0 < bits) : limbsValue (maskLast limbs bits) = limbsValue limbs % 2 ^ bits := by
  rw [maskLast]
  split
  · apply Nat.eq_of_testBit_eq
    intro i
    have hbit : bits % 64 < 64 := Nat.mod_lt _ (by decide)
    have hmask : ((1 : UInt64) <<< UInt64.ofNat (bits % 64) - 1).toNat = 2 ^ (bits % 64) - 1 := by
      have hshift := toNat_one_shiftLeft hbit
      have hone : (1 : UInt64) ≤ 1 <<< UInt64.ofNat (bits % 64) := by
        rw [UInt64.le_iff_toNat_le, hshift]
        exact Nat.one_le_two_pow
      rw [UInt64.toNat_sub_of_le _ _ hone, hshift, UInt64.toNat_one]
    rw [Nat.testBit_mod_two_pow, testBit_limbsValue, testBit_limbsValue,
      getD_eq_getElem?_getD, getD_eq_getElem?_getD, getElem?_modify]
    by_cases hword : limbs.length - 1 = i / 64
    · have hroom : i / 64 < limbs.length := by omega
      rw [getElem?_eq_getElem hroom]
      simp only [hword, if_true, Option.map_eq_map, Option.map_some, Option.getD_some,
        UInt64.toNat_and, hmask,
        Nat.testBit_and, Nat.testBit_two_pow_sub_one]
      rw [Bool.and_comm]
      congr 1
      rw [decide_eq_decide]
      omega
    · simp only [if_neg hword, Option.map_eq_map, Option.map_id']
      by_cases hin : i / 64 < limbs.length
      · rw [decide_eq_true (by omega : i < bits), Bool.true_and]
      · rw [getElem?_eq_none (not_lt.mp hin)]
        simp
  · have heq : bits = 64 * limbs.length := by omega
    rw [heq, ← limbBase_pow, Nat.mod_eq_of_lt (limbsValue_lt limbs)]

theorem limbsValue_modulus (hroom : bits / 64 < cnt) :
    limbsValue ((List.replicate cnt (0 : UInt64)).set (bits / 64)
      (1 <<< UInt64.ofNat (bits % 64))) = 2 ^ bits := by
  have hset : (replicate cnt (0 : UInt64)).set (bits / 64) (1 <<< UInt64.ofNat (bits % 64)) =
      setBit (replicate cnt 0) bits := by
    rw [setBit, modify_eq_set_getElem?, getElem?_replicate, if_pos hroom]
    simp
  rw [hset, limbsValue_setBit (by rwa [length_replicate]), limbsValue_replicate_zero, Nat.zero_or]

/-- The masked words are the residue of the integer. -/
theorem maskedResidue_facts (val : BigIntValue) (hpos : 0 < bits) {masked : List UInt64}
    (hmasked : maskLast (val.residueLimbs ((bits + 63) / 64)
      (List.replicate ((bits + 63) / 64) 0)) bits = masked) :
    masked.length = (bits + 63) / 64 ∧ limbsValue masked < 2 ^ bits ∧
      (limbsValue masked : Int) ≡ val.toInt [ZMOD 2 ^ bits] := by
  obtain ⟨hlen, hresidue⟩ := residueLimbs_facts val ((bits + 63) / 64)
  generalize val.residueLimbs ((bits + 63) / 64) (replicate ((bits + 63) / 64) 0) = residue at *
  have hmask : limbsValue (maskLast residue bits) = _ :=
    limbsValue_maskLast (by omega) (by omega) hpos
  subst hmasked
  refine ⟨?_, hmask ▸ Nat.mod_lt _ (Nat.two_pow_pos bits), ?_⟩
  · rw [maskLast]
    split
    · rw [length_modify, hlen]
    · exact hlen
  · rw [hmask]
    exact (Int.mod_modEq _ _).trans (hresidue.of_dvd (pow_dvd_pow 2 (by omega)))

/-- The highest bit of a width tells whether a residue is in the upper half. -/
theorem bitIsSet_sign (hpos : 0 < bits) (hlt : limbsValue limbs < 2 ^ bits) :
    bitIsSet limbs (bits - 1) = true ↔ (2 : Int) ^ (bits - 1) ≤ limbsValue limbs := by
  have hhalf := Nat.two_pow_pred_mul_two hpos
  rw [bitIsSet_eq, show (2 : Int) ^ (bits - 1) ≤ limbsValue limbs ↔
    2 ^ (bits - 1) ≤ limbsValue limbs by norm_cast]
  refine ⟨Nat.ge_two_pow_of_testBit, fun hge => ?_⟩
  rw [Nat.testBit_eq_decide_div_mod_eq, decide_eq_true_eq,
    Nat.div_eq_of_lt_le (k := 1) (by omega) (by omega)]

/-- The result is the residue of the integer in the range of the width. -/
theorem yields_truncateToBits (val : BigIntValue) (bits : Nat) (isSigned : Bool) :
    Yields (fun res => res.Canonical ∧ res.toInt ≡ val.toInt [ZMOD 2 ^ bits] ∧
      Fits bits isSigned res.toInt) (val.truncateToBits bits isSigned) := by
  rw [truncateToBits]
  split_ifs with hz
  · subst hz
    exact Yields.pure ⟨(denotes_fromU64 0).1, by simp [Int.modEq_one], rfl⟩
  · have hpos : 0 < bits := pos_of_ne_zero hz
    refine Yields.bind (yields_checkedLength bits 63) fun _ hrounded => ?_
    refine Yields.bind (yields_ensureResultLimbs _) fun _ _ => ?_
    refine Yields.bind (yields_zeroedLimbs _) fun zeroes hzeroes => ?_
    subst hrounded hzeroes
    generalize hmasked : maskLast (val.residueLimbs ((bits + 63) / 64)
      (replicate ((bits + 63) / 64) 0)) bits = masked
    obtain ⟨hlen, hlt, hmod⟩ := maskedResidue_facts val hpos hmasked
    have hhalf := Nat.two_pow_pred_mul_two hpos
    have hhalf' : (2 : Int) ^ (bits - 1) * 2 = 2 ^ bits := by exact_mod_cast hhalf
    have hlt' : (limbsValue masked : Int) < 2 ^ bits := by exact_mod_cast hlt
    simp only [Bool.and_eq_true, bitIsSet_sign hpos hlt]
    split_ifs with hboth
    · refine Yields.bind (yields_zeroedLimbs _) fun zeroes hzeroes => ?_
      subst hzeroes
      have hmodulus := limbsValue_modulus (by omega : bits / 64 < (bits + 63) / 64 + 1)
      refine Yields.bind (yields_subtractMagnitudes ?_ (hmodulus ▸ hlt.le)) fun magnitude hmag =>
        Yields.pure ?_
      · rw [length_set, length_replicate]
        omega
      · obtain ⟨hcanon, hv⟩ := denotes_fromOwnedLimbs true magnitude
        have hint : (fromOwnedLimbs true magnitude).toInt = limbsValue masked - 2 ^ bits := by
          rw [hv, signed, if_pos rfl, hmag, hmodulus, Nat.cast_sub hlt.le]
          push_cast
          ring
        refine ⟨hcanon, hint ▸ (Int.modEq_iff_dvd.mpr ⟨1, by ring⟩).trans hmod, ?_⟩
        rw [Fits, if_neg hz, if_pos hboth.1]
        omega
    · obtain ⟨hcanon, hv⟩ := denotes_fromOwnedLimbs false masked
      refine Yields.pure ⟨hcanon, hv ▸ hmod, ?_⟩
      rw [Fits, if_neg hz, hv, signed, if_neg Bool.false_ne_true]
      split_ifs with hsigned
      · have hless := not_le.mp fun hge => hboth ⟨hsigned, hge⟩
        exact ⟨by omega, hless⟩
      · exact ⟨Int.natCast_nonneg _, hlt'⟩

theorem moduloU64_modEq (val : BigIntValue) :
    (val.moduloU64.toNat : Int) ≡ val.toInt [ZMOD 2 ^ 64] := by
  have hlow : ((val.limbs.headD 0).toNat : Int) ≡ limbsValue val.limbs [ZMOD 2 ^ 64] := by
    rw [limbsValue_headD_tail]
    refine Int.modEq_iff_dvd.mpr ⟨limbsValue val.limbs.tail, ?_⟩
    push_cast
    ring
  rw [moduloU64, toInt, signed]
  split
  · rw [UInt64.toNat_sub, UInt64.toNat_zero]
    push_cast
    refine (Int.mod_modEq _ _).trans (Int.ModEq.trans ?_ hlow.neg)
    rw [Nat.cast_sub (val.limbs.headD 0).toNat_lt.le]
    exact Int.modEq_iff_dvd.mpr ⟨-1, by ring⟩
  · exact hlow

/-- `asIntN` and `asUintN` compute the residue in the range of the width, and the low word is the
residue of 64 bits. -/
theorem truncateToBits_residue (val : BigIntValue) :
    (∀ bits isSigned, Yields (fun res => res.Canonical ∧
      res.toInt ≡ val.toInt [ZMOD 2 ^ bits] ∧ Fits bits isSigned res.toInt)
      (val.truncateToBits bits isSigned)) ∧
    Computes val.moduloU64.toNat (val.truncateToBits 64 false) := by
  refine ⟨yields_truncateToBits val, fun st => ?_⟩
  refine (yields_truncateToBits val 64 false st).imp fun res hres => ?_
  obtain ⟨hcanon, hmod, hnonneg, hlt⟩ := hres
  refine ⟨hcanon, ?_⟩
  have hs := hmod.trans (moduloU64_modEq val).symm
  have hword : (val.moduloU64.toNat : Int) < 2 ^ 64 := by exact_mod_cast val.moduloU64.toNat_lt
  rw [Int.ModEq, Int.emod_eq_of_lt hnonneg hlt, Int.emod_eq_of_lt (Int.natCast_nonneg _)
    hword] at hs
  exact hs

end BigIntValue

end TachyonEngine.Vm
