import Mathlib

/-!
# Rounding to a floating-point grid

The magnitudes of a binary floating-point format are a strictly increasing sequence of numbers,
counted in units of the smallest one. `RoundsTo` is rounding to nearest, ties to even, in such a
sequence: the index of a nearest member, and an even one where two members are nearest. The last
member stands for infinity. `roundsTo_normalized` rounds the leading bits of a number.
-/

namespace TachyonEngine.Lib

/-! ## Nearest members of a sequence -/

/-- The index of the nearest member of a sequence, up to a last one, with ties to even. -/
structure RoundsTo (units : Nat → Nat) (last exact index : Nat) : Prop where
  le_last : index ≤ last
  nearest : ∀ other ≤ last, Nat.dist (units index) exact ≤ Nat.dist (units other) exact
  even : ∀ other ≤ last, other ≠ index →
    Nat.dist (units other) exact = Nat.dist (units index) exact → index % 2 = 0

section Sequence

variable {units : Nat → Nat} {last exact : Nat}

section

variable (hmono : StrictMono units)

include hmono

/-- Two nearest members are neighbours, so one of them is odd. -/
theorem RoundsTo.unique {idx other : Nat} (hi : RoundsTo units last exact idx)
    (ho : RoundsTo units last exact other) : idx = other := by
  have hdist := le_antisymm (hi.nearest other ho.le_last) (ho.nearest idx hi.le_last)
  by_contra hne
  have heven := hi.even other ho.le_last (Ne.symm hne) hdist.symm
  have heven' := ho.even idx hi.le_last hne hdist
  -- a member between the two would be nearer than both
  rcases lt_or_gt_of_ne hne with hlt | hlt
  · have hfirst := hmono (show idx < idx + 1 by omega)
    have hsec := hmono (show idx + 1 < other by omega)
    have hnearer := hi.nearest (idx + 1) (by have := ho.le_last; omega)
    simp only [Nat.dist] at hdist hnearer
    omega
  · have hfirst := hmono (show other < other + 1 by omega)
    have hsec := hmono (show other + 1 < idx by omega)
    have hnearer := ho.nearest (other + 1) (by have := hi.le_last; omega)
    simp only [Nat.dist] at hdist hnearer
    omega

/-- Between two neighbours the lower one is nearest up to the middle. -/
theorem roundsTo_lower {idx : Nat} (hl : idx ≤ last) (hle : units idx ≤ exact)
    (hmid : 2 * exact ≤ units idx + units (idx + 1))
    (htie : 2 * exact = units idx + units (idx + 1) → idx % 2 = 0) :
    RoundsTo units last exact idx where
  le_last := hl
  nearest := by
    intro other _
    simp only [Nat.dist]
    rcases lt_or_ge idx other with hlt | hge
    · have := hmono.monotone (show idx + 1 ≤ other from hlt)
      omega
    · have := hmono.monotone hge
      omega
  even := by
    intro other _ hne hdist
    apply htie
    simp only [Nat.dist] at hdist
    rcases lt_or_gt_of_ne hne with hlt | hlt
    · have := hmono hlt
      omega
    · have := hmono.monotone (show idx + 1 ≤ other from hlt)
      omega

/-- Between two neighbours the upper one is nearest from the middle on. -/
theorem roundsTo_upper {idx : Nat} (hl : idx + 1 ≤ last) (hle : exact ≤ units (idx + 1))
    (hmid : units idx + units (idx + 1) ≤ 2 * exact)
    (htie : 2 * exact = units idx + units (idx + 1) → (idx + 1) % 2 = 0) :
    RoundsTo units last exact (idx + 1) where
  le_last := hl
  nearest := by
    intro other _
    simp only [Nat.dist]
    rcases lt_or_ge other (idx + 1) with hlt | hge
    · have := hmono.monotone (Nat.le_of_lt_succ hlt)
      omega
    · have := hmono.monotone hge
      omega
  even := by
    intro other _ hne hdist
    apply htie
    simp only [Nat.dist] at hdist
    rcases lt_or_gt_of_ne hne with hlt | hlt
    · have := hmono.monotone (Nat.le_of_lt_succ hlt)
      omega
    · have := hmono hlt
      omega

/-- Beyond the last member there is nothing nearer. -/
theorem roundsTo_last (hge : units last ≤ exact) : RoundsTo units last exact last where
  le_last := le_refl last
  nearest := by
    intro other ho
    have := hmono.monotone ho
    simp only [Nat.dist]
    omega
  even := by
    intro other ho hne hdist
    have := hmono (lt_of_le_of_ne ho hne)
    simp only [Nat.dist] at hdist
    omega

/-- An even last member takes all from the middle below it on. -/
theorem roundsTo_last_iff (hpos : 0 < last) (heven : last % 2 = 0) :
    RoundsTo units last exact last ↔ units (last - 1) + units last ≤ 2 * exact := by
  obtain ⟨below, rfl⟩ := Nat.exists_eq_succ_of_ne_zero hpos.ne'
  have hless := hmono (Nat.lt_succ_self below)
  rw [Nat.succ_eq_add_one, Nat.add_sub_cancel] at *
  constructor
  · intro h
    have hnearest := h.nearest below (Nat.le_succ below)
    simp only [Nat.dist] at hnearest
    omega
  · intro hmid
    rcases le_total (units (below + 1)) exact with hbeyond | hle
    · exact roundsTo_last hmono hbeyond
    · exact roundsTo_upper hmono (le_refl _) hle hmid fun _ => heven

end

end Sequence

/-! ## Binary formats -/

/-- The magnitude of a format with `width` stored fraction bits, in units of the smallest positive
one: the fraction below the first exponent, and the fraction behind a leading bit above it. -/
def gridUnits (width index : Nat) : Nat :=
  if index / 2 ^ width = 0 then index % 2 ^ width
  else (2 ^ width + index % 2 ^ width) * 2 ^ (index / 2 ^ width - 1)

/-- A significand of full width stands `scale` exponents above the first one. The significand one
above the full width is the first of the next exponent. -/
theorem gridUnits_normalized (width scale : Nat) {significand : Nat}
    (hlow : 2 ^ width ≤ significand) (hhigh : significand ≤ 2 ^ (width + 1)) :
    gridUnits width (scale * 2 ^ width + significand) = significand * 2 ^ scale := by
  have hpos := Nat.two_pow_pos width
  rcases lt_or_ge significand (2 ^ (width + 1)) with hlt | hge
  · have hi : scale * 2 ^ width + significand = (significand - 2 ^ width) + 2 ^ width *
        (scale + 1) := by
      rw [mul_add, mul_comm scale]
      omega
    have hfrac : significand - 2 ^ width < 2 ^ width := by
      omega
    rw [gridUnits, hi, Nat.add_mul_div_left _ _ hpos, Nat.add_mul_mod_self_left,
      Nat.div_eq_of_lt hfrac, Nat.mod_eq_of_lt hfrac, if_neg (by omega)]
    congr 1
    · omega
    · congr 1
      omega
  · have heq : significand = 2 * 2 ^ width := by
      omega
    have hi : scale * 2 ^ width + significand = 0 + 2 ^ width * (scale + 2) := by
      rw [mul_add, mul_comm scale]
      omega
    rw [gridUnits, hi, Nat.add_mul_div_left _ _ hpos, Nat.add_mul_mod_self_left, Nat.zero_div,
      Nat.zero_mod, if_neg (by omega), heq, show 0 + (scale + 2) - 1 = scale + 1 by omega]
    ring

theorem gridUnits_subnormal {width idx : Nat} (h : idx ≤ 2 ^ width) :
    gridUnits width idx = idx := by
  rcases lt_or_eq_of_le h with hlt | heq
  · rw [gridUnits, Nat.div_eq_of_lt hlt, if_pos rfl, Nat.mod_eq_of_lt hlt]
  · have hnormal := gridUnits_normalized width 0 (le_refl (2 ^ width))
      (Nat.pow_le_pow_right (by decide) (Nat.le_succ width))
    rw [Nat.zero_mul, zero_add, pow_zero, mul_one] at hnormal
    rw [heq, hnormal]

theorem gridUnits_strictMono (width : Nat) : StrictMono (gridUnits width) := by
  apply strictMono_nat_of_lt_succ
  intro idx
  have hpos := Nat.two_pow_pos width
  rcases lt_or_ge idx (2 ^ width) with hlt | hge
  · rw [gridUnits_subnormal hlt.le, gridUnits_subnormal hlt]
    exact Nat.lt_succ_self idx
  · -- the exponent above the first one, and the significand behind it
    have hexp : 1 ≤ idx / 2 ^ width := (Nat.le_div_iff_mul_le hpos).mpr (by omega)
    have hdecompose := Nat.mod_add_div idx (2 ^ width)
    have hi : idx = (idx / 2 ^ width - 1) * 2 ^ width + (idx % 2 ^ width + 2 ^ width) := by
      rw [Nat.sub_mul, one_mul, mul_comm (idx / 2 ^ width)]
      have := Nat.mul_le_mul_left (2 ^ width) hexp
      omega
    generalize hscale : idx / 2 ^ width - 1 = scale at hi
    rw [hi, add_assoc, gridUnits_normalized width scale (by omega) (by omega),
      gridUnits_normalized width scale (by omega) (by omega)]
    exact mul_lt_mul_of_pos_right (Nat.lt_succ_self _) (Nat.two_pow_pos scale)

/-! ## Rounding the leading bits -/

/-- The quotient by a power of two, rounded to nearest with ties to even. -/
def roundHalfEven (exact shift : Nat) : Nat :=
  let quotient := exact / 2 ^ shift
  let rest := exact % 2 ^ shift
  if 2 * rest < 2 ^ shift ∨ 2 * rest = 2 ^ shift ∧ quotient % 2 = 0 then quotient else quotient + 1

/-- Rounding the leading `width + 1` bits of a number rounds it to the grid. -/
theorem roundsTo_normalized {width scale last exact : Nat} (hwidth : 0 < width)
    (hlow : 2 ^ (width + scale) ≤ exact) (hhigh : exact < 2 ^ (width + 1 + scale)) :
    RoundsTo (gridUnits width) last exact
      (min (scale * 2 ^ width + roundHalfEven exact scale) last) := by
  have hmono := gridUnits_strictMono width
  have hpos := Nat.two_pow_pos scale
  have hquotient_low : 2 ^ width ≤ exact / 2 ^ scale := by
    rw [Nat.le_div_iff_mul_le hpos, ← Nat.pow_add]
    exact hlow
  have hquotient_high : exact / 2 ^ scale < 2 ^ (width + 1) := by
    rw [Nat.div_lt_iff_lt_mul hpos, ← Nat.pow_add]
    exact hhigh
  have hdecompose := Nat.mod_add_div exact (2 ^ scale)
  have hrest := Nat.mod_lt exact hpos
  have hparity : 2 ^ width % 2 = 0 := by
    obtain ⟨less, rfl⟩ := Nat.exists_eq_succ_of_ne_zero hwidth.ne'
    rw [Nat.pow_succ, Nat.mul_mod_left]
  have hi : (scale * 2 ^ width + exact / 2 ^ scale) % 2 = exact / 2 ^ scale % 2 := by
    rw [Nat.add_mod, Nat.mul_mod, hparity, Nat.mul_zero, Nat.zero_add, Nat.mod_mod]
  have hlower := gridUnits_normalized width scale hquotient_low hquotient_high.le
  have hupper := gridUnits_normalized width scale (show 2 ^ width ≤ exact / 2 ^ scale + 1 by omega)
    hquotient_high
  rw [Nat.add_mul, Nat.one_mul, ← Nat.add_assoc] at hupper
  rw [Nat.mul_comm] at hdecompose
  simp only [roundHalfEven]
  generalize exact / 2 ^ scale = quotient at *
  generalize exact % 2 ^ scale = rest at *
  generalize scale * 2 ^ width = base at *
  by_cases hins : base + quotient + 1 ≤ last
  · split_ifs with hdown
    · rw [Nat.min_eq_left (by omega)]
      apply roundsTo_lower hmono (by omega)
      · omega
      · omega
      · rcases hdown with hless | ⟨-, heven⟩
        · omega
        · omega
    · rw [← Nat.add_assoc, Nat.min_eq_left (by omega)]
      apply roundsTo_upper hmono (by omega)
      · omega
      · omega
      · intro htie
        omega
  · have hbeyond : last ≤ base + quotient := by omega
    have hle := hmono.monotone hbeyond
    have hmin : min (base + if 2 * rest < 2 ^ scale ∨ 2 * rest = 2 ^ scale ∧
      quotient % 2 = 0 then quotient
        else quotient + 1) last = last := by
      apply Nat.min_eq_right
      split
      · omega
      · omega
    rw [hmin]
    exact roundsTo_last hmono (by omega)

/-- A number that the grid has is its own rounding. -/
theorem roundsTo_exact {units : Nat → Nat} (hmono : StrictMono units) {last idx : Nat}
    (hl : idx ≤ last) : RoundsTo units last (units idx) idx := by
  have hn := hmono (show idx < idx + 1 by omega)
  exact roundsTo_lower hmono hl (le_refl _) (by omega) (fun htie => by omega)

end TachyonEngine.Lib
