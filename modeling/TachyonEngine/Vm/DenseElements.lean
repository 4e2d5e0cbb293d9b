import TachyonEngine.Vm.DefineProperty

/-!
# The elements of an Array

What the backing stores after each of its operations. Past the used part a backing holds holes only
(`ArrayElements.Backed`), so the element at an index is what its slot holds, and an operation
changes the elements as it changes the slots.
-/

namespace TachyonEngine.Vm

open PropertyStorage ArrayElements List

open Lib

namespace ArrayElements

variable {elements elements' : ArrayElements} {idx : Nat} {val : Value}

/-- The slots past the used part are holes, and the used part is a 32-bit number. -/
structure Backed (elements : ArrayElements) : Prop where
  used_le : elements.used ≤ elements.slots.length
  used_lt : elements.used < 2 ^ 32
  holes : ∀ i v, elements.used ≤ i → elements.slots[i]? = some v → v = PropertyStorage.hole

theorem isHole_eq_false (h : val ≠ hole) : isHole val = false := by
  simp only [isHole, decide_eq_false_iff_not]
  exact h

/-- The element of a slot. -/
def content (slot : Option Value) : Option Value := slot.filter fun val => !isHole val

theorem content_hole : content (some hole) = none := by decide

theorem content_value (h : val ≠ hole) : content (some val) = some val := by
  simp only [content, Option.filter, isHole_eq_false h, Bool.not_false, if_true]

section

variable (h : elements.Backed)

include h

theorem Backed.value_eq (i : Nat) : elements.value i = content elements.slots[i]? := by
  simp only [value]
  split_ifs with hused
  · rfl
  · cases hsl : elements.slots[i]? with
    | none => rfl
    | some v =>
      rw [h.holes i v (Nat.le_of_not_lt hused) hsl]
      exact content_hole.symm

omit h in
theorem backed_withCapacity (cap : Nat) : (withCapacity cap).Backed := by
  refine ⟨Nat.zero_le _, Nat.two_pow_pos 32, ?_⟩
  intro i v _ hsl
  exact (mem_replicate.mp (mem_of_getElem? hsl)).2

omit h in
theorem value_withCapacity (cap i : Nat) : (withCapacity cap).value i = none := by
  have hempty : ¬ i < (withCapacity cap).used := Nat.not_lt_zero i
  rw [value, if_neg hempty]

/-- A write changes one element. -/
theorem set_spec (hv : val ≠ hole) (hset : elements.set idx val = some elements') :
    elements'.Backed ∧ ∀ i, elements'.value i = if i = idx then some val else elements.value i := by
  have hwri : idx < elements.slots.length ∧ elements'.slots = elements.slots.set idx val ∧
      elements'.used = max elements.used (idx + 1) ∧ elements'.used < 2 ^ 32 := by
    have hsm := h.used_lt
    simp only [set] at hset
    split at hset
    · cases hset
    · split at hset
      · split at hset
        next hcounters =>
          cases hset
          have hmax : max elements.used (idx + 1) = idx + 1 := max_eq_right (by omega)
          exact ⟨by omega, rfl, hmax.symm, hcounters.2⟩
        · cases hset
      · have hmax : elements.used = max elements.used (idx + 1) := (max_eq_left (by omega)).symm
        split at hset
        · split at hset
          · cases hset
            exact ⟨by omega, rfl, hmax, hsm⟩
          · cases hset
        · cases hset
          exact ⟨by omega, rfl, hmax, hsm⟩
  obtain ⟨hix, hslots, hused, hsm⟩ := hwri
  have hbacked : elements'.Backed := by
    refine ⟨?_, hsm, ?_⟩
    · rw [hused, hslots, length_set]
      exact Nat.max_le.mpr ⟨h.used_le, hix⟩
    · intro i v hi hsl
      rw [hslots, getElem?_set_ne (by omega)] at hsl
      exact h.holes i v (by omega) hsl
  refine ⟨hbacked, ?_⟩
  intro i
  rw [hbacked.value_eq, h.value_eq, hslots]
  split_ifs with hi
  · subst hi
    rw [getElem?_set_self hix]
    exact content_value hv
  · rw [getElem?_set_ne (Ne.symm hi)]

/-- A deletion makes a hole of a present index. -/
theorem delete_spec (hdelete : elements.delete idx = some elements') :
    elements'.Backed ∧ (elements.value idx).isSome ∧
      ∀ i, elements'.value i = if i = idx then none else elements.value i := by
  simp only [delete] at hdelete
  split at hdelete
  · cases hdelete
  next slot hsl =>
    split_ifs at hdelete with hpres
    simp only [Bool.or_eq_true, decide_eq_true_eq, not_or, isHole] at hpres
    obtain ⟨hused, hhole⟩ := hpres
    have hix : idx < elements.slots.length := by
      have := h.used_le
      omega
    cases hdelete
    have hbacked : Backed
        { elements with
          slots := elements.slots.set idx hole
          holeCount := min (elements.holeCount + 1) (2 ^ 32 - 1) } := by
      refine ⟨?_, h.used_lt, ?_⟩
      · show elements.used ≤ (elements.slots.set idx hole).length
        rw [length_set]
        exact h.used_le
      · intro i v hi hsl
        have hi : elements.used ≤ i := hi
        rw [getElem?_set_ne (by omega)] at hsl
        exact h.holes i v hi hsl
    refine ⟨hbacked, ?_, ?_⟩
    · rw [h.value_eq, hsl, content_value hhole]
      rfl
    · intro i
      rw [hbacked.value_eq, h.value_eq]
      split_ifs with hi
      · subst hi
        rw [getElem?_set_self hix]
        exact content_hole
      · rw [getElem?_set_ne (Ne.symm hi)]

theorem delete_eq_none (hdelete : elements.delete idx = none) : elements.value idx = none := by
  simp only [delete] at hdelete
  rw [h.value_eq]
  split at hdelete
  next hsl =>
    rw [hsl]
    rfl
  next slot hsl =>
    split at hdelete
    next hab =>
      rw [Bool.or_eq_true, decide_eq_true_eq] at hab
      rw [hsl]
      rcases hab with hused | hhole
      · rw [h.holes idx slot hused hsl]
        exact content_hole
      · have hhole : slot = hole := by simpa only [isHole, decide_eq_true_eq] using hhole
        rw [hhole]
        exact content_hole
    · cases hdelete

/-- A truncation removes the indices from a length on. -/
theorem truncate_spec (length : Nat) :
    (elements.truncate length).Backed ∧
      ∀ i, (elements.truncate length).value i = if i < length then elements.value i else none := by
  simp only [truncate]
  split
  · refine ⟨h, ?_⟩
    intro i
    split
    · rfl
    · rw [value, if_neg (by omega)]
  · have hlen := h.used_le
    have hslots : ∀ i v, length ≤ i →
        (elements.slots.take length ++ replicate (elements.used - length) hole ++
          elements.slots.drop elements.used)[i]? = some v → v = hole := by
      intro i v hi hsl
      have hfront : (elements.slots.take length ++
          replicate (elements.used - length) hole).length = elements.used := by
        simp only [length_append, length_take, length_replicate]
        omega
      by_cases hmid : i < elements.used
      · rw [List.getElem?_append_left (by omega),
          getElem?_append_right (by rw [length_take]; omega)] at hsl
        exact (mem_replicate.mp (mem_of_getElem? hsl)).2
      · rw [getElem?_append_right (by omega), hfront, getElem?_drop,
          Nat.add_sub_cancel' (by omega)] at hsl
        exact h.holes i v (by omega) hsl
    have hbacked : Backed
        { slots := elements.slots.take length ++ replicate (elements.used - length) hole ++
            elements.slots.drop elements.used
          used := length
          holeCount := (elements.slots.take length).countP isHole } := by
      have hsm := h.used_lt
      refine ⟨?_, ?_, hslots⟩
      · simp only [length_append, length_take]
        omega
      · show length < 2 ^ 32
        omega
    refine ⟨hbacked, ?_⟩
    intro i
    split_ifs with hi
    · rw [hbacked.value_eq, h.value_eq, append_assoc,
        List.getElem?_append_left (by rw [length_take]; omega), List.getElem?_take, if_pos hi]
    · rw [value, if_neg hi]

/-- A larger backing has the same elements. -/
theorem growCopy_spec {cap : Nat} (hgrow : elements.growCopy cap = some elements') :
    elements'.Backed ∧ ∀ i, elements'.value i = elements.value i := by
  simp only [growCopy] at hgrow
  split_ifs at hgrow
  cases hgrow
  have hlen := h.used_le
  refine ⟨⟨?_, h.used_lt, ?_⟩, ?_⟩
  · simp only [length_append, length_take]
    omega
  · intro i v hi hsl
    have hi : elements.used ≤ i := hi
    rw [getElem?_append_right (by rw [length_take]; omega)] at hsl
    exact (mem_replicate.mp (mem_of_getElem? hsl)).2
  · intro i
    simp only [value]
    split_ifs with hi
    · rw [List.getElem?_append_left (by rw [length_take]; omega), List.getElem?_take,
        if_pos hi]
    · rfl

end

theorem mem_presentIndices : idx ∈ elements.presentIndices ↔ (elements.value idx).isSome := by
  simp only [presentIndices, mem_filter, mem_range, and_iff_right_iff_imp]
  intro hpres
  simp only [value] at hpres
  split at hpres
  · assumption
  · cases hpres

end ArrayElements

end TachyonEngine.Vm
