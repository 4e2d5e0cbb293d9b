import TachyonEngine.Vm.DenseElements

/-!
# The holes of a dense backing

The packed paths trust the hole counter of a backing and do not look at its slots. `Runs` has the
histories of a backing, each with the finite map from indices to the last values that it leaves, and
`describes_of_runs` says that the counter and the answers of the backing are those of the map.
-/

namespace TachyonEngine.Vm.ArrayElements

open List

def isPacked (elements : ArrayElements) : Bool := elements.holeCount = 0

def presentCount (elements : ArrayElements) : Nat := elements.used - elements.holeCount

/-- The used slots, if no one is a hole. -/
def copyPackedValues (elements : ArrayElements) : Option (List Value) :=
  if elements.isPacked then some (elements.slots.take elements.used) else none

/-- A history of operations, where a refused one leaves the backing as it is: a write past the
capacity, a deletion of an absent index, or a growth that would not hold the used part. An index of
an Array is below `2 ^ 32 - 1`. -/
inductive Runs : ArrayElements → (Nat → Option Value) → Prop where
  | withCapacity (capacity : Nat) : Runs (withCapacity capacity) fun _ => none
  | set {before : ArrayElements} {entries : Nat → Option Value} {index : Nat} {value : Value}
      (hrun : Runs before entries) (hindex : index < 2 ^ 32 - 1)
      (hvalue : value ≠ PropertyStorage.hole) :
      Runs ((before.set index value).getD before)
        (if index < before.capacity then Function.update entries index (some value) else entries)
  | delete {before : ArrayElements} {entries : Nat → Option Value} (index : Nat)
      (hrun : Runs before entries) :
      Runs ((before.delete index).getD before) (Function.update entries index none)
  | truncate {before : ArrayElements} {entries : Nat → Option Value} (length : Nat)
      (hrun : Runs before entries) :
      Runs (before.truncate length) fun index => if index < length then entries index else none
  | growCopy {before : ArrayElements} {entries : Nat → Option Value} (capacity : Nat)
      (hrun : Runs before entries) : Runs ((before.growCopy capacity).getD before) entries

/-- A backing is exact about a finite map. -/
structure Describes (elements : ArrayElements) (entries : Nat → Option Value) : Prop where
  holeCount : elements.holeCount = (elements.slots.take elements.used).countP isHole
  holes : ∀ index slot, elements.used ≤ index → elements.slots[index]? = some slot →
    slot = PropertyStorage.hole
  used_le : elements.used ≤ elements.capacity
  set_succeeds : ∀ index < elements.capacity, index < 2 ^ 32 - 1 → ∀ value,
    (elements.set index value).isSome
  delete_succeeds : ∀ index, (elements.delete index).isSome ↔ (entries index).isSome
  growCopy_succeeds : ∀ capacity, elements.used ≤ capacity →
    ∃ grown, elements.growCopy capacity = some grown ∧ grown.capacity = capacity
  value : ∀ index, elements.value index = entries index
  presentCount : elements.presentCount = elements.presentIndices.length
  increasing : elements.presentIndices.Pairwise (· < ·)
  presentIndices : ∀ index, index ∈ elements.presentIndices ↔ (entries index).isSome
  copyPackedValues : ∀ values, elements.copyPackedValues = some values ↔
    values.length = elements.used ∧ (∀ index < elements.used, (entries index).isSome) ∧
      ∀ index, values[index]? = entries index

/-! ## The present indices -/

/-- The indices below a bound that have an entry. -/
def presentBelow (entries : Nat → Option Value) (bound : Nat) : Finset Nat :=
  (Finset.range bound).filter fun index => (entries index).isSome

variable {entries : Nat → Option Value} {bound : Nat}

theorem mem_presentBelow {idx : Nat} :
    idx ∈ presentBelow entries bound ↔ idx < bound ∧ (entries idx).isSome := by
  rw [presentBelow, Finset.mem_filter, Finset.mem_range]

variable {elements elements' : ArrayElements} {idx : Nat} {val : Value}

/-- The counter and the present indices make up the used part. -/
structure Counted (elements : ArrayElements) : Prop where
  backed : elements.Backed
  count : elements.holeCount + (presentBelow elements.value elements.used).card = elements.used

theorem value_eq_none (h : elements.used ≤ idx) : elements.value idx = none := by
  rw [value, if_neg (not_lt.mpr h)]

theorem countP_take (h : elements.Backed) (hle : bound ≤ elements.used) :
    (elements.slots.take bound).countP isHole + (presentBelow elements.value bound).card =
    bound := by
  induction bound with
  | zero => rfl
  | succ bound ih =>
    have hlt : bound < elements.slots.length := lt_of_lt_of_le hle h.used_le
    have hvalue := h.value_eq bound
    rw [getElem?_eq_getElem hlt] at hvalue
    have ih := ih (Nat.le_of_succ_le hle)
    rw [take_succ_eq_append_getElem hlt, countP_append, countP_singleton, presentBelow,
      Finset.range_add_one, Finset.filter_insert, hvalue]
    rw [presentBelow] at ih
    by_cases hhole : isHole elements.slots[bound] = true
    · rw [if_pos hhole, if_neg (by simp [content, hhole])]
      omega
    · rw [if_neg hhole, if_pos (by simp [content, hhole]), Finset.card_insert_of_notMem (by simp)]
      omega

/-! ## The operations -/

theorem set_counters (hset : elements.set idx val = some elements') :
    (elements.used ≤ idx ∧ elements'.used = idx + 1 ∧
      elements'.holeCount = elements.holeCount + (idx - elements.used)) ∨
    (idx < elements.used ∧ elements'.used = elements.used ∧
      elements'.holeCount + (if (elements.value idx).isSome then 0 else 1) =
      elements.holeCount) := by
  simp only [set] at hset
  split at hset
  · cases hset
  next hcapacity =>
    split at hset
    next hused =>
      split at hset
      · cases hset
        exact .inl ⟨hused, rfl, rfl⟩
      · cases hset
    next hused =>
      have hlt := Nat.lt_of_not_le hused
      rw [getElem?_eq_getElem (Nat.lt_of_not_le hcapacity), Option.any_some] at hset
      rw [value, if_pos hlt, getElem?_eq_getElem (Nat.lt_of_not_le hcapacity)]
      split at hset
      next hhole =>
        split at hset
        · cases hset
          refine .inr ⟨hlt, rfl, ?_⟩
          rw [if_neg (by simp [hhole])]
          dsimp only
          omega
        · cases hset
      next hhole =>
        cases hset
        refine .inr ⟨hlt, rfl, ?_⟩
        rw [if_pos (by simp [hhole]), add_zero]

theorem Counted.set (h : elements.Counted) (hv : val ≠ PropertyStorage.hole)
    (hset : elements.set idx val = some elements') : elements'.Counted := by
  obtain ⟨hbacked, hvalue⟩ := set_spec h.backed hv hset
  have hcount := h.count
  refine ⟨hbacked, ?_⟩
  rcases set_counters hset with ⟨hused, hused', hholes⟩ | ⟨hlt, hused', hholes⟩
  · have hinsert : presentBelow elements'.value (idx + 1) =
        insert idx (presentBelow elements.value elements.used) := by
      ext i
      have hpast : elements.used ≤ i → elements.value i = none := value_eq_none
      rw [Finset.mem_insert, mem_presentBelow, mem_presentBelow, hvalue]
      split <;> grind
    rw [hused', hinsert, Finset.card_insert_of_notMem (by simp [mem_presentBelow, hused])]
    omega
  · by_cases hpresent : (elements.value idx).isSome
    · have hsame : presentBelow elements'.value elements.used =
          presentBelow elements.value elements.used := by
        ext i
        rw [mem_presentBelow, mem_presentBelow, hvalue]
        split <;> grind
      rw [if_pos hpresent] at hholes
      rw [hused', hsame]
      omega
    · have hinsert : presentBelow elements'.value elements.used =
          insert idx (presentBelow elements.value elements.used) := by
        ext i
        rw [Finset.mem_insert, mem_presentBelow, mem_presentBelow, hvalue]
        split <;> grind
      rw [if_neg hpresent] at hholes
      rw [hused', hinsert, Finset.card_insert_of_notMem (by simp [mem_presentBelow, hpresent])]
      omega

theorem Counted.delete (h : elements.Counted) (hdelete : elements.delete idx = some elements') :
    elements'.Counted := by
  obtain ⟨hbacked, hpresent, hvalue⟩ := delete_spec h.backed hdelete
  have hcount := h.count
  have hsmall := h.backed.used_lt
  have hcounters : elements'.used = elements.used ∧
      elements'.holeCount = min (elements.holeCount + 1) (2 ^ 32 - 1) := by
    simp only [ArrayElements.delete] at hdelete
    split at hdelete
    · cases hdelete
    · split_ifs at hdelete
      cases hdelete
      exact ⟨rfl, rfl⟩
  have hmem : idx ∈ presentBelow elements.value elements.used := by
    refine mem_presentBelow.mpr ⟨?_, hpresent⟩
    by_contra hused
    rw [value_eq_none (Nat.le_of_not_lt hused)] at hpresent
    cases hpresent
  have herase : presentBelow elements'.value elements.used =
      (presentBelow elements.value elements.used).erase idx := by
    ext i
    rw [Finset.mem_erase, mem_presentBelow, mem_presentBelow, hvalue]
    split <;> grind
  have hpos := Finset.card_pos.mpr ⟨idx, hmem⟩
  refine ⟨hbacked, ?_⟩
  rw [hcounters.1, herase, Finset.card_erase_of_mem hmem]
  omega

theorem Counted.truncate (h : elements.Counted) (length : Nat) :
    (elements.truncate length).Counted := by
  obtain ⟨hbacked, hvalue⟩ := truncate_spec h.backed length
  refine ⟨hbacked, ?_⟩
  have hsame : presentBelow (elements.truncate length).value length =
      presentBelow elements.value length := by
    ext i
    rw [mem_presentBelow, mem_presentBelow, hvalue]
    split <;> grind
  by_cases hused : elements.used ≤ length
  · rw [ArrayElements.truncate, if_pos hused]
    exact h.count
  · have hcount := countP_take h.backed (Nat.le_of_not_le hused)
    rw [← hsame] at hcount
    rw [ArrayElements.truncate, if_neg hused] at hcount ⊢
    exact hcount

variable {cap : Nat}

theorem Counted.growCopy (h : elements.Counted) (hgrow : elements.growCopy cap = some elements') :
    elements'.Counted := by
  obtain ⟨hbacked, hvalue⟩ := growCopy_spec h.backed hgrow
  refine ⟨hbacked, ?_⟩
  rw [funext hvalue]
  simp only [ArrayElements.growCopy] at hgrow
  split_ifs at hgrow
  cases hgrow
  exact h.count

/-- An index that is an index of an Array is written where there is room for it. -/
theorem Counted.set_isSome (h : elements.Counted) (hcap : idx < elements.capacity)
    (hsmall : idx < 2 ^ 32 - 1) (val : Value) : (elements.set idx val).isSome := by
  have hcount := h.count
  have hroom : ¬elements.slots.length ≤ idx := not_le.mpr hcap
  rw [ArrayElements.set, if_neg hroom]
  split
  · rw [if_pos (by omega)]
    rfl
  next hused =>
    split
    next hhole =>
      have habsent : (elements.value idx).isSome = false := by
        rw [h.backed.value_eq, getElem?_eq_getElem hcap]
        rw [getElem?_eq_getElem hcap, Option.any_some] at hhole
        simp [content, hhole]
      have hsub : presentBelow elements.value elements.used ⊂ Finset.range elements.used :=
        Finset.filter_ssubset.mpr ⟨idx, Finset.mem_range.mpr
          (Nat.lt_of_not_le hused), by simp [habsent]⟩
      have hlt := Finset.card_lt_card hsub
      rw [Finset.card_range] at hlt
      rw [if_pos (by omega)]
      rfl
    · rfl

/-! ## Histories -/

/-- A write, or its refusal past the capacity. -/
theorem Counted.getD_set (h : elements.Counted) (hsmall : idx < 2 ^ 32 - 1)
    (hv : val ≠ PropertyStorage.hole) : ((elements.set idx val).getD elements).Counted ∧
      ((elements.set idx val).getD elements).value =
        if idx < elements.capacity then Function.update elements.value idx (some val)
        else elements.value := by
  by_cases hcap : idx < elements.capacity
  · obtain ⟨written, hset⟩ := Option.isSome_iff_exists.mp (h.set_isSome hcap hsmall val)
    rw [hset, Option.getD_some, if_pos hcap]
    refine ⟨h.set hv hset, funext fun i => ?_⟩
    rw [(set_spec h.backed hv hset).2, Function.update_apply]
  · have hset : elements.set idx val = none := if_pos (not_lt.mp hcap)
    rw [hset, Option.getD_none, if_neg hcap]
    exact ⟨h, rfl⟩

/-- A deletion, or its refusal at an absent index. -/
theorem Counted.getD_delete (h : elements.Counted) (idx : Nat) :
    ((elements.delete idx).getD elements).Counted ∧
      ((elements.delete idx).getD elements).value = Function.update elements.value idx none := by
  cases hdelete : elements.delete idx with
  | none =>
    have hself := Function.update_eq_self idx elements.value
    rw [delete_eq_none h.backed hdelete] at hself
    exact ⟨h, hself.symm⟩
  | some deleted =>
    refine ⟨h.delete hdelete, funext fun i => ?_⟩
    rw [Option.getD_some, (delete_spec h.backed hdelete).2.2, Function.update_apply]

theorem counted_of_runs (h : Runs elements entries) :
    elements.Counted ∧ elements.value = entries := by
  induction h with
  | withCapacity cap => exact ⟨⟨backed_withCapacity cap, rfl⟩, funext (value_withCapacity cap)⟩
  | set _ hsmall hv ih =>
    obtain ⟨hcounted, rfl⟩ := ih
    exact hcounted.getD_set hsmall hv
  | delete idx _ ih =>
    obtain ⟨hcounted, rfl⟩ := ih
    exact hcounted.getD_delete idx
  | truncate length _ ih =>
    obtain ⟨hcounted, rfl⟩ := ih
    exact ⟨hcounted.truncate length, funext (truncate_spec hcounted.backed length).2⟩
  | @growCopy before _ cap _ ih =>
    obtain ⟨hcounted, rfl⟩ := ih
    cases hgrow : before.growCopy cap with
    | none => exact ⟨hcounted, rfl⟩
    | some grown =>
      exact ⟨hcounted.growCopy hgrow, funext (growCopy_spec hcounted.backed hgrow).2⟩

/-- A deletion succeeds exactly at a present index. -/
theorem Backed.delete_isSome_iff (h : elements.Backed) :
    (elements.delete idx).isSome ↔ (elements.value idx).isSome := by
  cases hdelete : elements.delete idx with
  | none => simp [delete_eq_none h hdelete]
  | some deleted => simp [(delete_spec h hdelete).2.1]

theorem growCopy_of_le (h : elements.used ≤ cap) (hbacked : elements.Backed) :
    ∃ grown, elements.growCopy cap = some grown ∧ grown.capacity = cap := by
  refine ⟨_, if_neg (not_lt.mpr h), ?_⟩
  have hlen := hbacked.used_le
  simp only [capacity, length_append, length_take, length_replicate]
  omega

theorem Counted.length_presentIndices (h : elements.Counted) :
    elements.presentCount = elements.presentIndices.length := by
  have hcount := h.count
  have hcard : (presentBelow elements.value elements.used).card =
      elements.presentIndices.length := by
    rw [presentBelow, Finset.card_def, Finset.filter_val, Finset.range_val, ← Multiset.coe_range,
      Multiset.filter_coe, Multiset.coe_card, presentIndices]
    simp only [Bool.decide_eq_true]
  rw [presentCount]
  omega

/-- The counter is zero if the used part has no hole. -/
theorem Counted.isPacked_iff (h : elements.Counted) :
    elements.isPacked ↔ ∀ i < elements.used, (elements.value i).isSome := by
  have hcount := h.count
  have hall := Finset.card_filter_eq_iff (s := Finset.range elements.used)
    (p := fun i => (elements.value i).isSome = true)
  rw [Finset.card_range] at hall
  simp only [Finset.mem_range] at hall
  rw [← hall, isPacked, decide_eq_true_eq]
  rw [presentBelow] at hcount
  omega

theorem Backed.getElem?_take (h : elements.Backed)
    (hall : ∀ i < elements.used, (elements.value i).isSome) (i : Nat) :
    (elements.slots.take elements.used)[i]? = elements.value i := by
  rw [List.getElem?_take]
  split_ifs with hused
  · obtain ⟨v, hv⟩ := Option.isSome_iff_exists.mp (hall i hused)
    rw [hv]
    rw [h.value_eq, content, Option.filter_eq_some_iff] at hv
    exact hv.1
  · exact (value_eq_none (Nat.le_of_not_lt hused)).symm

theorem Counted.copyPackedValues_iff (h : elements.Counted) (vals : List Value) :
    elements.copyPackedValues = some vals ↔
      vals.length = elements.used ∧ (∀ i < elements.used, (elements.value i).isSome) ∧
        ∀ i, vals[i]? = elements.value i := by
  have htake := h.backed.getElem?_take
  rw [copyPackedValues]
  constructor
  · intro hcopy
    split at hcopy
    next hpacked =>
      have hall := h.isPacked_iff.mp hpacked
      cases hcopy
      exact ⟨length_take_of_le h.backed.used_le, hall, htake hall⟩
    · cases hcopy
  · rintro ⟨_, hall, hvals⟩
    rw [if_pos (h.isPacked_iff.mpr hall)]
    refine congrArg some (ext_getElem? fun i => ?_)
    rw [htake hall, hvals]

/-- The counter and the answers of a backing are those of its history. -/
theorem describes_of_runs {entries : Nat → Option Value} (h : Runs elements entries) :
    elements.Describes entries := by
  obtain ⟨hcounted, rfl⟩ := counted_of_runs h
  have hcount := hcounted.count
  have htake := countP_take hcounted.backed le_rfl
  refine ⟨by omega, hcounted.backed.holes, hcounted.backed.used_le,
    fun _ hcap hsmall val => hcounted.set_isSome hcap hsmall val,
    fun _ => hcounted.backed.delete_isSome_iff,
    fun _ hle => growCopy_of_le hle hcounted.backed, fun _ => rfl,
    hcounted.length_presentIndices, ?_, fun _ => mem_presentIndices, hcounted.copyPackedValues_iff⟩
  exact List.Pairwise.filter _ pairwise_lt_range

/-- A gap of two holes, of which one is filled, a deletion and a truncation, and a write behind the
part that is left once the backing has grown. -/
theorem describes_of_runs_gap : ∃ elements entries,
    elements.holeCount = 1 ∧ elements.used = 3 ∧ elements.capacity = 8 ∧
      Runs elements entries ∧ elements.Describes entries := by
  have hhole : Value.int32 7 ≠ PropertyStorage.hole := by decide
  have hgap := Runs.set (.withCapacity 4) (by decide : 2 < 2 ^ 32 - 1) hhole
  have hfilled := Runs.set hgap (by decide : 0 < 2 ^ 32 - 1) hhole
  have hrun := Runs.set (.growCopy 8 (.truncate 1 (.delete 2 hfilled)))
    (by decide : 2 < 2 ^ 32 - 1) hhole
  exact ⟨_, _, rfl, rfl, rfl, hrun, describes_of_runs hrun⟩

/-- The last 32-bit index is no index of an Array: the used part cannot count it. -/
theorem set_last_index_refused : ¬∀ (capacity index : Nat) (value : Value), index < 2 ^ 32 →
    value ≠ PropertyStorage.hole → index < capacity →
    ((withCapacity capacity).set index value).isSome := by
  intro h
  have hset := h (2 ^ 32) (2 ^ 32 - 1) (.int32 7) (by decide) (by decide) (by decide)
  have hroom : ¬(withCapacity (2 ^ 32)).slots.length ≤ 2 ^ 32 - 1 := by
    rw [withCapacity, length_replicate]
    decide
  have hfresh : (withCapacity (2 ^ 32)).used ≤ 2 ^ 32 - 1 := Nat.zero_le _
  rw [set, if_neg hroom, if_pos hfresh] at hset
  cases hset

end TachyonEngine.Vm.ArrayElements
