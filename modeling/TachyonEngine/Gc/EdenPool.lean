import TachyonEngine.Gc.HeapRun

/-!
# The Eden pool and the table

`EdenPool.Sound` relates the pool to the table: a span that the pool holds is an empty Eden
span of its size class with the pool flag set, it is held at one place, and a flagged span is
held. The operations below keep this relation as long as they leave the pooled spans alone
or take them out of the pool.
-/

namespace TachyonEngine.Gc

open Lib.Traversal Lib.Capacity Option

/-! ## Places -/

namespace EdenPool

variable {p p' : EdenPool} {classIndex place : Nat} {span : SpanId}

/-- The span at a place of a size class. -/
def heldAt (p : EdenPool) (classIndex place : Nat) : Option SpanId :=
  ((p.places classIndex)[place]?).join

theorem heldAt_new (classIndex place : Nat) : EdenPool.new.heldAt classIndex place = none := by
  simp only [heldAt, places, EdenPool.new, List.getElem?_replicate]
  split
  · simp only [getD_some, List.getElem?_replicate]
    split
    · rfl
    · rfl
  · rfl

/-- One place changes. -/
structure Sets (p : EdenPool) (classIndex place : Nat) (value : Option SpanId) (p' : EdenPool) :
    Prop where
  here : p'.heldAt classIndex place = value
  others : ∀ c k, ¬(c = classIndex ∧ k = place) → p'.heldAt c k = p.heldAt c k

theorem sets_of_spans {val : Option SpanId} (hplace : place < (p.places classIndex).length)
    (h : p'.spans = p.spans.modify classIndex (·.set place val)) :
    Sets p classIndex place val p' := by
  have hclass : ∃ l, p.spans[classIndex]? = some l := by
    cases hl : p.spans[classIndex]? with
    | some l => exact ⟨l, rfl⟩
    | none =>
      simp only [places, hl] at hplace
      exact absurd hplace (Nat.not_lt_zero _)
  obtain ⟨l, hl⟩ := hclass
  have hplaces : ∀ c, p'.places c = if classIndex = c then l.set place val else p.places c := by
    intro c
    simp only [places, h, List.getElem?_modify]
    by_cases hc : classIndex = c
    · subst hc
      simp [hl]
    · simp [hc]
  have hlt : place < l.length := by
    simp only [places, hl] at hplace
    exact hplace
  constructor
  · simp [heldAt, hplaces, hlt]
  · intro c k hne
    simp only [heldAt, hplaces]
    by_cases hc : classIndex = c
    · subst hc
      have hk : place ≠ k := fun heq => hne ⟨rfl, heq.symm⟩
      rw [if_pos rfl, List.getElem?_set_ne hk]
      simp [places, hl]
    · rw [if_neg hc]

/-- A span goes to an empty place of its class; a full class changes nothing but counters. -/
theorem retain_cases (p : EdenPool) (classIndex : Nat) (span : SpanId) :
    ((p.retain classIndex span).1 = false ∧
        ∀ c k, (p.retain classIndex span).2.heldAt c k = p.heldAt c k) ∨
      ((p.retain classIndex span).1 = true ∧ ∃ place, p.heldAt classIndex place = none ∧
        Sets p classIndex place (some span) (p.retain classIndex span).2) := by
  simp only [retain]
  split
  · exact Or.inl ⟨rfl, fun _ _ => rfl⟩
  next place hfind =>
    obtain ⟨hlt, hn, -⟩ := List.findIdx?_eq_some_iff_getElem.mp hfind
    refine Or.inr ⟨rfl, place, ?_, sets_of_spans hlt rfl⟩
    simp only [heldAt, List.getElem?_eq_getElem hlt]
    exact isNone_iff_eq_none.mp hn

theorem firstRetained_eq_some (h : p.firstRetained classIndex = some (place, span)) :
    p.heldAt classIndex place = some span ∧ place < (p.places classIndex).length := by
  obtain ⟨place', hfind, hmap⟩ := bind_eq_some_iff.mp h
  obtain ⟨span', hjoin, heq⟩ := map_eq_some_iff.mp hmap
  cases heq
  obtain ⟨hlt, -⟩ := List.findIdx?_eq_some_iff_getElem.mp hfind
  exact ⟨hjoin, hlt⟩

theorem firstRetained_eq_none (h : p.firstRetained classIndex = none) (k : Nat) :
    p.heldAt classIndex k = none := by
  simp only [firstRetained] at h
  cases hfind : (p.places classIndex).findIdx? isSome with
  | none =>
    rw [List.findIdx?_eq_none_iff] at hfind
    simp only [heldAt]
    cases hget : (p.places classIndex)[k]? with
    | none => rfl
    | some val =>
      have hn := hfind val (List.mem_of_getElem? hget)
      cases val with
      | none => rfl
      | some span => cases hn
  | some place =>
    obtain ⟨hlt, hsome, -⟩ := List.findIdx?_eq_some_iff_getElem.mp hfind
    rw [hfind, bind_some, List.getElem?_eq_getElem hlt, join_some,
      map_eq_none_iff] at h
    rw [h] at hsome
    cases hsome

theorem sets_vacatePlace (hplace : place < (p.places classIndex).length) :
    Sets p classIndex place none (p.vacatePlace classIndex place) :=
  sets_of_spans hplace rfl

theorem takeForReuse_eq_some (h : p.takeForReuse classIndex = some (span, p')) :
    ∃ place, p.heldAt classIndex place = some span ∧ Sets p classIndex place none p' := by
  obtain ⟨⟨place, span'⟩, hfirst, heq⟩ := map_eq_some_iff.mp h
  cases heq
  obtain ⟨hheld, hlt⟩ := firstRetained_eq_some hfirst
  have hsets := sets_vacatePlace hlt
  exact ⟨place, hheld, hsets.here, hsets.others⟩

end EdenPool

/-! ## Pooled spans of the table -/

namespace SpanTable

/-- The entry is an empty Eden span of the size class. -/
def EmptyEden (t : SpanTable) (classIndex : Nat) (span : SpanId) : Prop :=
  ∃ s, t.kind span = some (.small s) ∧
    smallSizeClasses[classIndex]? = some s.metadata.sizeClass.slotSize ∧
    s.metadata.space = .eden ∧ s.metadata.allocatedSlots = 0

/-- The entry is an old small span. -/
def OldSmall (t : SpanTable) (span : SpanId) : Prop :=
  ∃ s, t.kind span = some (.small s) ∧ s.metadata.space = .old

end SpanTable

/-- The pool holds exactly the flagged spans, each at one place, and they are empty Eden
spans of their classes. -/
structure EdenPool.Sound (p : EdenPool) (t : SpanTable) : Prop where
  held : ∀ classIndex place span, p.heldAt classIndex place = some span →
    t.EmptyEden classIndex span ∧ t.pooled span = true
  once : ∀ classIndex place classIndex' place' span, p.heldAt classIndex place = some span →
    p.heldAt classIndex' place' = some span → classIndex = classIndex' ∧ place = place'
  flagged : ∀ span, t.pooled span = true →
    ∃ classIndex place, p.heldAt classIndex place = some span

namespace EdenPool.Sound

variable {p p' : EdenPool} {t t' : SpanTable} {classIndex place : Nat} {span : SpanId}

theorem new (alloc : Allocator) : EdenPool.new.Sound (SpanTable.new alloc) where
  held := by
    intro classIndex place span hheld
    rw [heldAt_new] at hheld
    cases hheld
  once := by
    intro classIndex place classIndex' place' span hheld
    rw [heldAt_new] at hheld
    cases hheld
  flagged := by
    intro span hflag
    cases hflag

section

variable (h : p.Sound t)

include h

/-- Pooled spans are Eden spans. -/
theorem not_pooled_of_old (hold : t.OldSmall span) : t.pooled span = false := by
  cases hflag : t.pooled span with
  | false => rfl
  | true =>
    obtain ⟨classIndex, place, hheld⟩ := h.flagged span hflag
    obtain ⟨⟨s, hk, -, heden, -⟩, -⟩ := h.held classIndex place span hheld
    obtain ⟨s', hk', hold⟩ := hold
    rw [hk] at hk'
    cases hk'
    rw [heden] at hold
    cases hold

/-- A flagged span is occupied. -/
theorem kind_of_pooled (hflag : t.pooled span = true) : ∃ s, t.kind span = some (.small s) := by
  obtain ⟨classIndex, place, hheld⟩ := h.flagged span hflag
  obtain ⟨⟨s, hk, -⟩, -⟩ := h.held classIndex place span hheld
  exact ⟨s, hk⟩

/-- Nothing happens to the pool when the flags are the same and flagged spans stay empty. -/
theorem congr (hheld : ∀ c k, p'.heldAt c k = p.heldAt c k)
    (hflags : ∀ i, t'.pooled i = true ↔ t.pooled i = true)
    (hempty : ∀ c i, t.pooled i = true → t.EmptyEden c i → t'.EmptyEden c i) : p'.Sound t' where
  held := by
    intro c k i hi
    rw [hheld] at hi
    obtain ⟨he, hflag⟩ := h.held c k i hi
    exact ⟨hempty c i hflag he, (hflags i).mpr hflag⟩
  once := by
    intro c k c' k' i hi hi'
    rw [hheld] at hi hi'
    exact h.once c k c' k' i hi hi'
  flagged := by
    intro i hi
    obtain ⟨c, k, hcell⟩ := h.flagged i ((hflags i).mp hi)
    exact ⟨c, k, (hheld c k).trans hcell⟩

/-- One span that is not pooled changes, and is not pooled afterwards. -/
theorem frame (hspan : t.pooled span = false) (hspan' : t'.pooled span = false)
    (hos : ∀ i, i ≠ span → t'.kind i = t.kind i ∧ t'.pooled i = t.pooled i) : p.Sound t' := by
  refine h.congr (fun _ _ => rfl) ?_ ?_
  · intro i
    by_cases hi : i = span
    · subst hi
      rw [hspan, hspan']
    · rw [(hos i hi).2]
  · rintro c i hflag ⟨s, hk, hrest⟩
    have hi : i ≠ span := by
      rintro rfl
      rw [hspan] at hflag
      cases hflag
    exact ⟨s, (hos i hi).1.trans hk, hrest⟩

theorem same (hs : SpanTable.SameSpans t t') : p.Sound t' := by
  refine h.congr (fun _ _ => rfl) ?_ ?_
  · intro i
    rw [(hs i).2]
  · rintro c i - ⟨s, hk, hrest⟩
    exact ⟨s, (hs i).1.trans hk, hrest⟩

/-- A span that is not pooled goes to an empty place. -/
theorem retain (hspan : t.pooled span = false)
    (hsets : EdenPool.Sets p classIndex place (some span) p')
    (hn : p.heldAt classIndex place = none) (he : t'.EmptyEden classIndex span)
    (hflag : t'.pooled span = true)
    (hos : ∀ i, i ≠ span → t'.kind i = t.kind i ∧ t'.pooled i = t.pooled i) : p'.Sound t' := by
  have hfree : ∀ c k, p.heldAt c k ≠ some span := by
    intro c k heq
    have hpooled := (h.held c k span heq).2
    rw [hspan] at hpooled
    cases hpooled
  -- A place of the new pool is the new one or an old one with another span.
  have hcases : ∀ c k i, p'.heldAt c k = some i →
      (i = span ∧ c = classIndex ∧ k = place) ∨ (i ≠ span ∧ p.heldAt c k = some i) := by
    intro c k i hi
    by_cases hck : c = classIndex ∧ k = place
    · obtain ⟨rfl, rfl⟩ := hck
      rw [hsets.here] at hi
      exact Or.inl ⟨(some.inj hi).symm, rfl, rfl⟩
    · rw [hsets.others c k hck] at hi
      refine Or.inr ⟨?_, hi⟩
      rintro rfl
      exact hfree c k hi
  refine ⟨?_, ?_, ?_⟩
  · intro c k i hi
    rcases hcases c k i hi with ⟨rfl, rfl, rfl⟩ | ⟨hne, hold⟩
    · exact ⟨he, hflag⟩
    · obtain ⟨⟨s, hk, hrest⟩, hpooled⟩ := h.held c k i hold
      exact ⟨⟨s, (hos i hne).1.trans hk, hrest⟩, (hos i hne).2.trans hpooled⟩
  · intro c k c' k' i hi hi'
    rcases hcases c k i hi with ⟨rfl, rfl, rfl⟩ | ⟨hne, hold⟩
    · rcases hcases c' k' i hi' with ⟨-, rfl, rfl⟩ | ⟨hne', -⟩
      · exact ⟨rfl, rfl⟩
      · exact absurd rfl hne'
    · rcases hcases c' k' i hi' with ⟨rfl, -, -⟩ | ⟨-, hold'⟩
      · exact absurd rfl hne
      · exact h.once c k c' k' i hold hold'
  · intro i hi
    by_cases hspan' : i = span
    · subst hspan'
      exact ⟨classIndex, place, hsets.here⟩
    · rw [(hos i hspan').2] at hi
      obtain ⟨c, k, hck⟩ := h.flagged i hi
      refine ⟨c, k, (hsets.others c k ?_).trans hck⟩
      rintro ⟨rfl, rfl⟩
      rw [hn] at hck
      cases hck

/-- A pooled span leaves its place, and its flag goes. -/
theorem vacate (hheld : p.heldAt classIndex place = some span)
    (hsets : EdenPool.Sets p classIndex place none p') (hflag : t'.pooled span = false)
    (hos : ∀ i, i ≠ span → t'.kind i = t.kind i ∧ t'.pooled i = t.pooled i) : p'.Sound t' := by
  have hcases : ∀ c k i, p'.heldAt c k = some i → i ≠ span ∧ p.heldAt c k = some i := by
    intro c k i hi
    by_cases hck : c = classIndex ∧ k = place
    · obtain ⟨rfl, rfl⟩ := hck
      rw [hsets.here] at hi
      cases hi
    · rw [hsets.others c k hck] at hi
      refine ⟨?_, hi⟩
      rintro rfl
      exact hck (h.once c k classIndex place i hi hheld)
  refine ⟨?_, ?_, ?_⟩
  · intro c k i hi
    obtain ⟨hne, hold⟩ := hcases c k i hi
    obtain ⟨⟨s, hk, hrest⟩, hpooled⟩ := h.held c k i hold
    exact ⟨⟨s, (hos i hne).1.trans hk, hrest⟩, (hos i hne).2.trans hpooled⟩
  · intro c k c' k' i hi hi'
    exact h.once c k c' k' i (hcases c k i hi).2 (hcases c' k' i hi').2
  · intro i hi
    have hne : i ≠ span := by
      rintro rfl
      rw [hflag] at hi
      cases hi
    rw [(hos i hne).2] at hi
    obtain ⟨c, k, hck⟩ := h.flagged i hi
    refine ⟨c, k, (hsets.others c k ?_).trans hck⟩
    rintro ⟨rfl, rfl⟩
    rw [hheld] at hck
    exact hne (some.inj hck).symm

end

end EdenPool.Sound

end TachyonEngine.Gc
