import TachyonEngine.Gc.Skeleton

/-!
# Marks and epochs

Marks are never cleared between collections: a mark of an older epoch is white. That
is sound as long as no stored epoch is newer than the heap's, `MarksWithin`. A
collection advances the epoch first, and then nothing is marked in the new one
(`advanceCollectionEpoch_fresh`), also when the 32 bits are used up and all marks are
reset.
-/

namespace TachyonEngine.Gc

/-- The epoch of the marks of what an entry holds. -/
def SpanKind.markEpoch : SpanKind → Option CollectionEpoch
  | .small span => span.metadata.marks.epoch
  | .largeOwner span => span.metadata.markEpoch
  | .largeContinuation _ _ => none

theorem SpanKind.markEpoch_of_markBit {kind : SpanKind} {off : SpanOffset}
    {epoch : CollectionEpoch} (h : kind.markBit off epoch = true) :
    kind.markEpoch = some epoch := by
  cases kind with
  | small span =>
    simp only [markBit] at h
    cases hsl : span.metadata.sizeClass.slotForOffset off with
    | none =>
      rw [hsl] at h
      cases h
    | some slot =>
      rw [hsl] at h
      simp only [MarkBitmap.isMarked, Bool.and_eq_true, decide_eq_true_eq] at h
      exact h.1
  | largeOwner span => simpa [markBit, markEpoch, LargeSpanMetadata.isMarked] using h
  | largeContinuation owner ordinal => cases h

namespace SpanTable

variable {t t' : SpanTable} {epoch cur : CollectionEpoch}

variable {span : SpanId}

theorem mem_of_kind {kind : SpanKind} (h : t.kind span = some kind) :
    ∃ ent ∈ t.entries, ent.kind = some kind := by
  obtain ⟨ent, he, hk⟩ := Option.bind_eq_some_iff.mp h
  exact ⟨ent, List.mem_of_getElem? he, hk⟩

/-- No entry was marked in an epoch newer than this one. -/
def MarksWithin (t : SpanTable) (epoch : CollectionEpoch) : Prop :=
  ∀ entry ∈ t.entries, ∀ e ∈ entry.kind.bind SpanKind.markEpoch, e.get ≤ epoch.get

/-- Nothing is marked in an epoch that no entry was marked in. -/
theorem marked_eq_empty (h : ∀ ent ∈ t.entries, ent.kind.bind SpanKind.markEpoch ≠ some epoch) :
    t.marked epoch = ∅ := by
  rw [Set.eq_empty_iff_forall_notMem]
  intro ref hmarked
  obtain ⟨-, hbit⟩ := mem_marked.mp hmarked
  unfold markBit at hbit
  cases hk : t.kind ref.spanId with
  | none =>
    rw [hk] at hbit
    cases hbit
  | some kind =>
    rw [hk] at hbit
    obtain ⟨ent, he, hentryKind⟩ := mem_of_kind hk
    apply h ent he
    rw [hentryKind]
    exact SpanKind.markEpoch_of_markBit hbit

/-- No mark of the table is of a newer epoch. -/
theorem marksWithin_iff : t.MarksWithin epoch ↔
    ∀ span, ∀ e ∈ (t.kind span).bind SpanKind.markEpoch, e.get ≤ epoch.get := by
  constructor
  · intro h span e he
    obtain ⟨kind, hk, hepoch⟩ := Option.bind_eq_some_iff.mp he
    obtain ⟨ent, hen, hentryKind⟩ := mem_of_kind hk
    apply h ent hen
    rw [hentryKind]
    exact hepoch
  · intro h ent hen e he
    obtain ⟨span, hget⟩ := List.mem_iff_getElem?.mp hen
    apply h span
    unfold SpanTable.kind
    rw [hget]
    exact he

/-- A change of one entry that marks nothing in a newer epoch. -/
theorem MarksWithin.modifyKind {f : SpanKind → SpanKind} (h : t.MarksWithin epoch) (hf : ∀ kind :
    SpanKind, (f kind).markEpoch = kind.markEpoch ∨ (f kind).markEpoch = none ∨ (f kind).markEpoch =
    some epoch) : (t.modifyKind span f).MarksWithin epoch := by
  rw [marksWithin_iff] at h ⊢
  intro i e he
  rw [kind_modifyKind] at he
  split at he
  · cases hk : t.kind i with
    | none =>
      rw [hk] at he
      cases he
    | some kind =>
      rw [hk] at he
      simp only [Option.map_some, Option.bind_some] at he
      rcases hf kind with heq | heq | heq
      · rw [heq] at he
        apply h i
        rw [hk]
        exact he
      · rw [heq] at he
        cases he
      · rw [heq] at he
        cases he
        exact Nat.le_refl _
  · exact h i e he

variable {ref : RawHeapRef}

theorem MarksWithin.mark (h : t.MarksWithin epoch) :
    (t.modifyKind ref.spanId (SpanKind.mark ref.spanOffset epoch)).MarksWithin epoch := by
  apply h.modifyKind
  intro kind
  cases kind with
  | small s =>
    simp only [SpanKind.mark]
    cases s.metadata.sizeClass.slotForOffset ref.spanOffset with
    | none => exact Or.inl rfl
    | some slot => exact Or.inr (Or.inr rfl)
  | largeOwner s => exact Or.inr (Or.inr rfl)
  | largeContinuation owner ordinal => exact Or.inl rfl

theorem MarksWithin.setPayload {fields : List TraceField} (h : t.MarksWithin epoch) :
    (t.setPayload ref fields).MarksWithin epoch := by
  apply h.modifyKind
  intro kind
  cases kind <;> exact Or.inl rfl

@[simp] theorem markEpoch_resetMarks (kind : SpanKind) : kind.resetMarks.markEpoch = none := by
  cases kind <;> rfl

theorem skeleton_resetMarks (t : SpanTable) : t.resetMarks.skeleton = t.skeleton := by
  unfold skeleton resetMarks
  simp only [List.map_map, SpanTable.mk.injEq, and_true]
  apply List.map_congr_left
  intro ent _
  unfold SpanEntry.skeleton
  cases hk : ent.kind with
  | none => simp [hk]
  | some kind => cases kind <;> simp [hk, SpanKind.resetMarks, SpanKind.skeleton]

theorem payload_resetMarks (t : SpanTable) (ref : RawHeapRef) :
    t.resetMarks.payload ref = t.payload ref := by
  unfold payload SpanTable.kind resetMarks
  rw [List.getElem?_map]
  cases t.entries[ref.spanId]? with
  | none => rfl
  | some ent =>
    cases hk : ent.kind with
    | none => simp [hk]
    | some kind => cases kind <;> simp [hk, SpanKind.resetMarks, SpanKind.payload, SpanKind.storage]

/-- Advancing the epoch whitens every object and changes nothing else. -/
theorem advanceCollectionEpoch_fresh (h : t.MarksWithin cur) :
    let advanced := t.advanceCollectionEpoch cur
    advanced.2.marked advanced.1 = ∅ ∧ advanced.2.MarksWithin advanced.1 ∧
      advanced.2.skeleton = t.skeleton ∧
      ∀ ref, advanced.2.payload ref = t.payload ref := by
  unfold advanceCollectionEpoch
  cases hnx : cur.next with
  | some next =>
    have hlt := CollectionEpoch.get_next hnx
    refine ⟨marked_eq_empty ?_, ?_, rfl, fun _ => rfl⟩
    · intro ent hen heq
      have := h ent hen next heq
      omega
    · intro ent hen e he
      have := h ent hen e he
      simp only
      omega
  | none =>
    have hn : ∀ ent ∈ t.resetMarks.entries, ent.kind.bind SpanKind.markEpoch = none := by
      intro ent hen
      simp only [resetMarks, List.mem_map] at hen
      obtain ⟨ent', -, rfl⟩ := hen
      cases ent'.kind <;> simp
    refine ⟨marked_eq_empty ?_, ?_, skeleton_resetMarks t, payload_resetMarks t⟩
    · intro ent hen
      rw [hn ent hen]
      simp
    · intro ent hen e he
      rw [hn ent hen] at he
      cases he

end SpanTable

end TachyonEngine.Gc
