import TachyonEngine.Gc.Skeleton

/-!
# The objects of a span

The collector meets the objects of a small span through cursors: the next allocated
reference, the next one on a dirty card, the slot behind a reference. Here these are
read as one enumeration: the slots of a span in increasing order, each with its
reference. `remembers` says what the remembered set knows of an object.
-/

namespace TachyonEngine.Gc

open Lib.Traversal

/-- The remembered set has an object of an entry: its card is dirty, or it is the
remembered large object. -/
def SpanKind.remembers (offset : SpanOffset) : SpanKind → Bool
  | .small span => decide (span.metadata.space = .old) && span.metadata.cards.isDirty offset
  | .largeOwner span => span.metadata.remembered
  | .largeContinuation _ _ => false

namespace SpanTable

variable {t t' : SpanTable} {span : SpanId} {ref : RawHeapRef}

def remembers (t : SpanTable) (ref : RawHeapRef) : Bool :=
  (t.kind ref.spanId).any fun kind => kind.remembers ref.spanOffset

/-! ## Slots and references -/

/-- The reference of a slot of a small span. -/
def slotReference (t : SpanTable) (span : SpanId) (slot : SlotIndex) : RawHeapRef :=
  ⟨span, ((t.metadata span).map fun metadata => metadata.sizeClass.slotOffset slot).getD
    firstOffset⟩

/-- The allocated slots of a small span. -/
def allocatedSlots (t : SpanTable) (span : SpanId) : Finset SlotIndex :=
  ((t.metadata span).map SmallSpanMetadata.liveSlots).getD ∅

/-- The allocated slots of an old span on dirty cards. -/
def dirtyOldSlots (t : SpanTable) (span : SpanId) : Finset SlotIndex :=
  match t.metadata span with
  | none => ∅
  | some metadata => if metadata.space = .old then metadata.dirtySlots else ∅

theorem nextAllocatedReference_eq (t : SpanTable) (span : SpanId) (start : Nat) :
    t.nextAllocatedReference span start =
      (nextSet (t.allocatedSlots span) start).map (t.slotReference span) := by
  unfold nextAllocatedReference allocatedSlots
  cases hmeta : t.metadata span with
  | none => rfl
  | some metadata =>
    simp only [SmallSpanMetadata.nextAllocated_eq, Option.map_map]
    congr 1
    funext slot
    simp [slotReference, hmeta]

theorem nextDirtyOldReference_eq (t : SpanTable) (span : SpanId) (start : Nat) :
    t.nextDirtyOldReference span start =
      (nextSet (t.dirtyOldSlots span) start).map (t.slotReference span) := by
  unfold nextDirtyOldReference dirtyOldSlots
  cases hmeta : t.metadata span with
  | none => rfl
  | some metadata =>
    simp only
    by_cases hold : metadata.space = .old
    · rw [if_pos hold, if_pos hold, SmallSpanMetadata.nextDirty_eq _ (by omega), Option.map_map]
      congr 1
      funext slot
      simp [slotReference, hmeta]
    · rw [if_neg hold, if_neg hold]
      rfl

theorem dirtyOldSlots_subset (t : SpanTable) (span : SpanId) :
    t.dirtyOldSlots span ⊆ t.allocatedSlots span := by
  unfold dirtyOldSlots allocatedSlots
  cases t.metadata span with
  | none => exact Finset.Subset.refl _
  | some metadata =>
    simp only
    split
    · exact Finset.filter_subset _ _
    · exact Finset.empty_subset _

theorem nextSlot_slotReference {slot : SlotIndex} (h : slot ∈ t.allocatedSlots span) :
    t.nextSlot (t.slotReference span slot) = some (slot.val + 1) := by
  unfold allocatedSlots at h
  cases hmeta : t.metadata span with
  | none =>
    rw [hmeta] at h
    cases h
  | some metadata =>
    rw [hmeta] at h
    have hc := (SmallSpanMetadata.mem_liveSlots.mp h).2
    simp [nextSlot, slotReference, hmeta, SizeClass.slotForOffset_slotOffset hc]

theorem metadata_eq_some {metadata : SmallSpanMetadata} (h : t.metadata span = some metadata) :
    ∃ s, t.kind span = some (.small s) ∧ s.metadata = metadata := by
  unfold SpanTable.metadata at h
  cases hk : t.kind span with
  | none =>
    rw [hk] at h
    cases h
  | some kind =>
    rw [hk] at h
    cases kind with
    | small s =>
      cases h
      exact ⟨s, rfl, rfl⟩
    | largeOwner s | largeContinuation owner ordinal => cases h

variable {s : SmallSpan}

theorem metadata_of_kind (h : t.kind span = some (.small s)) :
    t.metadata span = some s.metadata := by
  unfold SpanTable.metadata
  rw [h]

theorem largeMetadata_of_kind {s : LargeSpan} (h : t.kind span = some (.largeOwner s)) :
    t.largeMetadata span = some s.metadata := by
  unfold SpanTable.largeMetadata
  rw [h]

/-- An object of a small span is the reference of an allocated slot. -/
theorem exists_slot (hk : t.kind ref.spanId = some (.small s)) (hholds : (SpanKind.small s).Holds
    ref.spanOffset) :
    ∃ slot ∈ t.allocatedSlots ref.spanId, t.slotReference ref.spanId slot = ref ∧
        s.metadata.sizeClass.slotForOffset ref.spanOffset = some slot := by
  obtain ⟨slot, hsl, hm⟩ := hholds
  have hmeta := metadata_of_kind hk
  have hc := (SizeClass.slotForOffset_eq_some.mp hsl).1
  refine ⟨slot, ?_, ?_, hsl⟩
  · simp only [allocatedSlots, hmeta]
    exact SmallSpanMetadata.mem_liveSlots.mpr ⟨hm, hc⟩
  · simp only [slotReference, hmeta, Option.map_some, Option.getD_some,
      SizeClass.slotOffset_of_slotForOffset hsl]

/-- An object on a dirty card is the reference of a dirty slot. -/
theorem exists_dirtySlot (hk : t.kind ref.spanId = some (.small s)) (hholds : (SpanKind.small
    s).Holds ref.spanOffset) (hdirty : t.remembers ref = true) :
    ∃ slot ∈ t.dirtyOldSlots ref.spanId, t.slotReference ref.spanId slot = ref := by
  obtain ⟨slot, hsl, href, hoff⟩ := exists_slot hk hholds
  have hmeta := metadata_of_kind hk
  simp only [remembers, hk, Option.any_some, SpanKind.remembers, Bool.and_eq_true,
    decide_eq_true_eq] at hdirty
  refine ⟨slot, ?_, href⟩
  simp only [allocatedSlots, hmeta] at hsl
  simp only [dirtyOldSlots, hmeta, hdirty.1]
  refine Finset.mem_filter.mpr ⟨hsl, ?_⟩
  rw [SizeClass.slotOffset_of_slotForOffset hoff]
  exact hdirty.2

/-- A remembered object of a small span leaves a dirty card. -/
theorem dirtyOldCardCount_ne_zero (hk : t.kind ref.spanId = some (.small s)) (h : t.remembers ref =
    true) : t.dirtyOldCardCount ref.spanId ≠ 0 := by
  simp only [remembers, hk, Option.any_some, SpanKind.remembers, Bool.and_eq_true,
    decide_eq_true_eq] at h
  simp only [dirtyOldCardCount, metadata_of_kind hk, h.1]
  exact Finset.card_ne_zero_of_mem (of_decide_eq_true h.2)

/-- A large span has no dirty cards; what it may remember is its only object. -/
theorem rememberedLargeReference_of_kind {s : LargeSpan}
    (hk : t.kind ref.spanId = some (.largeOwner s))
    (hholds : (SpanKind.largeOwner s).Holds ref.spanOffset)
    (h : t.remembers ref = true) : t.dirtyOldCardCount ref.spanId = 0 ∧
      t.rememberedLargeReference ref.spanId = some ref := by
  simp only [remembers, hk, Option.any_some, SpanKind.remembers] at h
  constructor
  · simp [dirtyOldCardCount, SpanTable.metadata, hk]
  · simp only [rememberedLargeReference, largeMetadata_of_kind hk, h, if_true]
    rw [← hholds.1]

/-! ## Views of the skeleton -/

theorem metadata_skeleton (t : SpanTable) (span : SpanId) : t.skeleton.metadata span =
      (t.metadata span).map fun metadata => { metadata with marks := .new } := by
  unfold SpanTable.metadata
  rw [kind_skeleton]
  cases t.kind span with
  | none => rfl
  | some kind => cases kind <;> rfl

theorem slotReference_skeleton (t : SpanTable) (span : SpanId) :
    t.skeleton.slotReference span = t.slotReference span := by
  funext slot
  unfold slotReference
  rw [metadata_skeleton]
  cases t.metadata span <;> rfl

theorem dirtyOldSlots_skeleton (t : SpanTable) (span : SpanId) :
    t.skeleton.dirtyOldSlots span = t.dirtyOldSlots span := by
  unfold dirtyOldSlots
  rw [metadata_skeleton]
  cases t.metadata span <;> rfl

theorem nextSlot_skeleton (t : SpanTable) (ref : RawHeapRef) :
    t.skeleton.nextSlot ref = t.nextSlot ref := by
  unfold nextSlot
  rw [metadata_skeleton]
  cases t.metadata ref.spanId <;> rfl

theorem dirtyOldCardCount_skeleton (t : SpanTable) (span : SpanId) :
    t.skeleton.dirtyOldCardCount span = t.dirtyOldCardCount span := by
  unfold dirtyOldCardCount
  rw [metadata_skeleton]
  cases t.metadata span <;> rfl

theorem rememberedLargeReference_skeleton (t : SpanTable) (span : SpanId) :
    t.skeleton.rememberedLargeReference span = t.rememberedLargeReference span := by
  unfold rememberedLargeReference largeMetadata
  rw [kind_skeleton]
  cases t.kind span with
  | none => rfl
  | some kind => cases kind <;> rfl

theorem rememberedNext_skeleton (t : SpanTable) (span : SpanId) :
    t.skeleton.rememberedNext span = t.rememberedNext span := by
  unfold rememberedNext remembered
  simp only [getElem?_skeleton]
  cases t.entries[span]? <;> rfl

theorem remembers_skeleton (t : SpanTable) (ref : RawHeapRef) :
    t.skeleton.remembers ref = t.remembers ref := by
  unfold remembers
  rw [kind_skeleton]
  cases t.kind ref.spanId with
  | none => rfl
  | some kind => cases kind <;> rfl

section Congr

variable (h : t.skeleton = t'.skeleton)
include h

theorem nextSlot_congr (ref : RawHeapRef) : t.nextSlot ref = t'.nextSlot ref := by
  rw [← nextSlot_skeleton, h, nextSlot_skeleton]

theorem rememberedLargeReference_congr (span : SpanId) :
    t.rememberedLargeReference span = t'.rememberedLargeReference span := by
  rw [← rememberedLargeReference_skeleton, h, rememberedLargeReference_skeleton]

theorem rememberedHead_congr : t.rememberedHead = t'.rememberedHead := by
  have hhead : t.skeleton.rememberedHead = t'.skeleton.rememberedHead := by rw [h]
  exact hhead

theorem rememberedNext_congr (span : SpanId) : t.rememberedNext span = t'.rememberedNext span := by
  rw [← rememberedNext_skeleton, h, rememberedNext_skeleton]

theorem remembers_congr (ref : RawHeapRef) : t.remembers ref = t'.remembers ref := by
  rw [← remembers_skeleton, h, remembers_skeleton]

end Congr

end SpanTable

end TachyonEngine.Gc
