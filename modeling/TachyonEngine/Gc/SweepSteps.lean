import TachyonEngine.Gc.Heap
import TachyonEngine.Gc.Views

/-!
# The steps of a sweep

Whatever a sweep does with the table is a sequence of a few operations, `SweepStep`:
an object that is not marked is unpublished, an empty span goes to the pool or is
released, a surviving young span is aged or promoted, free lists are rebuilt, a large
object that is not marked goes with its range, and the chain of young spans is
compacted. One step is one change of each entry, `KindStep`; what a sweep keeps is
proved of these.
-/

namespace TachyonEngine.Gc

open SpanTable

open Lib.Traversal Lib.Capacity

/-- No marked object is in the span. -/
def SpanTable.Unmarked (t : SpanTable) (epoch : CollectionEpoch) (span : SpanId) : Prop :=
  ∀ ref ∈ t.marked epoch, ref.spanId ≠ span

/-- One operation of a sweep on the table. Those of a minor collection are confined to
young spans. -/
inductive SweepStep (g : Generation) (epoch : CollectionEpoch) : SpanTable → SpanTable → Prop
  | reserve (t : SpanTable) (capacity : Nat) (allocator : Allocator) :
      t.freeRangesCapacity ≤ capacity →
      SweepStep g epoch t { t with freeRangesCapacity := capacity, allocator := allocator }
  | unpublish {t t' : SpanTable} {ref : RawHeapRef} :
      t.isMarked ref epoch = .ok false →
      (g = .young → (t.youngSpace ref.spanId).isSome) →
      t.unpublishSmallForDrop ref = some t' → SweepStep g epoch t t'
  | pool {t : SpanTable} {span : SpanId} :
      g = .young → (t.youngSpace span).isSome → t.Unmarked epoch span →
      SweepStep g epoch t (t.poolEmptyYoung span)
  | release {t t' : SpanTable} {span : SpanId} :
      (g = .young → (t.youngSpace span).isSome ∧ t.Unmarked epoch span) →
      t.release span = (.ok (), t') → SweepStep g epoch t t'
  | advance {t : SpanTable} {span : SpanId} {early : Bool} :
      g = .young → (t.youngSpace span).isSome →
      (early = true → (t.youngLiveOccupancy span epoch).any
        (fun occupancy => shouldPromoteEarly occupancy.1 occupancy.2) = true) →
      SweepStep g epoch t (t.advanceYoungCohort span youngPromotionAge early).2
  | freeList (t : SpanTable) (span : SpanId) :
      SweepStep g epoch t (t.rebuildOldFreeList span)
  | unpublishLarge {t t' : SpanTable} {ref : RawHeapRef} :
      g = .full → t.isMarked ref epoch = .ok false →
      t.unpublishLargeForDrop ref = .ok t' → SweepStep g epoch t t'
  | releaseLarge {t t' : SpanTable} {ref : RawHeapRef} {reclaim : LargeReclaim} :
      g = .full → t.releaseUnpublishedLarge ref = (.ok reclaim, t') → SweepStep g epoch t t'
  | compact {t t' : SpanTable} : t.compactYoungSpans = some t' → SweepStep g epoch t t'

/-- Some operations of a sweep. -/
abbrev SweepSteps (g : Generation) (epoch : CollectionEpoch) : SpanTable → SpanTable → Prop :=
  Relation.ReflTransGen (SweepStep g epoch)

/-- No object of what an entry holds is marked. -/
def SpanKind.Unmarked (epoch : CollectionEpoch) (kind : SpanKind) : Prop :=
  ∀ offset, kind.Live offset → kind.markBit offset epoch = false

/-- One operation of a sweep as one entry sees it. -/
inductive KindStep (g : Generation) (epoch : CollectionEpoch) :
    Option SpanKind → Option SpanKind → Prop
  | same (kind : Option SpanKind) : KindStep g epoch kind kind
  | drop {s : SmallSpan} {slot : SlotIndex} {metadata : SmallSpanMetadata} :
      (g = .young → s.metadata.space.isYoung = true) →
        s.metadata.marks.isMarked slot epoch = false →
      s.metadata.reclaimAllocation slot = some metadata →
      KindStep g epoch (some (.small s)) (some (.small { s with metadata := metadata }))
  | pool {s : SmallSpan} {generation : Nat} :
      s.metadata.space.isYoung = true → (SpanKind.small s).Unmarked epoch →
      KindStep g epoch (some (.small s))
        (some (.small { s with metadata := .new s.metadata.sizeClass .eden generation }))
  | release {s : SmallSpan} :
      (g = .young → s.metadata.space.isYoung = true ∧ (SpanKind.small s).Unmarked epoch) →
      s.metadata.allocatedSlots = 0 → KindStep g epoch (some (.small s)) none
  | advance {s : SmallSpan} {space : SpanSpace} :
      s.metadata.space.isYoung = true →
      (space = .old → promotionDueToAge s.metadata.space youngPromotionAge = true ∨
        shouldPromoteEarly (s.metadata.marks.markedCount epoch) s.metadata.sizeClass.slotCount =
          true) →
      KindStep g epoch (some (.small s))
        (some (.small { s with metadata := { s.metadata with space := space } }))
  | freeList (s : SmallSpan) :
      s.metadata.space = .old →
      KindStep g epoch (some (.small s)) (some (.small s.rebuildFreeList))
  | unpublishLarge {s : LargeSpan} :
      g = .full → s.metadata.isMarked epoch = false →
      KindStep g epoch (some (.largeOwner s))
        (some (.largeOwner { s with metadata := s.metadata.reclaim }))
  | vacate (kind : Option SpanKind) : g = .full → KindStep g epoch kind none

namespace SpanTable

variable {g : Generation} {epoch : CollectionEpoch} {t t' : SpanTable} {span : SpanId}

/-- Growth of a vector, whatever comes of it. -/
theorem reserveForAdditional_facts (length cap additional initialCapacity maximumCapacity : Nat)
    (alloc : Allocator) : (∀ cap' alloc',
      reserveForAdditional length cap additional initialCapacity maximumCapacity alloc =
        (some cap', alloc') → cap ≤ cap' ∧ length + additional ≤ cap') ∧ ∀ alloc',
      reserveForAdditional length cap additional initialCapacity maximumCapacity alloc =
        (none, alloc') → length + additional ≤ maximumCapacity → alloc.request.1 = false := by
  unfold reserveForAdditional
  split
  next hfits =>
    refine ⟨?_, ?_⟩
    · rintro cap' alloc' ⟨⟩
      exact ⟨le_refl _, hfits⟩
    · rintro alloc' ⟨⟩
  · simp only
    generalize (if cap = 0 then initialCapacity else (cap * 3 + 1) / 2) = grown
    split
    · refine ⟨?_, ?_⟩
      · rintro cap' alloc' ⟨⟩
      · rintro alloc' - hmaximum
        omega
    · rcases hreq : alloc.request with ⟨_ | _, next⟩
      · refine ⟨?_, ?_⟩
        · rintro cap' alloc' ⟨⟩
        · exact fun _ _ _ => rfl
      · refine ⟨?_, ?_⟩
        · rintro cap' alloc' ⟨⟩
          constructor
          · omega
          · omega
        · rintro alloc' ⟨⟩

/-- A reservation changes the capacity and the allocator at most. When it succeeds, the
index joins a range or there is room for one more. -/
theorem reserveFreeRangeIfNeeded_facts (t : SpanTable) (idx : Nat) :
    ∃ cap alloc, (t.reserveFreeRangeIfNeeded idx).2 =
        { t with freeRangesCapacity := cap, allocator := alloc } ∧
      t.freeRangesCapacity ≤ cap ∧
      ((t.reserveFreeRangeIfNeeded idx).1 = .ok () →
        adjacentFreeRange t.freeRanges idx = true ∨ t.freeRanges.length + 1 ≤ cap) ∧
      ((t.reserveFreeRangeIfNeeded idx).1 ≠ .ok () → adjacentFreeRange t.freeRanges idx = false ∧
          (t.freeRanges.length + 1 ≤ maxFreeSpanRanges → t.allocator.request.1 = false)) := by
  unfold reserveFreeRangeIfNeeded
  cases hadjacent : adjacentFreeRange t.freeRanges idx with
  | true =>
    refine ⟨t.freeRangesCapacity, t.allocator, rfl, le_refl _, fun _ => Or.inl rfl, ?_⟩
    intro h
    exact absurd rfl h
  | false =>
    obtain ⟨hsome, hn⟩ := reserveForAdditional_facts t.freeRanges.length t.freeRangesCapacity 1
      initialFreeRangeCapacity maxFreeSpanRanges t.allocator
    simp only
    rcases hrsv : reserveForAdditional t.freeRanges.length t.freeRangesCapacity 1
      initialFreeRangeCapacity maxFreeSpanRanges t.allocator with ⟨_ | cap, alloc⟩
    · refine ⟨t.freeRangesCapacity, alloc, rfl, le_refl _, ?_, ?_⟩
      · intro h
        cases h
      · exact fun _ => ⟨trivial, hn alloc hrsv⟩
    · obtain ⟨hcap, hroom⟩ := hsome cap alloc hrsv
      refine ⟨cap, alloc, rfl, hcap, fun _ => Or.inr hroom, ?_⟩
      intro h
      exact absurd rfl h

/-- Asking for room changes no entry. -/
theorem reserveFreeRangeIfNeeded_cases (t : SpanTable) (idx : Nat) :
    ∃ cap alloc, (t.reserveFreeRangeIfNeeded idx).2 =
      { t with freeRangesCapacity := cap, allocator := alloc } ∧ t.freeRangesCapacity ≤ cap := by
  obtain ⟨cap, alloc, heq, hcap, -, -⟩ := t.reserveFreeRangeIfNeeded_facts idx
  exact ⟨cap, alloc, heq, hcap⟩

theorem prepareRelease_steps (t : SpanTable) (span : SpanId) :
    SweepSteps g epoch t (t.prepareRelease span).2 := by
  obtain ⟨cap, alloc, heq, hcap⟩ := t.reserveFreeRangeIfNeeded_cases span
  unfold prepareRelease
  rw [heq]
  exact .single (.reserve t cap alloc hcap)

/-- The table without a span that had room for its range. -/
def released (t : SpanTable) (span : SpanId) : SpanTable :=
  let vacated := (t.vacate span).modifyEntry span fun entry => { entry with inEdenPool := false }
  { vacated with
    liveSpans := vacated.liveSpans - 1
    activeYoungSpans := vacated.activeYoungSpans - if t.wasActiveYoung span then 1 else 0 }

/-- A release changes no entry, or empties the one of a small span with no object left. -/
theorem release_outcome (t : SpanTable) (span : SpanId) :
    (∃ e cap alloc, t.freeRangesCapacity ≤ cap ∧ t.release span =
      (.error e, { t with freeRangesCapacity := cap, allocator := alloc })) ∨
    ∃ s reserved, t.kind span = some (.small s) ∧ s.metadata.allocatedSlots = 0 ∧
      t.reserveFreeRangeIfNeeded span = (.ok (), reserved) ∧
      t.release span = (.ok (), reserved.released span) := by
  have hs : ∀ e, ∃ e' cap alloc, t.freeRangesCapacity ≤ cap ∧
      ((.error e, t) : Except SpanTableError Unit × SpanTable) =
        (.error e', { t with freeRangesCapacity := cap, allocator := alloc }) :=
    fun e => ⟨e, _, _, le_refl _, rfl⟩
  unfold release kind
  cases t.entries[span]? with
  | none => exact Or.inl (hs _)
  | some ent =>
    simp only [Option.bind_some]
    rcases ent.kind with _ | ⟨s⟩ | s | ⟨owner, ordinal⟩
    · exact Or.inl (hs _)
    · simp only
      split_ifs with hz
      · exact Or.inl (hs _)
      · obtain ⟨cap, alloc, heq, hcap⟩ := t.reserveFreeRangeIfNeeded_cases span
        generalize t.reserveFreeRangeIfNeeded span = res at heq ⊢
        obtain ⟨e | ⟨⟩, reserved⟩ := res
        · exact Or.inl ⟨e, cap, alloc, hcap, congrArg _ heq⟩
        · exact Or.inr ⟨s, reserved, rfl, Classical.not_not.mp hz, rfl, rfl⟩
    · exact Or.inl (hs _)
    · exact Or.inl (hs _)

/-- A failed release changes no entry. -/
theorem release_steps (h : g = .young → (t.youngSpace span).isSome ∧ t.Unmarked epoch span) :
    SweepSteps g epoch t (t.release span).2 := by
  rcases t.release_outcome span with ⟨e, cap, alloc, hcap, heq⟩ | ⟨s, reserved, -, -, -, heq⟩
  · rw [heq]
    exact .single (.reserve t cap alloc hcap)
  · rw [heq]
    exact .single (.release h heq)

/-- The release of a large range changes no entry, or empties those of the range. -/
theorem releaseUnpublishedLarge_outcome (t : SpanTable) (ref : RawHeapRef) :
    (∃ e cap alloc, t.freeRangesCapacity ≤ cap ∧ t.releaseUnpublishedLarge ref =
      (.error e, { t with freeRangesCapacity := cap, allocator := alloc })) ∨
    ∃ (s : LargeSpan) (reclaim : LargeReclaim) (reserved : SpanTable),
      t.kind ref.spanId = some (.largeOwner s) ∧
      t.reserveFreeRangeIfNeeded ref.spanId = (.ok (), reserved) ∧
      t.releaseUnpublishedLarge ref =
        (.ok reclaim, { reserved.vacateRange ref.spanId s.metadata.spanCount with
          liveSpans := (reserved.vacateRange ref.spanId s.metadata.spanCount).liveSpans -
            s.metadata.spanCount }) := by
  have hs : ∀ e, ∃ e' cap alloc, t.freeRangesCapacity ≤ cap ∧
      ((.error e, t) : Except SpanTableError LargeReclaim × SpanTable) =
        (.error e', { t with freeRangesCapacity := cap, allocator := alloc }) :=
    fun e => ⟨e, _, _, le_refl _, rfl⟩
  unfold releaseUnpublishedLarge
  rcases t.kind ref.spanId with _ | ⟨s⟩ | s | ⟨owner, ordinal⟩
  · exact Or.inl (hs _)
  · exact Or.inl (hs _)
  · simp only
    split
    · exact Or.inl (hs _)
    · obtain ⟨cap, alloc, heq, hcap⟩ := t.reserveFreeRangeIfNeeded_cases ref.spanId
      generalize t.reserveFreeRangeIfNeeded ref.spanId = res at heq ⊢
      obtain ⟨e | ⟨⟩, reserved⟩ := res
      · exact Or.inl ⟨e, cap, alloc, hcap, congrArg _ heq⟩
      · exact Or.inr ⟨s, _, reserved, rfl, rfl, rfl⟩
  · exact Or.inl (hs _)

theorem releaseUnpublishedLarge_steps (ref : RawHeapRef) :
    SweepSteps .full epoch t (t.releaseUnpublishedLarge ref).2 := by
  rcases t.releaseUnpublishedLarge_outcome ref with
    ⟨e, cap, alloc, hcap, heq⟩ | ⟨s, reclaim, reserved, -, -, heq⟩
  · rw [heq]
    exact .single (.reserve t cap alloc hcap)
  · rw [heq]
    exact .single (.releaseLarge rfl heq)

end SpanTable

namespace SpanTable

variable {g : Generation} {epoch : CollectionEpoch} {t t' : SpanTable} {span : SpanId}
variable {ref : RawHeapRef}

/-- Unpublishing clears one allocation bit. -/
theorem unpublishSmallForDrop_eq_some (h : t.unpublishSmallForDrop ref = some t') :
    ∃ s slot metadata, t.kind ref.spanId = some (.small s) ∧
      s.metadata.sizeClass.slotForOffset ref.spanOffset = some slot ∧
      s.metadata.reclaimAllocation slot = some metadata ∧
      t' = t.modifyKind ref.spanId fun _ => .small { s with metadata := metadata } := by
  unfold unpublishSmallForDrop at h
  rcases hk : t.kind ref.spanId with _ | ⟨s⟩ | s | ⟨owner, ordinal⟩
  · rw [hk] at h
    cases h
  · rw [hk] at h
    simp only at h
    cases hsl : s.metadata.sizeClass.slotForOffset ref.spanOffset with
    | none =>
      rw [hsl] at h
      cases h
    | some slot =>
      rw [hsl] at h
      simp only at h
      cases hrcl : s.metadata.reclaimAllocation slot with
      | none =>
        rw [hrcl] at h
        cases h
      | some metadata =>
        rw [hrcl] at h
        exact ⟨s, slot, metadata, rfl, hsl, hrcl, (Option.some.inj h).symm⟩
  · rw [hk] at h
    cases h
  · rw [hk] at h
    cases h

/-- What unpublishing leaves of the metadata of any span. -/
theorem metadata_of_unpublish {β : Type} (f : SmallSpanMetadata → β)
    (hf : ∀ (metadata : SmallSpanMetadata) allocations allocatedSlots allocatedBytes,
      f { metadata with
          allocations := allocations
          allocatedSlots := allocatedSlots
          allocatedBytes := allocatedBytes } = f metadata)
    (h : t.unpublishSmallForDrop ref = some t') (span : SpanId) :
    (t'.metadata span).map f = (t.metadata span).map f := by
  obtain ⟨s, slot, metadata, hk, -, hrcl, rfl⟩ := unpublishSmallForDrop_eq_some h
  obtain ⟨-, rfl⟩ := SmallSpanMetadata.reclaimAllocation_eq_some hrcl
  unfold metadata
  rw [kind_modifyKind]
  by_cases hspan : ref.spanId = span
  · subst hspan
    simp only [if_true, hk, Option.map_some, hf]
  · simp only [hspan, if_false]

/-! ## What a step does with one entry -/

theorem kind_modifyEntry (t : SpanTable) (span i : SpanId) (f : SpanEntry → SpanEntry) :
    (t.modifyEntry span f).kind i =
      if span = i then (t.entries[i]?).bind fun ent => (f ent).kind else t.kind i := by
  unfold kind
  rw [getElem?_modifyEntry]
  split
  · cases t.entries[i]? <;> rfl
  · rfl

/-- A change of links alone. -/
theorem kind_modifyEntry_of_kind {f : SpanEntry → SpanEntry}
    (hf : ∀ ent : SpanEntry, (f ent).kind = ent.kind) (span i : SpanId) :
    (t.modifyEntry span f).kind i = t.kind i := by
  rw [kind_modifyEntry]
  split
  · simp only [hf]
    rfl
  · rfl

@[simp] theorem kind_linkRememberedSource (t : SpanTable) (span i : SpanId) :
    (t.linkRememberedSource span).kind i = t.kind i := by
  unfold linkRememberedSource
  split
  · rfl
  · exact @kind_modifyEntry_of_kind t _ (by intro; rfl) span i

@[simp] theorem kind_linkYoungSpan (t : SpanTable) (span i : SpanId) :
    (t.linkYoungSpan span).kind i = t.kind i := by
  unfold linkYoungSpan
  split
  · rfl
  · exact @kind_modifyEntry_of_kind t _ (by intro; rfl) span i

@[simp] theorem kind_relinkYoungSpan (t : SpanTable) (span i : SpanId) :
    (t.relinkYoungSpan span).kind i = t.kind i := by
  have hunlink := @kind_modifyEntry_of_kind t
    (fun ent => { ent with youngNext := none, inYoungSet := false }) (fun _ => rfl) span i
  unfold relinkYoungSpan
  simp only
  split
  · rw [kind_linkYoungSpan, hunlink]
  · exact hunlink

theorem kind_compactYoungSpans (h : t.compactYoungSpans = some t') (i : SpanId) :
    t'.kind i = t.kind i := by
  apply walk_induction (fun s : SpanTable => s.kind i = t.kind i) h rfl
  intro s span hs _
  rw [kind_relinkYoungSpan, hs]

theorem kind_vacate (t : SpanTable) (span i : SpanId) :
    (t.vacate span).kind i = if span = i then none else t.kind i := by
  have h : (t.vacate span).kind i = (t.modifyEntry span fun ent =>
      { ent with kind := none, generation := (ent.generation + 1) % 2 ^ 32 }).kind i := rfl
  rw [h, kind_modifyEntry]
  split
  · cases t.entries[i]? <;> rfl
  · rfl

theorem kind_vacateRange (t : SpanTable) (owner cnt i : Nat) :
    (t.vacateRange owner cnt).kind i = t.kind i ∨ (t.vacateRange owner cnt).kind i = none := by
  unfold vacateRange
  generalize List.range cnt = ordinals
  induction ordinals generalizing t with
  | nil => exact Or.inl rfl
  | cons ordinal ordinals ih =>
    simp only [List.foldl_cons]
    rcases ih (t.vacate (owner + ordinal)) with h | h
    · rw [h, kind_vacate]
      split
      · exact Or.inr rfl
      · exact Or.inl rfl
    · exact Or.inr h

/-- A released span was a small one with no object left, and its entry is vacant. -/
theorem release_eq_ok (h : t.release span = (.ok (), t')) :
    (∃ s, t.kind span = some (.small s) ∧ s.metadata.allocatedSlots = 0) ∧
      ∀ i, t'.kind i = if span = i then none else t.kind i := by
  rcases t.release_outcome span with ⟨e, cap, alloc, -, heq⟩ | ⟨s, reserved, hk, hz, hrsv, heq⟩
  · rw [h] at heq
    cases heq
  · rw [h] at heq
    obtain ⟨cap, alloc, hreserved, -⟩ := t.reserveFreeRangeIfNeeded_cases span
    rw [hrsv] at hreserved
    obtain rfl : reserved = _ := hreserved
    cases heq
    refine ⟨⟨s, hk, hz⟩, ?_⟩
    intro i
    refine Eq.trans (kind_modifyEntry_of_kind (f := fun ent =>
      { ent with inEdenPool := false }) (fun _ => rfl) span i) ?_
    exact kind_vacate _ span i

/-- The young cohort of a span. -/
theorem youngSpace_isSome (h : (t.youngSpace span).isSome) :
    ∃ s, t.kind span = some (.small s) ∧ s.metadata.space.isYoung = true := by
  unfold youngSpace at h
  cases hmeta : t.metadata span with
  | none => simp [hmeta] at h
  | some metadata =>
    obtain ⟨s, hk, rfl⟩ := metadata_eq_some hmeta
    rw [hmeta] at h
    refine ⟨s, hk, ?_⟩
    cases hyoung : s.metadata.space.isYoung
    · simp [hyoung] at h
    · rfl

theorem Unmarked.kind {kind : SpanKind} (h : t.Unmarked epoch span)
    (hk : t.kind span = some kind) : kind.Unmarked epoch := by
  intro off hlive
  cases hbit : kind.markBit off epoch with
  | false => rfl
  | true =>
    exfalso
    refine h ⟨span, off⟩ (mem_marked.mpr ⟨valid_iff.mpr ⟨kind, hk, hlive⟩, ?_⟩) rfl
    simp [markBit, hk, hbit]

/-- A change of one entry is a step of this entry. -/
theorem kindStep_of_span (span : SpanId) (k : Option SpanKind) (i : SpanId)
    (hk : t'.kind i = if span = i then k else t.kind i)
    (h : KindStep g epoch (t.kind span) k) : KindStep g epoch (t.kind i) (t'.kind i) := by
  rw [hk]
  split_ifs with heq
  · rw [← heq]
    exact h
  · exact .same _

theorem advanceYoungCohort_kind {early : Bool} (hyoung : (t.youngSpace span).isSome)
    (hearly : early = true → (t.youngLiveOccupancy span epoch).any
      (fun occupancy => shouldPromoteEarly occupancy.1 occupancy.2) = true) (i : SpanId) :
    KindStep g epoch (t.kind i) ((t.advanceYoungCohort span youngPromotionAge early).2.kind i) := by
  obtain ⟨s, hk, hspace⟩ := youngSpace_isSome hyoung
  have hmeta := metadata_of_kind hk
  have hset : ∀ space, (t.setSpace span space).kind i =
      if span = i then some (.small { s with metadata := { s.metadata with space := space } })
      else t.kind i := by
    intro space
    unfold setSpace
    rw [kind_modifyKind]
    split_ifs with heq
    · rw [← heq, hk]
      rfl
    · rfl
  unfold advanceYoungCohort
  rw [hmeta]
  simp only
  split
  next hpromote =>
    -- Promotion: the cards become those of an old span, and the span may be linked.
    have hs : ∀ t₁ : SpanTable,
        (if t₁.dirtyOldCardCount span ≠ 0 then t₁.linkRememberedSource span else t₁).kind i =
          t₁.kind i := by
      intro t₁
      split
      · exact kind_linkRememberedSource t₁ span i
      · rfl
    refine kindStep_of_span _ _ i ((hs _).trans (hset .old)) ?_
    rw [hk]
    refine .advance hspace fun _ => ?_
    cases early with
    | true =>
      have := hearly rfl
      simp only [youngLiveOccupancy, hmeta, hspace, if_true, Option.any_some] at this
      exact Or.inr this
    | false => exact Or.inl (by simpa using hpromote)
  · refine kindStep_of_span _ _ i (hset _) ?_
    rw [hk]
    refine .advance hspace fun hold => ?_
    cases hcase : s.metadata.space with
    | eden | survivor age => simp [hcase, SpanSpace.aged] at hold
    | old => simp [hcase, SpanSpace.isYoung] at hspace

theorem poolEmptyYoung_kind (hyoung : (t.youngSpace span).isSome) (h : t.Unmarked epoch span)
    (i : SpanId) : KindStep g epoch (t.kind i) ((t.poolEmptyYoung span).kind i) := by
  obtain ⟨s, hk, hspace⟩ := youngSpace_isSome hyoung
  have hpool : (t.poolEmptyYoung span).kind i = (t.modifyEntry span fun ent =>
      { ent with
        generation := (ent.generation + 1) % 2 ^ 32
        kind := ent.kind.map (SpanKind.mapSmall fun metadata =>
          .new metadata.sizeClass .eden ((ent.generation + 1) % 2 ^ 32))
        inEdenPool := true }).kind i := rfl
  rw [hpool, kind_modifyEntry]
  split_ifs with heq
  · subst heq
    have he := hk
    obtain ⟨ent, hget, hentryKind⟩ := Option.bind_eq_some_iff.mp he
    rw [hk, hget]
    simp only [Option.bind_some, hentryKind]
    exact .pool hspace (h.kind hk)
  · exact .same _

theorem unpublishLargeForDrop_eq_ok {ref : RawHeapRef} (h : t.unpublishLargeForDrop ref = .ok t') :
    ∃ s, t.kind ref.spanId = some (.largeOwner s) ∧
      t' = t.modifyKind ref.spanId (SpanKind.mapLarge LargeSpanMetadata.reclaim) := by
  unfold unpublishLargeForDrop at h
  rcases hk : t.kind ref.spanId with _ | ⟨s⟩ | s | ⟨owner, ordinal⟩
  · rw [hk] at h
    cases h
  · rw [hk] at h
    cases h
  · rw [hk] at h
    simp only at h
    split at h
    · cases h
      exact ⟨s, rfl, rfl⟩
    · cases h
  · rw [hk] at h
    cases h

theorem releaseUnpublishedLarge_kind {ref : RawHeapRef} {reclaim : LargeReclaim}
    (h : t.releaseUnpublishedLarge ref = (.ok reclaim, t')) (i : SpanId) :
    t'.kind i = t.kind i ∨ t'.kind i = none := by
  rcases t.releaseUnpublishedLarge_outcome ref with
    ⟨e, cap, alloc, -, heq⟩ | ⟨s, reclaim', reserved, -, hrsv, heq⟩
  · rw [h] at heq
    cases heq
  · rw [h] at heq
    obtain ⟨cap, alloc, hreserved, -⟩ := t.reserveFreeRangeIfNeeded_cases ref.spanId
    rw [hrsv] at hreserved
    obtain rfl : reserved = _ := hreserved
    cases heq
    exact kind_vacateRange _ ref.spanId s.metadata.spanCount i

theorem spanId_of_nextAllocatedReference {start : Nat}
    (h : t.nextAllocatedReference span start = some ref) : ref.spanId = span := by
  rw [nextAllocatedReference_eq] at h
  obtain ⟨slot, -, rfl⟩ := Option.map_eq_some_iff.mp h
  rfl

end SpanTable

/-- A step of the table is a step of each of its entries. -/
theorem SweepStep.kindStep {g : Generation} {epoch : CollectionEpoch} {t t' : SpanTable}
    (h : SweepStep g epoch t t') (i : SpanId) : KindStep g epoch (t.kind i) (t'.kind i) := by
  cases h with
  | reserve cap alloc _ => exact .same _
  | @unpublish _ ref hmarked hyoung hdrop =>
    obtain ⟨s, slot, metadata, hk, hsl, hrcl, rfl⟩ := unpublishSmallForDrop_eq_some hdrop
    obtain ⟨hval, hunmarked⟩ := isMarked_eq_false.mp hmarked
    refine kindStep_of_span ref.spanId (some (.small { s with metadata := metadata })) i ?_ ?_
    · rw [kind_modifyKind]
      split_ifs with heq
      · rw [← heq, hk]
        rfl
      · rfl
    · rw [hk]
      refine .drop ?_ ?_ hrcl
      · intro hg
        obtain ⟨s', hk', hspace⟩ := youngSpace_isSome (hyoung hg)
        rw [hk] at hk'
        cases hk'
        exact hspace
      · cases hbit : s.metadata.marks.isMarked slot epoch with
        | false => rfl
        | true =>
          refine absurd (mem_marked.mpr ⟨hval, ?_⟩) hunmarked
          simp [markBit, hk, SpanKind.markBit, hsl, hbit]
  | pool _ hyoung hunmarked => exact poolEmptyYoung_kind hyoung hunmarked i
  | release hyoung hrel =>
    obtain ⟨⟨s, hk, hz⟩, hkinds⟩ := release_eq_ok hrel
    refine kindStep_of_span _ _ i (hkinds i) ?_
    rw [hk]
    refine .release (fun hg => ?_) hz
    obtain ⟨s', hk', hspace⟩ := youngSpace_isSome (hyoung hg).1
    rw [hk] at hk'
    cases hk'
    exact ⟨hspace, (hyoung hg).2.kind hk⟩
  | advance _ hyoung hearly => exact advanceYoungCohort_kind hyoung hearly i
  | freeList span =>
    unfold rebuildOldFreeList
    cases hmeta : t.metadata span with
    | none => exact .same _
    | some metadata =>
      simp only
      split_ifs with hold
      · obtain ⟨s, hk, rfl⟩ := metadata_eq_some hmeta
        refine kindStep_of_span span (some (.small s.rebuildFreeList)) i ?_ ?_
        · rw [kind_modifyKind]
          split_ifs with heq
          · rw [← heq, hk]
            rfl
          · rfl
        · rw [hk]
          exact .freeList s hold
      · exact .same _
  | @unpublishLarge _ ref hg hmarked hdrop =>
    obtain ⟨s, hk, rfl⟩ := unpublishLargeForDrop_eq_ok hdrop
    obtain ⟨hval, hunmarked⟩ := isMarked_eq_false.mp hmarked
    refine kindStep_of_span ref.spanId
      (some (.largeOwner { s with metadata := s.metadata.reclaim })) i ?_ ?_
    · rw [kind_modifyKind]
      split_ifs with heq
      · rw [← heq, hk]
        rfl
      · rfl
    · rw [hk]
      refine .unpublishLarge hg ?_
      cases hbit : s.metadata.isMarked epoch with
      | false => rfl
      | true =>
        refine absurd (mem_marked.mpr ⟨hval, ?_⟩) hunmarked
        simp [markBit, hk, SpanKind.markBit, hbit]
  | releaseLarge hg hrel =>
    rcases releaseUnpublishedLarge_kind hrel i with heq | heq
    · rw [heq]
      exact .same _
    · rw [heq]
      exact .vacate _ hg
  | compact hcompact =>
    rw [kind_compactYoungSpans hcompact]
    exact .same _

end TachyonEngine.Gc
