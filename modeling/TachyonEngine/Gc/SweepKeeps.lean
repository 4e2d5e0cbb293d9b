import TachyonEngine.Gc.SweepSteps
import TachyonEngine.Gc.MarkClosure

/-!
# What a sweep keeps

A sweep makes no object: what is allocated behind it was allocated before, with the
same header, fields and mark (`SweepSteps.sub`). The sweep of a minor collection keeps
every object that is marked or not young (`SweepSteps.kept`). Fields outlive their
object until the entry is released (`SweepSteps.payload`), and no mark is newer than
before (`SweepSteps.marksWithin`).
-/

namespace TachyonEngine.Gc

open Lib.Traversal SpanTable

/-! ## Free lists -/

namespace SmallSpan

/-- Links written into dead slots. -/
structure Frees (s s' : SmallSpan) : Prop where
  metadata : ∃ head, s'.metadata = { s.metadata with freeListHead := head }
  spanCount : s'.storage.spanCount = s.storage.spanCount
  payload : ∀ off, (s'.storage.cells off).payload = (s.storage.cells off).payload
  live : ∀ off slot, s.metadata.sizeClass.slotForOffset off = some slot →
    slot ∈ s.metadata.allocations → s'.storage.cells off = s.storage.cells off

theorem Frees.trans {s s' s'' : SmallSpan} (h : Frees s s') (h' : Frees s' s'') : Frees s s'' := by
  obtain ⟨head, hmeta⟩ := h.metadata
  obtain ⟨head', hmeta'⟩ := h'.metadata
  refine ⟨⟨head', ?_⟩, h'.spanCount.trans h.spanCount,
    fun off => (h'.payload off).trans (h.payload off), ?_⟩
  · rw [hmeta', hmeta]
  · intro off slot hsl hm
    rw [h'.live off slot, h.live off slot hsl hm]
    · rw [hmeta]
      exact hsl
    · rw [hmeta]
      exact hm

theorem frees_pushFree (s : SmallSpan) (slot : SlotIndex) : Frees s (s.pushFree slot) := by
  have hrefl : Frees s s := ⟨⟨_, rfl⟩, rfl, fun _ => rfl, fun _ _ _ _ => rfl⟩
  unfold pushFree
  split_ifs with hfree
  · exact hrefl
  · cases hoff : s.metadata.sizeClass.offsetForSlot slot with
    | none => exact hrefl
    | some free =>
      refine ⟨⟨_, rfl⟩, rfl, ?_, ?_⟩
      · intro off
        simp only [SpanStorage.writeFreeNext]
        rcases eq_or_ne off free with rfl | hne
        · simp
        · simp [hne]
      · intro off slot' hsl hm
        -- An allocated slot is another one, and so is its offset.
        have hne : off ≠ free := by
          rintro rfl
          have heq : slot' = slot :=
            SizeClass.slot_unique hsl (SizeClass.offsetForSlot_iff_slotForOffset.mp hoff)
          exact hfree (heq ▸ hm)
        simp [SpanStorage.writeFreeNext, hne]

theorem frees_rebuildFreeList (s : SmallSpan) : Frees s s.rebuildFreeList := by
  have hfold : ∀ (slots : List SlotIndex) (s : SmallSpan), Frees s (slots.foldl pushFree s) := by
    intro slots
    induction slots with
    | nil => exact fun s => ⟨⟨_, rfl⟩, rfl, fun _ => rfl, fun _ _ _ _ => rfl⟩
    | cons slot slots ih => exact fun s => (frees_pushFree s slot).trans (ih _)
  refine Frees.trans ?_ (hfold _ _)
  exact ⟨⟨none, rfl⟩, rfl, fun _ => rfl, fun _ _ _ _ => rfl⟩

end SmallSpan

/-! ## Entries -/

/-- The same header, fields and mark at an offset. -/
structure SpanKind.Same (off : SpanOffset) (kind kind' : SpanKind) : Prop where
  header : kind'.header off = kind.header off
  payload : kind'.payload off = kind.payload off
  markBit : ∀ epoch, kind'.markBit off epoch = kind.markBit off epoch

theorem SpanKind.Same.refl (off : SpanOffset) (kind : SpanKind) : kind.Same off kind :=
  ⟨rfl, rfl, fun _ => rfl⟩

namespace KindStep

variable {g : Generation} {epoch : CollectionEpoch} {o o' : Option SpanKind}
variable {kind kind' : SpanKind} {off : SpanOffset}

/-- What is allocated after a step was allocated before. -/
theorem sub (h : KindStep g epoch o o') (hk : o' = some kind') (hlive : kind'.Live off) :
    ∃ kind, o = some kind ∧ kind.Live off ∧ kind.Same off kind' := by
  cases h with
  | same =>
    subst hk
    exact ⟨kind', rfl, hlive, .refl off kind'⟩
  | @drop s slot metadata _ _ hrcl =>
    cases hk
    obtain ⟨-, rfl⟩ := SmallSpanMetadata.reclaimAllocation_eq_some hrcl
    obtain ⟨⟨slot', hsl, hm⟩, htype⟩ := hlive
    exact ⟨.small s, rfl, ⟨⟨slot', hsl, Finset.mem_of_mem_erase hm⟩, htype⟩, rfl, rfl, fun _ => rfl⟩
  | pool =>
    cases hk
    obtain ⟨⟨slot', -, hm⟩, -⟩ := hlive
    exact absurd hm (Finset.notMem_empty _)
  | release | vacate => cases hk
  | @advance s space =>
    cases hk
    exact ⟨.small s, rfl, hlive, rfl, rfl, fun _ => rfl⟩
  | freeList s =>
    cases hk
    obtain ⟨head, hmeta⟩ := (SmallSpan.frees_rebuildFreeList s).metadata
    obtain ⟨⟨slot, hsl, hm⟩, htype⟩ := hlive
    rw [hmeta] at hsl hm
    have hcell := (SmallSpan.frees_rebuildFreeList s).live off slot hsl hm
    have hheader : (SpanKind.small s.rebuildFreeList).header off =
        (SpanKind.small s).header off := congrArg Cell.header hcell
    refine ⟨.small s, rfl, ⟨⟨slot, hsl, hm⟩, hheader ▸ htype⟩, hheader,
      congrArg Cell.payload hcell, ?_⟩
    intro e
    simp only [SpanKind.markBit, hmeta]
  | unpublishLarge =>
    cases hk
    obtain ⟨⟨-, hallocated⟩, -⟩ := hlive
    cases hallocated

/-- A minor sweep keeps what is marked or not young. -/
theorem kept (h : KindStep .young epoch o o') (hk : o = some kind) (hlive : kind.Live off)
    (hkeep : kind.markBit off epoch = true ∨ kind.referenceSpace ≠ some .young) :
    ∃ kind', o' = some kind' ∧ kind'.Live off ∧
      (kind.referenceSpace ≠ some .young → kind'.referenceSpace = kind.referenceSpace) := by
  have hspace : ∀ s : SmallSpan, s.metadata.space.isYoung = true →
      (SpanKind.small s).referenceSpace = some .young := by
    intro s hyoung
    simp [SpanKind.referenceSpace, hyoung]
  cases h with
  | same =>
    subst hk
    exact ⟨kind, rfl, hlive, fun _ => rfl⟩
  | @drop s slot metadata hyoung hunmarked hrcl =>
    cases hk
    obtain ⟨-, rfl⟩ := SmallSpanMetadata.reclaimAllocation_eq_some hrcl
    have hyoungSpace := hspace s (hyoung rfl)
    obtain ⟨⟨slot', hsl, hm⟩, htype⟩ := hlive
    refine ⟨_, rfl, ⟨⟨slot', hsl, Finset.mem_erase.mpr ⟨?_, hm⟩⟩, htype⟩,
      fun hold => absurd hyoungSpace hold⟩
    rintro rfl
    rcases hkeep with hmarked | hold
    · simp only [SpanKind.markBit, hsl, hunmarked] at hmarked
      cases hmarked
    · exact hold hyoungSpace
  | @pool s generation hyoung hunmarked =>
    cases hk
    rcases hkeep with hmarked | hold
    · rw [hunmarked off hlive] at hmarked
      cases hmarked
    · exact absurd (hspace s hyoung) hold
  | @release s hyoung =>
    cases hk
    obtain ⟨hyoung, hunmarked⟩ := hyoung rfl
    rcases hkeep with hmarked | hold
    · rw [hunmarked off hlive] at hmarked
      cases hmarked
    · exact absurd (hspace s hyoung) hold
  | @advance s space hyoung =>
    cases hk
    exact ⟨_, rfl, hlive, fun hold => absurd (hspace s hyoung) hold⟩
  | freeList s =>
    cases hk
    obtain ⟨head, hmeta⟩ := (SmallSpan.frees_rebuildFreeList s).metadata
    obtain ⟨⟨slot, hsl, hm⟩, htype⟩ := hlive
    have hcell := (SmallSpan.frees_rebuildFreeList s).live off slot hsl hm
    have hheader : (SpanKind.small s.rebuildFreeList).header off =
        (SpanKind.small s).header off := congrArg Cell.header hcell
    refine ⟨_, rfl, ⟨⟨slot, by rw [hmeta]; exact hsl, by rw [hmeta]; exact hm⟩, ?_⟩,
      fun _ => ?_⟩
    · rw [hheader]
      exact htype
    · simp only [SpanKind.referenceSpace, hmeta]
  | unpublishLarge hg | vacate _ hg => cases hg

theorem payload (h : KindStep g epoch o o') (off : SpanOffset) :
    (o'.map fun kind => kind.payload off).getD [] = (o.map fun kind => kind.payload off).getD [] ∨
      (o'.map fun kind => kind.payload off).getD [] = [] := by
  cases h with
  | freeList s => exact Or.inl ((SmallSpan.frees_rebuildFreeList s).payload off)
  | _ => first | exact Or.inl rfl | exact Or.inr rfl

theorem markEpoch (h : KindStep g epoch o o') :
    o'.bind SpanKind.markEpoch = o.bind SpanKind.markEpoch ∨ o'.bind SpanKind.markEpoch = none := by
  cases h with
  | drop _ _ hrcl =>
    obtain ⟨-, rfl⟩ := SmallSpanMetadata.reclaimAllocation_eq_some hrcl
    exact Or.inl rfl
  | freeList s =>
    obtain ⟨head, hmeta⟩ := (SmallSpan.frees_rebuildFreeList s).metadata
    refine Or.inl ?_
    simp only [Option.bind_some, SpanKind.markEpoch, hmeta]
  | _ => first | exact Or.inl rfl | exact Or.inr rfl

end KindStep

/-! ## Tables -/

/-- An object that goes through a sweep as it is. -/
structure Survives (t t' : SpanTable) (ref : RawHeapRef) : Prop where
  verify : t'.verifyReference ref none = t.verifyReference ref none
  payload : t'.payload ref = t.payload ref
  markBit : ∀ epoch, t'.markBit ref epoch = t.markBit ref epoch

variable {t t' : SpanTable} {ref : RawHeapRef}

theorem Survives.trans {t'' : SpanTable} (h : Survives t t' ref) (h' : Survives t' t'' ref) :
    Survives t t'' ref :=
  ⟨h'.verify.trans h.verify, h'.payload.trans h.payload,
    fun epoch => (h'.markBit epoch).trans (h.markBit epoch)⟩

theorem Survives.valid (h : Survives t t' ref) : t'.Valid ref ↔ t.Valid ref := by
  unfold SpanTable.Valid
  rw [h.verify]

theorem Survives.marked {epoch : CollectionEpoch} (h : Survives t t' ref) :
    ref ∈ t'.marked epoch ↔ ref ∈ t.marked epoch := by
  rw [mem_marked, mem_marked, h.valid, h.markBit]

theorem survives_of_kind {kind kind' : SpanKind} (hk : t.kind ref.spanId = some kind) (hk' : t'.kind
    ref.spanId = some kind') (hlive : kind.Live ref.spanOffset) (hlive' : kind'.Live ref.spanOffset)
    (hs : kind.Same ref.spanOffset kind') : Survives t t' ref := by
  refine ⟨?_, ?_, ?_⟩
  · rw [verifyReference_eq_ok.mpr ⟨kind, hk, hlive, rfl⟩,
      verifyReference_eq_ok.mpr ⟨kind', hk', hlive', rfl⟩, hs.header]
  · simp [SpanTable.payload, hk, hk', hs.payload]
  · simp [markBit, hk, hk', hs.markBit]

namespace SweepSteps

variable {g : Generation} {epoch : CollectionEpoch} {t t' : SpanTable} {ref : RawHeapRef}

theorem sub (h : SweepSteps g epoch t t') (hval : t'.Valid ref) : Survives t t' ref := by
  induction h with
  | refl => exact ⟨rfl, rfl, fun _ => rfl⟩
  | tail _ hstep ih =>
    obtain ⟨kind', hk', hlive'⟩ := valid_iff.mp hval
    obtain ⟨kind, hk, hlive, hs⟩ := (hstep.kindStep ref.spanId).sub hk' hlive'
    exact (ih (valid_iff.mpr ⟨kind, hk, hlive⟩)).trans (survives_of_kind hk hk' hlive hlive' hs)

/-- Old objects stay where they are. -/
theorem ignored_iff {t : SpanTable} : Ignored .young t ref ↔
    ∃ kind, t.kind ref.spanId = some kind ∧ kind.Live ref.spanOffset ∧
      kind.referenceSpace ≠ some .young := by
  unfold Ignored
  simp only [true_and]
  constructor
  · rintro ⟨space, hspace, hold⟩
    unfold referenceSpace at hspace
    cases hverify : t.verifyReference ref none with
    | error e =>
      rw [hverify] at hspace
      cases hspace
    | ok header =>
      obtain ⟨kind, hk, hlive, -⟩ := verifyReference_eq_ok.mp hverify
      rw [hverify, hk] at hspace
      simp only [Option.bind_some] at hspace
      refine ⟨kind, hk, hlive, ?_⟩
      intro hyoung
      rw [hyoung] at hspace
      cases hspace
      exact hold rfl
  · rintro ⟨kind, hk, hlive, hold⟩
    have hverify := verifyReference_eq_ok.mpr ⟨kind, hk, hlive, rfl⟩
    cases hspace : kind.referenceSpace with
    | none =>
      cases kind with
      | small s | largeOwner s => cases hspace
      | largeContinuation owner ordinal => exact hlive.1.elim
    | some space =>
      refine ⟨space, ?_, ?_⟩
      · unfold referenceSpace
        rw [hverify, hk]
        simp [hspace]
      · rintro rfl
        exact hold hspace

theorem kept (h : SweepSteps .young epoch t t')
    (hkeep : ref ∈ t.marked epoch ∨ Ignored .young t ref) :
    Survives t t' ref ∧ (Ignored .young t ref → Ignored .young t' ref) := by
  induction h with
  | refl => exact ⟨⟨rfl, rfl, fun _ => rfl⟩, fun h => h⟩
  | @tail t₁ t₂ _ hstep ih =>
    obtain ⟨hsurvives, hold⟩ := ih
    have hkeep₁ : ref ∈ t₁.marked epoch ∨ Ignored .young t₁ ref :=
      hkeep.imp hsurvives.marked.mpr hold
    have hk₁ : ∃ kind, t₁.kind ref.spanId = some kind ∧ kind.Live ref.spanOffset ∧
        (kind.markBit ref.spanOffset epoch = true ∨ kind.referenceSpace ≠ some .young) := by
      rcases hkeep₁ with hmarked | hign
      · obtain ⟨hval, hbit⟩ := mem_marked.mp hmarked
        obtain ⟨kind, hk, hlive⟩ := valid_iff.mp hval
        refine ⟨kind, hk, hlive, Or.inl ?_⟩
        simpa [markBit, hk] using hbit
      · obtain ⟨kind, hk, hlive, hspace⟩ := ignored_iff.mp hign
        exact ⟨kind, hk, hlive, Or.inr hspace⟩
    obtain ⟨kind, hk, hlive, hcase⟩ := hk₁
    obtain ⟨kind', hk', hlive', hspace⟩ := (hstep.kindStep ref.spanId).kept hk hlive hcase
    obtain ⟨kind₁, heq, -, hs⟩ := (hstep.kindStep ref.spanId).sub hk' hlive'
    rw [hk] at heq
    cases heq
    refine ⟨hsurvives.trans (survives_of_kind hk hk' hlive hlive' hs), fun hign => ?_⟩
    obtain ⟨kind₂, hk₂, -, hold₂⟩ := ignored_iff.mp (hold hign)
    rw [hk] at hk₂
    cases hk₂
    exact ignored_iff.mpr ⟨kind', hk', hlive', by rw [hspace hold₂]; exact hold₂⟩

theorem payload (h : SweepSteps g epoch t t') (ref : RawHeapRef) :
    t'.payload ref = t.payload ref ∨ t'.payload ref = [] := by
  induction h with
  | refl => exact Or.inl rfl
  | tail _ hstep ih =>
    rcases (hstep.kindStep ref.spanId).payload ref.spanOffset with heq | heq
    · unfold SpanTable.payload at ih ⊢
      rw [heq]
      exact ih
    · exact Or.inr heq

theorem marksWithin {cur : CollectionEpoch} (h : SweepSteps g epoch t t')
    (hmarks : t.MarksWithin cur) : t'.MarksWithin cur := by
  induction h with
  | refl => exact hmarks
  | tail _ hstep ih =>
    rw [marksWithin_iff] at ih ⊢
    intro span e he
    rcases (hstep.kindStep span).markEpoch with heq | heq
    · rw [heq] at he
      exact ih span e he
    · rw [heq] at he
      cases he

end SweepSteps

end TachyonEngine.Gc
