import TachyonEngine.Gc.FinalizationRun
import TachyonEngine.Gc.YoungChain

/-!
# Runs of the heap

A run is any sequence of allocations, stores, barriers, reclaims, collections and trims,
each with any outcome. An operation of the table belongs to a sweep, or it allocates or
reclaims, or it relabels marks, payloads, cards and remembered links only and leaves the
bare table as it is; each of them keeps `SpanTable.Sound`. `Heap.Sound` is what holds
between two operations of a run, and slots are never handed out twice because of it.
-/

namespace TachyonEngine.Gc

open SpanTable Option

open Lib.Traversal Lib.Capacity

/-! ## Relabelling -/

theorem SmallSpan.SlotsSound.of_bare {s s' : SmallSpan} (hs : s.SlotsSound)
    (h : (SpanKind.small s').bare = (SpanKind.small s).bare) : s'.SlotsSound := by
  simp only [SpanKind.bare, SpanKind.small.injEq, SmallSpan.mk.injEq] at h
  obtain ⟨hsto, hmetadata⟩ := h
  refine hs.congr ⟨s'.metadata.space, s'.metadata.marks, s'.metadata.cards,
    s'.metadata.reuseGeneration, ?_⟩ ?_
  · rcases s' with ⟨storage', ⟨⟩⟩
    simp_all
  · intro off
    have hcells := congrArg (fun storage => (storage.cells off).header.typeIdField) hsto
    exact hcells

namespace SpanTable

variable {t t' : SpanTable}

theorem kind_of_bare (h : t'.bare = t.bare) (i : SpanId) :
    (t'.kind i).map SpanKind.bare = (t.kind i).map SpanKind.bare := by
  rw [← kind_bare, h, kind_bare]

theorem shape_of_bare (h : t'.bare = t.bare) (i : SpanId) : t'.shape i = t.shape i := by
  have hbare : SpanKind.shape = SpanKind.shape ∘ SpanKind.bare := by
    funext kind
    cases kind <;> rfl
  simp only [shape]
  rw [hbare, ← map_map, kind_of_bare h, map_map]

variable {s' : SmallSpan}

/-- A small span and its relabelled form. -/
theorem small_of_bare (h : t'.bare = t.bare) {i : SpanId} (hk : t'.kind i = some (.small s')) :
    ∃ s, t.kind i = some (.small s) ∧ (SpanKind.small s').bare = (SpanKind.small s).bare := by
  have hbare := kind_of_bare h i
  rw [hk] at hbare
  rcases hcase : t.kind i with _ | ⟨s⟩ | s | ⟨owner, ordinal⟩
  · rw [hcase] at hbare
    cases hbare
  · rw [hcase] at hbare
    exact ⟨s, rfl, some.inj hbare⟩
  · rw [hcase] at hbare
    cases hbare
  · rw [hcase] at hbare
    cases hbare

/-! ## The table between two operations -/

/-- Vacant entries are tracked, and the slots of every small span are sound. -/
structure Sound (t : SpanTable) : Prop where
  tracked : t.Tracked
  slots : t.SlotsSound

theorem Sound.new (alloc : Allocator) : (new alloc).Sound where
  tracked := .new alloc
  slots := by
    intro span s hk
    cases hk

theorem Sound.of_bare (h : t.Sound) (hbare : t'.bare = t.bare) : t'.Sound where
  tracked := by
    have hlen : t'.entries.length = t.entries.length := by
      have := congrArg (fun t : SpanTable => t.entries.length) hbare
      simpa [bare] using this
    refine h.tracked.congr hlen (shape_of_bare hbare) ?_ ?_ (le_of_eq ?_)
    · exact (mk.inj hbare).2.2.1
    · exact (mk.inj hbare).2.2.2.2.1
    · exact (mk.inj hbare).2.2.2.1.symm
  slots := by
    intro i s' hk
    obtain ⟨s, hk', heq⟩ := small_of_bare hbare hk
    exact (h.slots i s hk').of_bare heq

theorem SlotsSound.of_same (h : t.SlotsSound) (hk : ∀ i, t'.kind i = t.kind i) :
    t'.SlotsSound := fun i s heq => h i s ((hk i).symm.trans heq)

variable {g : Generation} {epoch : CollectionEpoch}

/-- A step of a sweep drops, resets, ages or relists. -/
theorem SlotsSound.kindStep {o : Option SpanKind} (h : ∀ s, o = some (.small s) → s.SlotsSound)
    (hstep : KindStep g epoch o (some (.small s'))) : s'.SlotsSound := by
  cases hstep with
  | same => exact h s' rfl
  | drop _ _ hrcl => exact (h _ rfl).reclaim hrcl
  | pool => exact .new _ _ _ _
  | advance => exact (h _ rfl).congr ⟨_, _, _, _, rfl⟩ fun _ => rfl
  | freeList s => exact (h s rfl).rebuildFreeList

theorem Tracked.sweepStep (h : t.Tracked) (hstep : SweepStep g epoch t t') : t'.Tracked := by
  cases hstep with
  | reserve cap alloc hcap => exact h.congr rfl (fun _ => rfl) rfl rfl hcap
  | @unpublish _ ref _ _ hdrop =>
    obtain ⟨s, slot, metadata, hk, -, -, rfl⟩ := unpublishSmallForDrop_eq_some hdrop
    refine h.congr (length_modifyEntry ..) ?_ rfl rfl (le_refl _)
    intro i
    simp only [shape, kind_modifyKind]
    split_ifs with heq
    · rw [← heq, hk]
      rfl
    · rfl
  | @pool span _ hyoung _ =>
    refine h.congr (length_modifyEntry ..) ?_ rfl rfl (le_refl _)
    intro i
    refine Eq.trans (congrArg (Option.map SpanKind.shape) (kind_modifyEntry t span i _)) ?_
    split
    · simp only [shape, kind]
      cases t.entries[i]? with
      | none => rfl
      | some ent =>
        simp only [Option.bind_some, Option.map_map]
        congr 1
        funext kind
        cases kind <;> rfl
    · rfl
  | @release _ span _ hrelease =>
    have hrel := h.release span
    rw [hrelease] at hrel
    exact hrel
  | @advance span early _ hyoung _ =>
    simp only [advanceYoungCohort]
    cases t.metadata span with
    | none => exact h
    | some metadata =>
      have hset : ∀ space, (t.setSpace span space).Tracked := by
        intro space
        apply h.modifyKind
        intro kind
        cases kind <;> rfl
      simp only
      split
      · have hlk : (if (t.setSpace span .old).dirtyOldCardCount span ≠ 0 then
            (t.setSpace span .old).linkRememberedSource span
          else t.setSpace span .old).Tracked := by
          split
          · exact (hset .old).linkRememberedSource span
          · exact hset .old
        exact hlk.congr rfl (fun _ => rfl) rfl rfl (le_refl _)
      · exact hset _
  | freeList span =>
    simp only [rebuildOldFreeList]
    cases hmeta : t.metadata span with
    | none => exact h
    | some metadata =>
      simp only
      split
      · apply h.modifyKind
        intro kind
        cases kind <;> rfl
      · exact h
  | unpublishLarge _ _ hdrop => exact h.unpublishLargeForDrop hdrop
  | @releaseLarge _ ref _ _ hrelease =>
    have hrel := h.releaseUnpublishedLarge ref
    rw [hrelease] at hrel
    exact hrel
  | compact hcompact =>
    -- Links only: neither shapes nor ranges are touched on the way.
    have hwalk : t'.Tracked := by
      apply walk_induction (fun s : SpanTable => s.Tracked) hcompact
      · exact h.congr rfl (fun _ => rfl) rfl rfl (le_refl _)
      · intro s span hs _
        have hunlinked : (s.modifyEntry span fun ent =>
            { ent with youngNext := none, inYoungSet := false }).Tracked := by
          refine hs.congr (length_modifyEntry ..) ?_ rfl rfl (le_refl _)
          apply shape_modifyEntry_of_kind
          intro ent
          rfl
        simp only [relinkYoungSpan]
        split
        · exact hunlinked.linkYoungSpan span
        · exact hunlinked
    exact hwalk

theorem Sound.sweepStep (h : t.Sound) (hstep : SweepStep g epoch t t') : t'.Sound where
  tracked := h.tracked.sweepStep hstep
  slots := by
    intro i s' hk
    have hkindStep := hstep.kindStep i
    rw [hk] at hkindStep
    exact SlotsSound.kindStep (h.slots i) hkindStep

theorem Sound.sweepSteps (h : t.Sound) (hsteps : SweepSteps g epoch t t') : t'.Sound := by
  induction hsteps with
  | refl => exact h
  | tail _ hstep ih => exact ih.sweepStep hstep

/-! ## Allocations -/

theorem Sound.allocateSpan (h : t.Sound) (sizeClass : SizeClass) (space : SpanSpace) :
    (t.tryAllocateSmall sizeClass space).2.Sound where
  tracked := h.tracked.tryAllocateSmall sizeClass space
  slots := by
    rcases h.tracked.tryAllocateSmall_installs sizeClass space with
      ⟨e, -, hsm⟩ | ⟨span, -, hinstalls⟩
    · exact h.slots.of_same fun i => (hsm i).1
    · intro i s hk
      by_cases hi : i = span
      · subst hi
        obtain ⟨storage, generation, hnew⟩ := hinstalls.kind
        rw [hnew] at hk
        cases hk
        exact .new _ _ _ _
      · rw [(hinstalls.others i hi).1] at hk
        exact h.slots i s hk

variable {layout : Layout} {header : GcHeader} {payload : List TraceField}

theorem Sound.allocate {span : SpanId} {res : Except SmallAllocationError RawHeapRef} (h : t.Sound)
    (hal : t.tryAllocateInSpan span layout header payload = some (res, t')) : t'.Sound where
  tracked := (allocates_tryAllocateInSpan hal).tracked h.tracked
  slots := (h.slots.tryAllocateInSpan hal).1

theorem Sound.allocateLarge {res : Except LargeAllocationError (RawHeapRef × Nat)} (h : t.Sound)
    (hal : t.tryAllocateLarge layout header payload = some (res, t')) : t'.Sound where
  tracked := h.tracked.tryAllocateLarge hal
  slots := by
    intro i s hk
    rcases (h.tracked.tryAllocateLarge_installs hal).entry i with
      ⟨hsm, -⟩ | ⟨-, ⟨kind, hnew, -, hlarge⟩, -⟩
    · rw [hsm] at hk
      exact h.slots i s hk
    · rw [hnew] at hk
      exact absurd (some.inj hk) (hlarge s)

theorem kind_activatePooledEden (t : SpanTable) (span i : SpanId) :
    (t.activatePooledEden span).kind i = t.kind i := by
  have hflag : (t.modifyEntry span fun ent => { ent with inEdenPool := false }).kind i =
      t.kind i := by
    apply kind_modifyEntry_of_kind
    intro ent
    rfl
  simp only [activatePooledEden, kind_linkYoungSpan]
  exact hflag

theorem Sound.activate (h : t.Sound) (span : SpanId) : (t.activatePooledEden span).Sound where
  tracked := by
    have hflag : (t.modifyEntry span fun ent => { ent with inEdenPool := false }).Tracked := by
      refine h.tracked.congr (length_modifyEntry ..) ?_ rfl rfl (le_refl _)
      apply shape_modifyEntry_of_kind
      intro ent
      rfl
    apply Tracked.linkYoungSpan
    exact hflag.congr rfl (fun _ => rfl) rfl rfl (le_refl _)
  slots := h.slots.of_same (kind_activatePooledEden t span)

/-- A reclaim changes one span: an old span gets the slot back on its free list, a young one
does not. -/
theorem reclaimSmallAfterDrop_cases (t : SpanTable) (ref : RawHeapRef) :
    (t.reclaimSmallAfterDrop ref).2 = t ∨
      ∃ s slot metadata s', t.kind ref.spanId = some (.small s) ∧
        s.metadata.sizeClass.slotForOffset ref.spanOffset = some slot ∧
        s.metadata.reclaimAllocation slot = some metadata ∧
        (t.reclaimSmallAfterDrop ref).2 = t.modifyKind ref.spanId (fun _ => .small s') ∧
        (s' = { storage := s.storage.writeFreeNext ref.spanOffset metadata.freeListHead
                metadata := { metadata with freeListHead := some slot } } ∨
          s' = { s with metadata := metadata }) := by
  simp only [reclaimSmallAfterDrop]
  split
  next s hk =>
    split
    · exact Or.inl rfl
    next slot hsl =>
      split
      · exact Or.inl rfl
      next metadata hrcl =>
        refine Or.inr ⟨s, slot, metadata, ?_⟩
        by_cases hold : metadata.space = .old
        · simp only [hold]
          exact ⟨_, hk, hsl, hrcl, rfl, Or.inl rfl⟩
        · simp only [hold]
          exact ⟨_, hk, hsl, hrcl, rfl, Or.inr rfl⟩
  · exact Or.inl rfl

theorem Sound.reclaim (h : t.Sound) (ref : RawHeapRef) : (t.reclaimSmallAfterDrop ref).2.Sound := by
  rcases t.reclaimSmallAfterDrop_cases ref with
    heq | ⟨s, slot, metadata, s', hk, hsl, hrcl, heq, hs'⟩
  · rw [heq]
    exact h
  · have hs := h.slots _ s hk
    rw [heq]
    refine ⟨?_, ?_⟩
    · refine h.tracked.congr (length_modifyEntry ..) ?_ rfl rfl (le_refl _)
      intro i
      simp only [shape, kind_modifyKind]
      split_ifs with hi
      · rw [← hi, hk]
        rfl
      · rfl
    · intro i s₁ hk₁
      rw [kind_modifyKind] at hk₁
      split_ifs at hk₁ with hi
      · rw [← hi, hk] at hk₁
        cases hk₁
        rcases hs' with rfl | rfl
        · exact hs.reclaimOld hsl hrcl
        · exact hs.reclaim hrcl
      · exact h.slots i s₁ hk₁

/-! ## Marks -/

section

variable (h : t.MarksWithin epoch)

include h

theorem MarksWithin.of_markEpoch
    (hsm : ∀ i, (t'.kind i).bind SpanKind.markEpoch = (t.kind i).bind SpanKind.markEpoch ∨
      (t'.kind i).bind SpanKind.markEpoch = none) : t'.MarksWithin epoch := by
  rw [marksWithin_iff] at h ⊢
  intro i e he
  rcases hsm i with heq | heq
  · rw [heq] at he
    exact h i e he
  · rw [heq] at he
    cases he

theorem MarksWithin.allocateSpan (htracked : t.Tracked)
    (sizeClass : SizeClass) (space : SpanSpace) :
    (t.tryAllocateSmall sizeClass space).2.MarksWithin epoch := by
  apply h.of_markEpoch
  intro i
  rcases htracked.tryAllocateSmall_installs sizeClass space with
    ⟨e, -, hsm⟩ | ⟨span, -, hinstalls⟩
  · rw [(hsm i).1]
    exact Or.inl rfl
  · by_cases hi : i = span
    · subst hi
      obtain ⟨storage, generation, hnew⟩ := hinstalls.kind
      rw [hnew]
      exact Or.inr rfl
    · rw [(hinstalls.others i hi).1]
      exact Or.inl rfl

theorem MarksWithin.allocate {span : SpanId} {res : Except SmallAllocationError RawHeapRef}
    (hal : t.tryAllocateInSpan span layout header payload = some (res, t')) :
    t'.MarksWithin epoch := by
  have hallocates := allocates_tryAllocateInSpan hal
  apply h.of_markEpoch
  intro i
  by_cases hi : i = span
  · subst hi
    rcases hallocates.kind with heq | ⟨s, s', hk, hk', hkeeps⟩
    · rw [heq]
      exact Or.inl rfl
    · rw [hk, hk']
      exact Or.inl (congrArg MarkBitmap.epoch hkeeps.marks)
  · rw [hallocates.others i hi]
    exact Or.inl rfl

theorem MarksWithin.allocateLarge {res : Except LargeAllocationError (RawHeapRef × Nat)}
    (htracked : t.Tracked) (hal : t.tryAllocateLarge layout header payload = some (res, t')) :
    t'.MarksWithin epoch := by
  apply h.of_markEpoch
  intro i
  rcases (htracked.tryAllocateLarge_installs hal).entry i with
    ⟨hsm, -⟩ | ⟨-, ⟨kind, hnew, hmark, -⟩, -⟩
  · rw [hsm]
    exact Or.inl rfl
  · rw [hnew]
    exact Or.inr hmark

theorem MarksWithin.reclaim (ref : RawHeapRef) :
    (t.reclaimSmallAfterDrop ref).2.MarksWithin epoch := by
  rcases t.reclaimSmallAfterDrop_cases ref with
    heq | ⟨s, slot, metadata, s', hk, -, hrcl, heq, hs'⟩
  · rw [heq]
    exact h
  · obtain ⟨-, rfl⟩ := SmallSpanMetadata.reclaimAllocation_eq_some hrcl
    rw [heq]
    apply h.of_markEpoch
    intro i
    rw [kind_modifyKind]
    split_ifs with hi
    · rw [← hi, hk]
      rcases hs' with rfl | rfl
      · exact Or.inl rfl
      · exact Or.inl rfl
    · exact Or.inl rfl

end

end SpanTable

/-! ## Operations -/

/-- An operation of the mutator or of the collector. -/
inductive HeapOp where
  | allocate (req : AllocationRequest)
  | store (source : RawHeapRef) (fields : List TraceField)
  | barrier (source target : RawHeapRef)
  | reclaim (reference : RawHeapRef)
  | minor (barrierVerifier : Bool) (roots : List TraceField)
  | major (roots : List TraceField)
  | trim

namespace Heap

variable {h h' : Heap}

/-- One operation, whatever its result; `none` when it does not return. A store goes to an
object that is there. -/
def heapStep (h : Heap) : HeapOp → Option Heap
  | .allocate req => (h.tryAllocateAccounted req).map (·.2)
  | .store source fields =>
    match h.table.verifyReference source none with
    | .error _ => some h
    | .ok _ => some (h.storeFields source fields)
  | .barrier source target =>
    match h.writeBarrier source target with
    | .error _ => some h
    | .ok (_, h) => some h
  | .reclaim reference => some { h with table := (h.table.reclaimSmallAfterDrop reference).2 }
  | .minor barrierVerifier roots => (h.collectMinor barrierVerifier roots).map (·.2)
  | .major roots => (h.collectMajor roots).map (·.2)
  | .trim => some h.trimEdenPoolStorage.2

/-- Some operations, one after the other. -/
def runHeap (ops : List HeapOp) (h : Heap) : Option Heap := ops.foldlM heapStep h

/-- What holds of the table between two operations. -/
structure Sound (h : Heap) : Prop where
  table : h.table.Sound
  marks : h.table.MarksWithin h.collectionEpoch

theorem Sound.new (maxHeapBytes : Nat) (types : TypeRegistry) (allocators : Allocators) :
    (Heap.new maxHeapBytes types allocators).Sound where
  table := .new allocators.table
  marks := fun _ he => absurd he List.not_mem_nil

theorem Sound.of_table (hs : h.Sound) (ht : h'.table = h.table)
    (hepoch : h'.collectionEpoch = h.collectionEpoch) : h'.Sound := by
  constructor
  · rw [ht]
    exact hs.table
  · rw [ht, hepoch]
    exact hs.marks

/-! ## Allocation -/

variable {req : AllocationRequest} {res : Except HeapAllocationError RawHeapRef}

section

variable (hs : h.Sound)

include hs

theorem Sound.allocateInSpan {span : SpanId}
    (hal : h.allocateInSpan span req = some (res, h')) : h'.Sound := by
  simp only [Heap.allocateInSpan] at hal
  split at hal
  · cases hal
  next ht =>
    cases hal
    exact ⟨hs.table.allocate ht, hs.marks.allocate ht⟩
  next ht =>
    cases hal
    exact ⟨hs.table.allocate ht, hs.marks.allocate ht⟩

theorem Sound.reusePooled (classIndex : Nat) (span : SpanId) (pool : EdenPool) :
    (h.reusePooled classIndex span pool).Sound where
  table := hs.table.activate span
  marks := by
    apply hs.marks.of_markEpoch
    intro i
    exact Or.inl (congrArg (·.bind SpanKind.markEpoch) (kind_activatePooledEden h.table span i))

omit hs in
theorem table_setActive (h : Heap) (space : AllocationSpace) (classIndex : Nat)
    (span : Option SpanId) : (h.setActive space classIndex span).table = h.table ∧
      (h.setActive space classIndex span).collectionEpoch = h.collectionEpoch := by
  cases space with
  | young | old => exact ⟨rfl, rfl⟩

theorem Sound.setActive (space : AllocationSpace) (classIndex : Nat) (span : Option SpanId) :
    (h.setActive space classIndex span).Sound := by
  obtain ⟨ht, hepoch⟩ := table_setActive h space classIndex span
  exact hs.of_table ht hepoch

variable {classIndex : Nat} {space : AllocationSpace}

theorem Sound.allocateSlow (hal : h.allocateSlow classIndex space req = some (res, h')) :
    h'.Sound := by
  simp only [Heap.allocateSlow] at hal
  generalize (if space = .young then h.edenPool.takeForReuse classIndex else none) = reuse at hal
  obtain ⟨capacity, hcapacity⟩ : ∃ capacity, h.ensureCommitCapacity spanSizeBytes = capacity :=
    ⟨_, rfl⟩
  rw [hcapacity] at hal
  obtain _ | ⟨span, pool⟩ := reuse
  · simp only at hal
    split at hal
    · cases hal
      exact hs
    · split at hal
      · cases hal
      next sizeClass _ =>
        have ht := hs.table.allocateSpan sizeClass (AllocationSpace.spanSpace space)
        have hmarks := hs.marks.allocateSpan hs.table.tracked sizeClass
          (AllocationSpace.spanSpace space)
        generalize h.table.tryAllocateSmall sizeClass (AllocationSpace.spanSpace space) = fresh
          at hal ht hmarks
        obtain ⟨e | span, tbl⟩ := fresh
        · cases hal
          exact ⟨ht, hmarks⟩
        · refine Sound.allocateInSpan (Sound.setActive ?_ space classIndex (some span)) hal
          exact ⟨ht, hmarks⟩
  · exact (hs.reusePooled classIndex span pool).allocateInSpan hal

theorem Sound.tryAllocateClass (hal : h.tryAllocateClass classIndex space req = some (res, h')) :
    h'.Sound := by
  simp only [Heap.tryAllocateClass] at hal
  split at hal
  · exact hs.allocateSlow hal
  · split at hal
    · exact hs.allocateInSpan hal
    · exact (hs.setActive space classIndex none).allocateSlow hal

theorem Sound.allocateLarge (hal : h.allocateLarge req = some (res, h')) : h'.Sound := by
  simp only [Heap.allocateLarge] at hal
  split at hal
  · cases hal
    exact hs
  · split at hal
    · cases hal
      exact hs
    · split at hal
      · cases hal
      next ht =>
        cases hal
        exact ⟨hs.table.allocateLarge ht, hs.marks.allocateLarge hs.table.tracked ht⟩
      next ht =>
        cases hal
        exact ⟨hs.table.allocateLarge ht, hs.marks.allocateLarge hs.table.tracked ht⟩

omit hs in
/-- An accounted allocation fails before it starts, or is one of the two above. -/
theorem tryAllocateAccounted_cases (hal : h.tryAllocateAccounted req = some (res, h')) :
    h' = h ∨ ∃ plan : AllocationPlan, ∃ inner : Heap,
      (h' = inner ∨ h' = inner.chargeObject plan.externalBytes) ∧
      ((∃ classIndex res', plan.classIndex = some classIndex ∧
        h.tryAllocateClass classIndex plan.space req = some (res', inner)) ∨
      ∃ res', h.allocateLarge req = some (res', inner)) := by
  simp only [tryAllocateAccounted] at hal
  split at hal
  · cases hal
    exact Or.inl rfl
  · split at hal
    · cases hal
      exact Or.inl rfl
    next plan _ =>
      split at hal
      · cases hal
        exact Or.inl rfl
      · refine Or.inr ⟨plan, ?_⟩
        cases hclass : plan.classIndex with
        | none =>
          rw [hclass] at hal
          split at hal
          · cases hal
          next hrun =>
            cases hal
            exact ⟨_, Or.inl rfl, Or.inr ⟨_, hrun⟩⟩
          next hrun =>
            cases hal
            exact ⟨_, Or.inr rfl, Or.inr ⟨_, hrun⟩⟩
        | some classIndex =>
          rw [hclass] at hal
          split at hal
          · cases hal
          next hrun =>
            cases hal
            exact ⟨_, Or.inl rfl, Or.inl ⟨classIndex, _, rfl, hrun⟩⟩
          next hrun =>
            cases hal
            exact ⟨_, Or.inr rfl, Or.inl ⟨classIndex, _, rfl, hrun⟩⟩

theorem Sound.tryAllocateAccounted
    (hal : h.tryAllocateAccounted req = some (res, h')) : h'.Sound := by
  rcases tryAllocateAccounted_cases hal with rfl | ⟨plan, inner, heq, hinner⟩
  · exact hs
  · have hsound : inner.Sound := by
      rcases hinner with ⟨classIndex, res', -, hrun⟩ | ⟨res', hrun⟩
      · exact hs.tryAllocateClass hrun
      · exact hs.allocateLarge hrun
    rcases heq with rfl | rfl
    · exact hsound
    · exact hsound.of_table rfl rfl

/-! ## Stores, barriers and collections -/

theorem Sound.storeFields (source : RawHeapRef) (fields : List TraceField) :
    (h.storeFields source fields).Sound where
  table := hs.table.of_bare (bare_congr (skeleton_setPayload _ _ _))
  marks := hs.marks.setPayload

omit hs in
/-- The barrier changes cards and remembered links. -/
theorem uncarded_rememberOldToYoung {t t' : SpanTable} {source tgt : RawHeapRef}
    {remembered : Bool} (hbarrier : t.rememberOldToYoung source tgt = .ok (remembered, t')) :
    t'.uncarded = t.uncarded := by
  simp only [rememberOldToYoung] at hbarrier
  split at hbarrier
  · cases hbarrier
  · split at hbarrier
    · cases hbarrier
    · split at hbarrier
      · cases hbarrier
        rfl
      · split at hbarrier
        · cases hbarrier
          split
          · simp
          · simp
        · cases hbarrier
          split
          · simp
          · simp
        · cases hbarrier
          rfl

theorem Sound.of_uncarded (huncarded : h'.table.uncarded = h.table.uncarded)
    (hepoch : h'.collectionEpoch = h.collectionEpoch) : h'.Sound where
  table := hs.table.of_bare (bare_of_uncarded huncarded)
  marks := by
    rw [hepoch]
    exact (marksWithin_of_uncarded huncarded).mpr hs.marks

theorem Sound.writeBarrier {source tgt : RawHeapRef} {remembered : Bool}
    (hbarrier : h.writeBarrier source tgt = .ok (remembered, h')) : h'.Sound := by
  simp only [Heap.writeBarrier] at hbarrier
  split at hbarrier
  · cases hbarrier
  next ht =>
    cases hbarrier
    exact hs.of_uncarded (uncarded_rememberOldToYoung ht) rfl

end

variable {roots : List TraceField}

/-- A marking relabels the table and ends in a new epoch. -/
theorem markYoung_bare {res : Except MarkError (MarkStats × YoungMarkStats)}
    (hmarks : h.table.MarksWithin h.collectionEpoch) (hmark : h.markYoung roots = some (res, h')) :
    h'.table.bare = h.table.bare ∧ h'.table.young = h.table.young ∧
      h'.table.MarksWithin h'.collectionEpoch := by
  obtain ⟨-, -, hskel, -⟩ := advanceCollectionEpoch_fresh hmarks
  obtain ⟨cleared, log, m, m', -, -, hweak, -, huncarded, -, -, -, hwi, -⟩ :=
    markYoung_facts hmarks hmark
  refine ⟨?_, ?_, hwi⟩
  · calc h'.table.bare = m'.table.bare := bare_of_uncarded huncarded
      _ = h.advanceEpoch.table.bare := bare_congr hweak.skeleton
      _ = h.table.bare := bare_congr hskel
  · calc h'.table.young = m'.table.young := young_of_uncarded huncarded
      _ = h.advanceEpoch.table.young := young_of_skeleton hweak.skeleton
      _ = h.table.young := young_of_skeleton hskel

theorem markStrong_bare {res : Except MarkError MarkStats}
    (hmarks : h.table.MarksWithin h.collectionEpoch) (hmark : h.markStrong roots = (res, h')) :
    h'.table.bare = h.table.bare ∧ h'.table.young = h.table.young ∧
      h'.table.MarksWithin h'.collectionEpoch := by
  obtain ⟨-, -, hskel, -⟩ := advanceCollectionEpoch_fresh hmarks
  obtain ⟨cleared, log, m, m', -, -, hweak, ht, -, -, hwi, -⟩ := markStrong_facts hmarks hmark
  refine ⟨?_, ?_, hwi⟩
  · calc h'.table.bare = m'.table.bare := by rw [ht]
      _ = h.advanceEpoch.table.bare := bare_congr hweak.skeleton
      _ = h.table.bare := bare_congr hskel
  · calc h'.table.young = m'.table.young := by rw [ht]
      _ = h.advanceEpoch.table.young := young_of_skeleton hweak.skeleton
      _ = h.table.young := young_of_skeleton hskel

section

variable (hs : h.Sound)

include hs

theorem Sound.of_steps {g : Generation} {epoch : CollectionEpoch}
    (hsteps : SweepSteps g epoch h.table h'.table)
    (hepoch : h'.collectionEpoch = h.collectionEpoch) : h'.Sound where
  table := hs.table.sweepSteps hsteps
  marks := by
    rw [hepoch]
    exact hsteps.marksWithin hs.marks

theorem Sound.markYoung {res : Except MarkError (MarkStats × YoungMarkStats)}
    (hmark : h.markYoung roots = some (res, h')) : h'.Sound := by
  obtain ⟨hbare, -, hwi⟩ := markYoung_bare hs.marks hmark
  exact ⟨hs.table.of_bare hbare, hwi⟩

theorem Sound.markStrong {res : Except MarkError MarkStats}
    (hmark : h.markStrong roots = (res, h')) : h'.Sound := by
  obtain ⟨hbare, -, hwi⟩ := markStrong_bare hs.marks hmark
  exact ⟨hs.table.of_bare hbare, hwi⟩

theorem Sound.collectMinor {verifier : Bool}
    {res : Except MinorCollectionError MinorCollectionStats}
    (hcoll : h.collectMinor verifier roots = some (res, h')) : h'.Sound := by
  rcases collectMinor_cases hcoll with ⟨e, -, rfl⟩ | hcycle
  · exact hs
  · rcases minorCycle_cases hcycle with
      ⟨e, hmark, -⟩ | ⟨stats, marked, s, hmark, hsweep, habsorb, -, -⟩
    · exact hs.markYoung hmark
    · have hsteps := Sweeper.sweepYoung_steps _ hsweep
      exact (hs.markYoung hmark).of_steps (habsorb.table ▸ hsteps) habsorb.epoch

theorem Sound.trim : h.trimEdenPoolStorage.2.Sound := by
  obtain ⟨hsteps, -, hepoch⟩ := trims_trimEdenPoolStorage h
  exact hs.of_steps hsteps hepoch

theorem Sound.collectMajor {res : Except MajorCollectionError MajorCollectionStats}
    (hcoll : h.collectMajor roots = some (res, h')) : h'.Sound := by
  rcases collectMajor_cases hcoll with
    ⟨e, -, rfl⟩ | ⟨e, -, hmark⟩ | ⟨stats, marked, hmark, habsorb, -, -⟩
  · exact hs.trim
  · exact hs.trim.markStrong hmark
  · have hsteps := Sweeper.sweepFull_steps marked.types marked.collectionEpoch marked.sweeper
    exact (hs.trim.markStrong hmark).of_steps (habsorb.table ▸ hsteps) habsorb.epoch

theorem Sound.heapStep {op : HeapOp} (hstep : h.heapStep op = some h') : h'.Sound := by
  cases op with
  | allocate req =>
    obtain ⟨⟨res, heap⟩, hrun, rfl⟩ := map_eq_some_iff.mp hstep
    exact hs.tryAllocateAccounted hrun
  | store source fields =>
    simp only [Heap.heapStep] at hstep
    split at hstep
    · cases hstep
      exact hs
    · cases hstep
      exact hs.storeFields source fields
  | barrier source tgt =>
    simp only [Heap.heapStep] at hstep
    split at hstep
    · cases hstep
      exact hs
    next hbarrier =>
      cases hstep
      exact hs.writeBarrier hbarrier
  | reclaim ref =>
    cases hstep
    exact ⟨hs.table.reclaim ref, hs.marks.reclaim ref⟩
  | minor verifier roots =>
    obtain ⟨⟨res, heap⟩, hrun, rfl⟩ := map_eq_some_iff.mp hstep
    exact hs.collectMinor hrun
  | major roots =>
    obtain ⟨⟨res, heap⟩, hrun, rfl⟩ := map_eq_some_iff.mp hstep
    exact hs.collectMajor hrun
  | trim =>
    cases hstep
    exact hs.trim

omit hs in
/-- A run keeps what every operation keeps. -/
theorem runHeap_induction (P : Heap → Prop) {ops : List HeapOp} (h0 : P h)
    (hstep : ∀ h op h', op ∈ ops → P h → h.heapStep op = some h' → P h')
    (hrun : runHeap ops h = some h') : P h' := by
  induction ops generalizing h with
  | nil =>
    cases hrun
    exact h0
  | cons op ops ih =>
    obtain ⟨next, hn, hrest⟩ := bind_eq_some_iff.mp hrun
    refine ih (hstep h op next (List.mem_cons_self ..) h0 hn) ?_ hrest
    exact fun h₁ op₁ h₂ hm => hstep h₁ op₁ h₂ (List.mem_cons_of_mem _ hm)

theorem Sound.runHeap {ops : List HeapOp} (hrun : Heap.runHeap ops h = some h') : h'.Sound :=
  runHeap_induction Sound hs (fun _ _ _ _ hs hstep => hs.heapStep hstep) hrun

end

end Heap

/-- The slots of a span that a run of the heap can reach. Allocated slots lie below the
cursor and are counted. The free list of an old span ends, has no slot twice and runs through
dead slots below the cursor. A new object goes to a slot that was dead, and neither the
selection of a slot nor its publication can fail an assertion. -/
theorem runHeap_slots {maxHeapBytes : Nat} {types : TypeRegistry} {allocators : Allocators}
    {ops : List HeapOp} {h : Heap} {span : SpanId} {s : SmallSpan}
    (hrun : Heap.runHeap ops (.new maxHeapBytes types allocators) = some h)
    (hk : h.table.kind span = some (.small s)) :
    (∀ slot ∈ s.metadata.allocations, slot.val < s.metadata.bumpCursor) ∧
    s.metadata.bumpCursor ≤ s.metadata.sizeClass.slotCount ∧
    s.metadata.allocatedSlots = s.metadata.allocations.card ∧
    s.metadata.allocatedBytes = s.metadata.allocatedSlots * s.metadata.sizeClass.slotSize ∧
    (s.metadata.space = .old → ∃ l, Chain s.freeNext s.metadata.freeListHead l ∧ l.Nodup ∧
      ∀ slot ∈ l, slot ∉ s.metadata.allocations ∧ slot.val < s.metadata.bumpCursor) ∧
    (∀ layout header payload ref tbl,
      h.table.tryAllocateInSpan span layout header payload = some (.ok ref, tbl) →
        ref.spanId = span ∧ ∃ slot, s.metadata.sizeClass.slotForOffset ref.spanOffset = some slot ∧
          slot ∉ s.metadata.allocations) ∧
    ∃ selected, SpanTable.takeAllocationSlot s span = some selected ∧
      ∀ slot s', selected = .ok (slot, s') → (s'.metadata.commitAllocation slot).isSome := by
  have hsound := (Heap.Sound.new maxHeapBytes types allocators).runHeap hrun
  have hs := hsound.table.slots span s hk
  obtain ⟨l, hchain, hdead⟩ := hs.free
  obtain ⟨selected, htake, hselects⟩ := hs.takeAllocationSlot span
  refine ⟨hs.below, hs.cursor, hs.slots, hs.bytes, fun _ => ⟨l, hchain, hchain.nodup, hdead⟩, ?_,
    selected, htake, ?_⟩
  · intro layout header payload ref tbl hal
    obtain ⟨hspan, s', slot, hk', hsl, hfree⟩ :=
      (hsound.table.slots.tryAllocateInSpan hal).2 ref rfl
    rw [hk] at hk'
    cases hk'
    exact ⟨hspan, slot, hsl, hfree⟩
  · intro slot s' heq
    obtain ⟨metadata, hcommit, -⟩ := (hselects slot s' heq).commitAllocation s'.storage
      fun _ _ => rfl
    rw [hcommit]
    rfl

/-- A small object of the second type, in the old generation. -/
def slotRequest : AllocationRequest :=
  { objectType := ⟨1, minorTypes.entries[1].descriptor⟩
    flags := 0
    aux := 0
    value := []
    space := .old
    externalBytes := 0 }

/-- Two objects of an old span, of which the first is reclaimed. -/
def slotRun : List HeapOp :=
  [.allocate slotRequest, .allocate slotRequest, .reclaim ⟨0, firstOffset⟩]

/-- An empty heap of these types. -/
def slotHeap : Heap :=
  .new 1000000 minorTypes ⟨.granting, .granting, .granting, .granting, .granting⟩

theorem runHeap_slots_slotRun :
    ∃ h s, Heap.runHeap slotRun slotHeap = some h ∧ h.table.kind 0 = some (.small s) ∧
      s.metadata.space = .old ∧ s.metadata.allocatedSlots = 1 ∧ s.metadata.bumpCursor = 2 ∧
      s.metadata.freeListHead = some ⟨0, by decide⟩ ∧
      ∃ l, Chain s.freeNext s.metadata.freeListHead l ∧ l.Nodup ∧
        ∀ slot ∈ l, slot ∉ s.metadata.allocations ∧ slot.val < s.metadata.bumpCursor := by
  have hmeta : ((Heap.runHeap slotRun slotHeap).map fun h =>
      (h.table.metadata 0).map fun m => (m.space, m.allocatedSlots, m.bumpCursor, m.freeListHead)) =
        some (some (.old, 1, 2, some ⟨0, by decide⟩)) := rfl
  rcases hrun : Heap.runHeap slotRun slotHeap with _ | h
  · rw [hrun] at hmeta
    cases hmeta
  · rw [hrun] at hmeta
    obtain ⟨metadata, hmetadata, heq⟩ := map_eq_some_iff.mp (some.inj hmeta)
    obtain ⟨s, hk, rfl⟩ := SpanTable.metadata_eq_some hmetadata
    simp only [Prod.mk.injEq] at heq
    obtain ⟨hspace, hslots, hcu, hhead⟩ := heq
    obtain ⟨-, -, -, -, hfree, -, -⟩ := runHeap_slots hrun hk
    exact ⟨h, s, rfl, hk, hspace, hslots, hcu, hhead, hfree hspace⟩

end TachyonEngine.Gc
