import TachyonEngine.Gc.Epoch
import TachyonEngine.Lib.EphemeronReach

/-!
# The marking fixed point

What the strong and ephemeron phases do to a marker. Both only grow the set of
marked objects (`Grows`): they mark fresh objects, put exactly these on the gray
queue, count them, and change no payload. What they mark is forced by the fields
they trace (`Follows`), and a phase without an error has marked every target it
had to.

`DrainInv` is the invariant of the worklist: a marked object is queued or all its
strong targets are live and its weak fields are recorded. Draining to the end and
repeating ephemeron passes until neither marks nor owners grow leaves a closed set
(`closureLoop_closed`); the fuel of both loops is enough because the number of
white objects decreases with every mark.
-/

namespace TachyonEngine.Gc

open Lib.Traversal Lib.Capacity TraceField SpanTable List

/-! ## Edges of fields -/

namespace TraceField

/-- Targets that a strong trace marks. -/
def strongRefs : TraceField → List RawHeapRef
  | .value v => v.asHeapRef.toList
  | .rawHeapRef ref => [ref]
  | .weak _ => []
  | .ephemeron _ _ => []
  | .finalization _ heldValue => heldValue.asHeapRef.toList

/-- The field is an ephemeron from a key to a heap value. -/
def Ephemeral (field : TraceField) (key target : RawHeapRef) : Prop :=
  ∃ v, field = .ephemeron (some key) v ∧ v.asHeapRef = some target

def hasWeak : TraceField → Bool
  | .weak target => target.isSome
  | _ => false

def hasEphemeron : TraceField → Bool
  | .ephemeron key _ => key.isSome
  | _ => false

def hasFinalization : TraceField → Bool
  | .finalization target _ => target.isSome
  | _ => false

end TraceField

/-- The entry of an object in the worklist of weak owners. -/
def weakOwnerOf (t : SpanTable) (ref : RawHeapRef) : WeakOwner :=
  { reference := ref
    hasWeak := (t.payload ref).any TraceField.hasWeak
    hasEphemeron := (t.payload ref).any TraceField.hasEphemeron
    hasFinalization := (t.payload ref).any TraceField.hasFinalization }

/-- An object with a weak field that is not cleared. -/
def WeakOwner.isWeak (owner : WeakOwner) : Bool :=
  owner.hasWeak || owner.hasEphemeron || owner.hasFinalization

/-- Objects that a marker takes for live without marking them: in a minor
collection the old ones. -/
def Ignored (g : Generation) (t : SpanTable) (ref : RawHeapRef) : Prop :=
  g = .young ∧ ∃ space, t.referenceSpace ref = .ok space ∧ space ≠ .young

namespace Marker

variable {g : Generation} {types : TypeRegistry} {m m' m'' : Marker} {ref : RawHeapRef}

/-- The objects marked so far. -/
def marked (m : Marker) : Set RawHeapRef := m.table.marked m.epoch

/-- Marked or not to be marked. -/
def Live (g : Generation) (m : Marker) (ref : RawHeapRef) : Prop :=
  ref ∈ m.marked ∨ Ignored g m.table ref

/-! ## Growth -/

/-- The second marker has some more marked and queued objects, and the same table
otherwise. -/
structure Grows (m m' : Marker) : Prop where
  skeleton : m'.table.skeleton = m.table.skeleton
  payload : ∀ ref, m'.table.payload ref = m.table.payload ref
  epoch : m'.epoch = m.epoch
  pending : m'.pendingFinalizations = m.pendingFinalizations
  phase : m'.phase = m.phase
  rebuilding : m.rebuildingSource = false → m'.rebuildingSource = false
  error : m'.error = none → m.error = none
  marksWithin : m.table.MarksWithin m.epoch → m'.table.MarksWithin m'.epoch
  fresh : ∃ fresh : List RawHeapRef, fresh.Nodup ∧
    (∀ ref ∈ fresh, m.table.Valid ref ∧ ref ∉ m.marked) ∧
    (∀ ref, ref ∈ m'.marked ↔ ref ∈ m.marked ∨ ref ∈ fresh) ∧
    m'.gray.entries = fresh ++ m.gray.entries ∧
    m'.stats.markedObjects = m.stats.markedObjects + fresh.length

theorem Grows.refl (m : Marker) : Grows m m where
  skeleton := rfl
  payload := fun _ => rfl
  epoch := rfl
  pending := rfl
  phase := rfl
  rebuilding := fun h => h
  error := fun h => h
  marksWithin := fun h => h
  fresh := ⟨[], nodup_nil, by simp, by simp, rfl, rfl⟩

theorem Grows.trans (h : Grows m m') (h' : Grows m' m'') : Grows m m'' where
  skeleton := h'.skeleton.trans h.skeleton
  payload := fun ref => (h'.payload ref).trans (h.payload ref)
  epoch := h'.epoch.trans h.epoch
  pending := h'.pending.trans h.pending
  phase := h'.phase.trans h.phase
  rebuilding := fun hm => h'.rebuilding (h.rebuilding hm)
  error := fun hm => h.error (h'.error hm)
  marksWithin := fun hm => h'.marksWithin (h.marksWithin hm)
  fresh := by
    obtain ⟨fresh, hnodup, hfr, hmm, hgray, hc⟩ := h.fresh
    obtain ⟨fresh', hnodup', hfr', hmm', hgray', hc'⟩ := h'.fresh
    refine ⟨fresh' ++ fresh, ?_, ?_, ?_, ?_, ?_⟩
    · refine nodup_append.mpr ⟨hnodup', hnodup, ?_⟩
      rintro a ha b hb rfl
      exact (hfr' a ha).2 ((hmm a).mpr (Or.inr hb))
    · intro r hr
      rcases mem_append.mp hr with hr | hr
      · obtain ⟨hvalid, hnew⟩ := hfr' r hr
        exact ⟨(valid_congr h.skeleton).mp hvalid,
          fun hold => hnew ((hmm r).mpr (Or.inl hold))⟩
      · exact hfr r hr
    · intro r
      rw [hmm', hmm, mem_append]
      tauto
    · rw [hgray', hgray, append_assoc]
    · rw [hc', length_append]
      omega

theorem Grows.marked_mono (h : Grows m m') (hm : ref ∈ m.marked) : ref ∈ m'.marked := by
  obtain ⟨fresh, -, -, hmm, -, -⟩ := h.fresh
  exact (hmm ref).mpr (Or.inl hm)

variable {t : SpanTable}

theorem ignored_congr {t' : SpanTable} (h : t.skeleton = t'.skeleton) :
    Ignored g t ref ↔ Ignored g t' ref := by
  unfold Ignored
  rw [referenceSpace_congr h]

theorem Grows.live_mono (h : Grows m m') (hm : Live g m ref) : Live g m' ref := by
  rcases hm with hm | hm
  · exact Or.inl (h.marked_mono hm)
  · exact Or.inr ((ignored_congr h.skeleton).mpr hm)

/-- Every mark turns one white object gray. -/
theorem Grows.white (h : Grows m m') : m'.table.white m'.epoch + m'.stats.markedObjects =
      m.table.white m.epoch + m.stats.markedObjects := by
  obtain ⟨fresh, hnodup, hfr, hm, -, hc⟩ := h.fresh
  have hvalid : {r | m'.table.Valid r} = {r | m.table.Valid r} := by
    ext r
    exact valid_congr h.skeleton
  have hsplit : {r | m.table.Valid r} \ m.table.marked m.epoch =
      ({r | m'.table.Valid r} \ m'.table.marked m'.epoch) ∪ {r | r ∈ fresh} := by
    ext r
    have hr := hm r
    unfold marked at hr
    simp only [Set.mem_sdiff, Set.mem_union, hvalid, hr]
    constructor
    · rintro ⟨hv, hn⟩
      by_cases hf : r ∈ fresh
      · exact Or.inr hf
      · exact Or.inl ⟨hv, by tauto⟩
    · rintro (⟨hv, hn⟩ | hf)
      · exact ⟨hv, fun hold => hn (Or.inl hold)⟩
      · exact hfr r hf
  have hdisjoint : Disjoint ({r | m'.table.Valid r} \ m'.table.marked m'.epoch)
      {r | r ∈ fresh} := by
    rw [Set.disjoint_left]
    rintro r ⟨-, hn⟩ hf
    exact hn ((hm r).mpr (Or.inr hf))
  have hfin : ({r | m'.table.Valid r} \ m'.table.marked m'.epoch).Finite :=
    m'.table.finite_valid.1.subset Set.sdiff_subset
  have hlist : {r | r ∈ fresh}.ncard = fresh.length := by
    have : {r | r ∈ fresh} = (fresh.toFinset : Set RawHeapRef) := by
      ext r
      simp
    rw [this, Set.ncard_coe_finset, toFinset_card_of_nodup hnodup]
  unfold SpanTable.white
  rw [hsplit, Set.ncard_union_eq hdisjoint hfin (finite_toSet fresh)]
  omega

/-- A change that no part of `Grows` looks at. -/
theorem Grows.of_eq (ht : m'.table = m.table) (hepoch : m'.epoch = m.epoch)
    (hpend : m'.pendingFinalizations = m.pendingFinalizations) (hph : m'.phase = m.phase)
    (hrebuilding : m.rebuildingSource = false → m'.rebuildingSource = false)
    (herr : m'.error = none → m.error = none) (hgray : m'.gray.entries = m.gray.entries)
    (hc : m'.stats.markedObjects = m.stats.markedObjects) : Grows m m' where
  skeleton := by rw [ht]
  payload := fun _ => by rw [ht]
  epoch := hepoch
  pending := hpend
  phase := hph
  rebuilding := hrebuilding
  error := herr
  marksWithin := by rw [ht, hepoch]; exact fun h => h
  fresh := by
    refine ⟨[], nodup_nil, by simp, ?_, hgray, hc⟩
    simp [marked, ht, hepoch]

theorem grows_fail (m : Marker) (e : MarkError) : Grows m (m.fail e) :=
  Grows.of_eq rfl rfl rfl rfl (fun h => h) (fun h => by cases h) rfl rfl

/-! ## Queueing one target -/

/-- What a trace leaves alone beside the table: the worklist of weak owners, the
owner being traced and the flags of the traced object. -/
structure Steady (m m' : Marker) : Prop where
  weakOwners : m'.weakOwners = m.weakOwners
  currentOwner : m'.currentOwner = m.currentOwner
  hasWeak : m'.currentHasWeak = m.currentHasWeak
  hasEphemeron : m'.currentHasEphemeron = m.currentHasEphemeron
  hasFinalization : m'.currentHasFinalization = m.currentHasFinalization

theorem Steady.refl (m : Marker) : Steady m m := ⟨rfl, rfl, rfl, rfl, rfl⟩

/-- Queueing one target: only it may be marked, and without an error it is live. -/
structure Queues (g : Generation) (ref : RawHeapRef) (m m' : Marker) : Prop where
  grows : Grows m m'
  steady : Steady m m'
  only : ∀ r ∈ m'.marked, r ∈ m.marked ∨ r = ref
  live : m'.error = none → Live g m' ref

theorem markReference_of_white {epoch : CollectionEpoch} (h : t.isMarked ref epoch = .ok false) :
    t.markReference ref epoch =
      .ok (true, t.modifyKind ref.spanId (SpanKind.mark ref.spanOffset epoch)) := by
  unfold isMarked at h
  unfold markReference
  cases hverify : t.verifyReference ref none with
  | error e => rw [hverify] at h; cases h
  | ok header =>
    rw [hverify] at h
    simp only [Except.ok.injEq] at h
    simp [h]

theorem queues_markAndQueue (g : Generation) (m : Marker) (ref : RawHeapRef) :
    Queues g ref m (m.markAndQueue ref) := by
  unfold markAndQueue
  cases hmarked : m.table.isMarked ref m.epoch with
  | error e =>
    exact ⟨grows_fail m _, ⟨rfl, rfl, rfl, rfl, rfl⟩, fun r hr => Or.inl hr, fun h => by cases h⟩
  | ok live =>
    cases live with
    | true => exact ⟨.refl m, .refl m, fun r hr => Or.inl hr, fun _ => Or.inl hmarked⟩
    | false =>
      have hes := BoundedVec.entries_tryReserveOne initialGrayQueueCapacity m.gray
      rcases hrsv : m.gray.tryReserveOne initialGrayQueueCapacity with ⟨e | ⟨⟩, gray⟩
      · rw [hrsv] at hes
        refine ⟨?_, ⟨rfl, rfl, rfl, rfl, rfl⟩, fun r hr => Or.inl hr, fun h => by cases h⟩
        exact Grows.of_eq rfl rfl rfl rfl (fun h => h) (fun h => by cases h) hes rfl
      · rw [hrsv] at hes
        obtain ⟨hvalid, hwhite⟩ := isMarked_eq_false.mp hmarked
        have hm : ∀ r, r ∈ (m.table.modifyKind ref.spanId
            (SpanKind.mark ref.spanOffset m.epoch)).marked m.epoch ↔
            r = ref ∨ r ∈ m.table.marked m.epoch :=
          fun r => mem_marked_mark hvalid
        simp only [markReference_of_white hmarked]
        refine ⟨?_, ⟨rfl, rfl, rfl, rfl, rfl⟩, ?_, fun _ => Or.inl ((hm _).mpr (Or.inl rfl))⟩
        · refine
            { skeleton := skeleton_modifyKind (SpanKind.skeleton_mark _ _) _
              payload := fun r => payload_mark ..
              epoch := rfl
              pending := rfl
              phase := rfl
              rebuilding := fun h => h
              error := fun h => h
              marksWithin := fun h => h.mark
              fresh := ⟨[ref], nodup_singleton _, ?_, ?_, ?_, rfl⟩ }
          · intro r hr
            rw [mem_singleton] at hr
            subst hr
            exact ⟨hvalid, hwhite⟩
          · intro r
            rw [mem_singleton, or_comm]
            exact hm r
          · exact congrArg _ hes
        · intro r hr
          exact ((hm r).mp hr).symm

theorem grows_countEdge (m : Marker) : Grows m m.countEdge :=
  Grows.of_eq rfl rfl rfl rfl (fun h => h) (fun h => h) rfl rfl

theorem Queues.of_countEdge {m' : Marker} (h : Queues g ref m.countEdge m') :
    Queues g ref m m' where
  grows := (grows_countEdge m).trans h.grows
  steady := ⟨h.steady.weakOwners, h.steady.currentOwner, h.steady.hasWeak, h.steady.hasEphemeron,
    h.steady.hasFinalization⟩
  only := h.only
  live := h.live

/-- Both markers queue a target, outside of a rebuild. -/
theorem queues_enqueue (g : Generation) (hm : m.rebuildingSource = false)
    (ref : RawHeapRef) : Queues g ref m (enqueue g m ref) := by
  cases g with
  | full =>
    simp only [enqueue, enqueueFull]
    cases herr : m.error with
    | some e =>
      refine ⟨.refl m, .refl m, fun r hr => Or.inl hr, fun h => ?_⟩
      simp only [Option.isSome_some, if_true] at h
      rw [herr] at h
      cases h
    | none => exact (queues_markAndQueue .full m.countEdge ref).of_countEdge
  | young =>
    simp only [enqueue, enqueueYoung, hm, Bool.not_false, Bool.and_true, Bool.false_eq_true]
    cases herr : m.error with
    | some e =>
      refine ⟨.refl m, .refl m, fun r hr => Or.inl hr, fun h => ?_⟩
      simp only [Option.isSome_some, if_true] at h
      rw [herr] at h
      cases h
    | none =>
      cases hspace : m.table.referenceSpace ref with
      | error e =>
        exact ⟨grows_fail m _, ⟨rfl, rfl, rfl, rfl, rfl⟩, fun r hr => Or.inl hr,
          fun h => by cases h⟩
      | ok space =>
        by_cases hyoung : space = .young
        · simp only [hyoung]
          exact (queues_markAndQueue .young m.countEdge ref).of_countEdge
        · simp only [ne_eq, hyoung]
          exact ⟨grows_countEdge m, ⟨rfl, rfl, rfl, rfl, rfl⟩, fun r hr => Or.inl hr,
            fun _ => Or.inr ⟨rfl, space, hspace, hyoung⟩⟩

/-! ## Liveness tests -/

/-- A liveness test answers correctly or stops the marker. -/
theorem referenceLive_cases (g : Generation) (m : Marker) (ref : RawHeapRef) :
    ((referenceLive g m ref).2 = m ∧ ((referenceLive g m ref).1 = true ↔ Live g m ref)) ∨
      ((referenceLive g m ref).1 = false ∧ ∃ e, (referenceLive g m ref).2 = m.fail e) := by
  have hfull : ((referenceLiveFull m ref).2 = m ∧
        ((referenceLiveFull m ref).1 = true ↔ ref ∈ m.marked)) ∨
      ((referenceLiveFull m ref).1 = false ∧
        ∃ e, (referenceLiveFull m ref).2 = m.fail e) := by
    unfold referenceLiveFull marked SpanTable.marked
    cases hmarked : m.table.isMarked ref m.epoch with
    | error e => exact Or.inr ⟨rfl, _, rfl⟩
    | ok live => simp [hmarked]
  cases g with
  | full =>
    rcases hfull with ⟨hm, hlive⟩ | h
    · refine Or.inl ⟨hm, hlive.trans ?_⟩
      simp [Live, Ignored]
    · exact Or.inr h
  | young =>
    simp only [referenceLive, referenceLiveYoung]
    cases hspace : m.table.referenceSpace ref with
    | error e => exact Or.inr ⟨rfl, _, rfl⟩
    | ok space =>
      cases space with
      | young =>
        rcases hfull with ⟨hm, hlive⟩ | h
        · refine Or.inl ⟨hm, hlive.trans ?_⟩
          simp [Live, Ignored, hspace]
        · exact Or.inr h
      | oldSmall | oldLarge => exact Or.inl ⟨rfl, by simp [Live, Ignored, hspace]⟩

/-! ## Tracing fields -/

/-- A set that follows the edges of some fields. -/
structure ClosedUnder (fields : List TraceField) (C : Set RawHeapRef) : Prop where
  strong : ∀ field ∈ fields, ∀ r ∈ field.strongRefs, r ∈ C
  ephemeron : ∀ field ∈ fields, ∀ key value, field.Ephemeral key value → key ∈ C → value ∈ C

variable {fields : List TraceField}

variable {field : TraceField} {C : Set RawHeapRef}

theorem ClosedUnder.tail (h : ClosedUnder (field :: fields) C) :
    ClosedUnder [field] C ∧ ClosedUnder fields C := by
  constructor
  · constructor
    · intro f hf
      rw [mem_singleton] at hf
      exact h.strong f (hf ▸ mem_cons_self ..)
    · intro f hf
      rw [mem_singleton] at hf
      exact h.ephemeron f (hf ▸ mem_cons_self ..)
  · constructor
    · intro f hf
      exact h.strong f (mem_cons_of_mem _ hf)
    · intro f hf
      exact h.ephemeron f (mem_cons_of_mem _ hf)

/-- Tracing grows the marks, and whatever it marks is forced: it stays inside every
set that has the marks so far and the ignored objects and follows the fields. -/
structure Follows (g : Generation) (fields : List TraceField) (m m' : Marker) : Prop where
  grows : Grows m m'
  weakOwners : m'.weakOwners = m.weakOwners
  currentOwner : m'.currentOwner = m.currentOwner
  sound : ∀ C : Set RawHeapRef, (∀ r ∈ m.marked, r ∈ C) → (∀ r, Ignored g m.table r → r ∈ C) →
    ClosedUnder fields C → ∀ r ∈ m'.marked, r ∈ C

theorem Follows.of_marked (h : Grows m m') (hw : m'.weakOwners = m.weakOwners)
    (ho : m'.currentOwner = m.currentOwner) (hmarked : ∀ r ∈ m'.marked, r ∈ m.marked) :
    Follows g fields m m' :=
  ⟨h, hw, ho, fun _ hC _ _ r hr => hC r (hmarked r hr)⟩

theorem Follows.refl (fields : List TraceField) (m : Marker) : Follows g fields m m :=
  .of_marked (.refl m) rfl rfl fun _ h => h

theorem Queues.follows (h : Queues g ref m m')
    (href : ∀ C, (∀ r ∈ m.marked, r ∈ C) → (∀ r, Ignored g m.table r → r ∈ C) →
      ClosedUnder fields C → ref ∈ C) : Follows g fields m m' where
  grows := h.grows
  weakOwners := h.steady.weakOwners
  currentOwner := h.steady.currentOwner
  sound := by
    intro C hC hignored hclosed r hr
    rcases h.only r hr with hr | rfl
    · exact hC r hr
    · exact href C hC hignored hclosed

theorem Follows.trans (h : Follows g fields m m') (h' : Follows g fields m' m'') :
    Follows g fields m m'' where
  grows := h.grows.trans h'.grows
  weakOwners := h'.weakOwners.trans h.weakOwners
  currentOwner := h'.currentOwner.trans h.currentOwner
  sound := by
    intro C hC hignored hclosed
    apply h'.sound C
    · exact h.sound C hC hignored hclosed
    · intro r hr
      exact hignored r ((ignored_congr h.grows.skeleton).mp hr)
    · exact hclosed

theorem Follows.mono {fields' : List TraceField} (h : Follows g fields m m')
    (hsub : ∀ C, ClosedUnder fields' C → ClosedUnder fields C) : Follows g fields' m m' where
  grows := h.grows
  weakOwners := h.weakOwners
  currentOwner := h.currentOwner
  sound := fun C hC hignored hclosed => h.sound C hC hignored (hsub C hclosed)

/-- A strong trace of one field. -/
structure VisitsStrong (g : Generation) (field : TraceField) (m m' : Marker) : Prop where
  follows : Follows g [field] m m'
  live : m'.error = none → ∀ r ∈ field.strongRefs, Live g m' r
  hasWeak : m'.currentHasWeak = (m.currentHasWeak || field.hasWeak)
  hasEphemeron : m'.currentHasEphemeron = (m.currentHasEphemeron || field.hasEphemeron)
  hasFinalization :
    m'.currentHasFinalization = (m.currentHasFinalization || field.hasFinalization)

theorem strongRefs_closedUnder (h : ClosedUnder [field] C) : ∀ r ∈ field.strongRefs, r ∈ C :=
  h.strong field (mem_singleton_self _)

section

variable (hrebuild : m.rebuildingSource = false)

include hrebuild

/-- A value is traced by queueing its reference. -/
theorem traceValue_strong (hph : m.followsStrong = true) (val : Value) (fields : List TraceField)
    (hC : ∀ C, ClosedUnder fields C → ∀ r ∈ val.asHeapRef.toList, r ∈ C) :
    Follows g fields m (traceValue g m val) ∧ Steady m (traceValue g m val) ∧
      ((traceValue g m val).error = none →
        ∀ r ∈ val.asHeapRef.toList, Live g (traceValue g m val) r) := by
  unfold traceValue
  cases hv : val.asHeapRef with
  | none => exact ⟨.refl _ m, .refl m, by simp⟩
  | some ref =>
    simp only [traceRawHeapRef, hph]
    have hq := queues_enqueue g hrebuild ref
    refine ⟨hq.follows ?_, hq.steady, ?_⟩
    · intro C _ _ hclosed
      exact hC C hclosed ref (by simp [hv])
    · intro herr r hr
      simp only [Option.toList_some, mem_singleton] at hr
      subst hr
      exact hq.live herr

/-- In the strong phase every field is visited without being rewritten. -/
theorem visit_strong (hph : m.phase = .strong) (field : TraceField) :
    (visit g m field).2 = field ∧ VisitsStrong g field m (visit g m field).1 := by
  have hstrong : m.followsStrong = true := by simp [followsStrong, hph]
  cases field with
  | value val =>
    obtain ⟨hf, hs, hlive⟩ := traceValue_strong (g := g) hrebuild hstrong val [.value val]
      (fun C hC => strongRefs_closedUnder hC)
    refine ⟨rfl, ⟨hf, hlive, ?_, ?_, ?_⟩⟩ <;>
      simp [visit, hs.hasWeak, hs.hasEphemeron, hs.hasFinalization, TraceField.hasWeak,
        hasEphemeron, hasFinalization]
  | rawHeapRef ref =>
    have hq := queues_enqueue g hrebuild ref
    simp only [visit, traceRawHeapRef, hstrong, if_true]
    refine ⟨trivial, ⟨hq.follows ?_, ?_, ?_, ?_, ?_⟩⟩
    · intro C _ _ hclosed
      exact strongRefs_closedUnder hclosed ref (mem_singleton_self _)
    · intro herr r hr
      rw [TraceField.strongRefs, mem_singleton] at hr
      subst hr
      exact hq.live herr
    · simp [hq.steady.hasWeak, TraceField.hasWeak]
    · simp [hq.steady.hasEphemeron, hasEphemeron]
    · simp [hq.steady.hasFinalization, hasFinalization]
  | weak tgt =>
    simp only [visit, traceWeakRawHeapRef, hrebuild, hph, Bool.false_eq_true, if_false]
    refine ⟨trivial, ⟨⟨.of_eq rfl rfl rfl hph.symm (fun _ => rfl) (fun h => h) rfl rfl, rfl,
      rfl, fun C hC _ _ => hC⟩, ?_, ?_, ?_, ?_⟩⟩
    · intro _ r hr
      cases hr
    · rfl
    · simp [hasEphemeron]
    · simp [hasFinalization]
  | ephemeron key val =>
    simp only [visit, traceEphemeron, hrebuild, hph, Bool.false_eq_true, if_false]
    refine ⟨trivial, ⟨⟨.of_eq rfl rfl rfl hph.symm (fun _ => rfl) (fun h => h) rfl rfl, rfl,
      rfl, fun C hC _ _ => hC⟩, ?_, ?_, ?_, ?_⟩⟩
    · intro _ r hr
      cases hr
    · simp [TraceField.hasWeak]
    · rfl
    · simp [hasFinalization]
  | finalization tgt heldValue =>
    -- The flag is set first, then the held value is traced like any other value.
    let m₁ : Marker :=
      { m with currentHasFinalization := m.currentHasFinalization || tgt.isSome }
    have heq : visit g m (.finalization tgt heldValue) =
        (traceValue g m₁ heldValue, .finalization tgt heldValue) := by
      simp [visit, traceFinalization, hrebuild, hph, m₁]
    rw [heq]
    have hstrong₁ : m₁.followsStrong = true := hstrong
    have hrebuild₁ : m₁.rebuildingSource = false := hrebuild
    obtain ⟨hf, hs, hlive⟩ := traceValue_strong (g := g) (m := m₁) hrebuild₁ hstrong₁ heldValue
      [.finalization tgt heldValue] (fun C hC => strongRefs_closedUnder hC)
    have hm₁ : Follows g [.finalization tgt heldValue] m m₁ :=
      .of_marked (.of_eq rfl rfl rfl rfl (fun h => h) (fun h => h) rfl rfl) rfl rfl fun _ h => h
    refine ⟨rfl, ⟨hm₁.trans hf, hlive, ?_, ?_, ?_⟩⟩
    · exact hs.hasWeak.trans (by simp [m₁, TraceField.hasWeak])
    · exact hs.hasEphemeron.trans (by simp [m₁, hasEphemeron])
    · exact hs.hasFinalization

/-- A strong trace of a payload: nothing is rewritten, the strong targets are live
at the end, and the flags collect the weak fields. -/
structure TracesStrong (g : Generation) (fields : List TraceField) (m m' : Marker) : Prop where
  follows : Follows g fields m m'
  live : m'.error = none → ∀ field ∈ fields, ∀ r ∈ field.strongRefs, Live g m' r
  hasWeak : m'.currentHasWeak = (m.currentHasWeak || fields.any TraceField.hasWeak)
  hasEphemeron :
    m'.currentHasEphemeron = (m.currentHasEphemeron || fields.any TraceField.hasEphemeron)
  hasFinalization :
    m'.currentHasFinalization = (m.currentHasFinalization || fields.any TraceField.hasFinalization)

omit hrebuild in
theorem traceAll_strong (fields : List TraceField) (hrebuild : m.rebuildingSource = false)
    (hph : m.phase = .strong) : (traceAll (visit g) fields m).2 = fields ∧
      TracesStrong g fields m (traceAll (visit g) fields m).1 := by
  induction fields generalizing m with
  | nil => exact ⟨rfl, ⟨.refl _ m, fun _ _ h => absurd h not_mem_nil, by simp [traceAll],
      by simp [traceAll], by simp [traceAll]⟩⟩
  | cons field fields ih =>
    obtain ⟨hfield, hvisit⟩ := visit_strong (g := g) hrebuild hph field
    obtain ⟨hrest, htr⟩ := ih (hvisit.follows.grows.rebuilding hrebuild)
      (hvisit.follows.grows.phase.trans hph)
    simp only [traceAll]
    refine ⟨by rw [hfield, hrest], ⟨?_, ?_, ?_, ?_, ?_⟩⟩
    · exact (hvisit.follows.mono fun C h => h.tail.1).trans (htr.follows.mono fun C h => h.tail.2)
    · intro herr f hf r hr
      rcases mem_cons.mp hf with rfl | hf
      · have hmid := htr.follows.grows.error herr
        exact htr.follows.grows.live_mono (hvisit.live hmid r hr)
      · exact htr.live herr f hf r hr
    · rw [htr.hasWeak, hvisit.hasWeak, any_cons, Bool.or_assoc]
    · rw [htr.hasEphemeron, hvisit.hasEphemeron, any_cons, Bool.or_assoc]
    · rw [htr.hasFinalization, hvisit.hasFinalization, any_cons, Bool.or_assoc]

/-! ## Ephemeron passes -/

/-- An ephemeron trace of a payload: nothing is rewritten, and the value of a key
that was live at the start is live at the end. -/
structure TracesEphemeron (g : Generation) (fields : List TraceField) (m m' : Marker) : Prop where
  follows : Follows g fields m m'
  live : m'.error = none → ∀ field ∈ fields, ∀ key value, field.Ephemeral key value →
    Live g m key → Live g m' value

omit hrebuild in
theorem TracesEphemeron.refl_of (h : ∀ field ∈ fields, ∀ key val, ¬field.Ephemeral key val) :
    TracesEphemeron g fields m m :=
  ⟨.refl _ m, fun _ field hf key val he => absurd he (h field hf key val)⟩

/-- The value of an ephemeron is queued once its key is live. -/
theorem traceEphemeron_ephemeron (hph : m.phase = .ephemeron) (key : Option RawHeapRef)
    (val : Value) : (traceEphemeron g m key val).2 = (key, val) ∧
      TracesEphemeron g [.ephemeron key val] m (traceEphemeron g m key val).1 := by
  have hn : ∀ m' : Marker, (∀ k v, (ephemeron key val).Ephemeral k v →
      Live g m k → m'.error = none → Live g m' v) → Grows m m' → m'.weakOwners = m.weakOwners →
      m'.currentOwner = m.currentOwner → (∀ r ∈ m'.marked, r ∈ m.marked) →
      TracesEphemeron g [.ephemeron key val] m m' := by
    intro m' hlive hgr hweak howner hmarked
    refine ⟨.of_marked hgr hweak howner hmarked, ?_⟩
    intro herr field hf k v he hk
    rw [mem_singleton] at hf
    subst hf
    exact hlive k v he hk herr
  unfold traceEphemeron
  rw [if_neg (by simp [hrebuild]), hph]
  cases key with
  | none =>
    simp only [keyLive]
    refine ⟨trivial, hn m ?_ (.refl m) rfl rfl (fun _ h => h)⟩
    rintro k v ⟨_, he, _⟩
    cases he
  | some k =>
    simp only [keyLive]
    rcases referenceLive_cases g m k with ⟨hm, hlive⟩ | ⟨hdead, e, hfail⟩
    · rcases htest : referenceLive g m k with ⟨live, m₁⟩
      rw [htest] at hm hlive
      subst hm
      cases live with
      | false =>
        refine ⟨by simp, hn m₁ ?_ (.refl m₁) rfl rfl (fun _ h => h)⟩
        rintro k' v ⟨_, he, _⟩ hk
        cases he
        exact absurd (hlive.mpr hk) (by simp)
      | true =>
        cases hvl : val.asHeapRef with
        | none =>
          refine ⟨by simp, hn m₁ ?_ (.refl m₁) rfl rfl (fun _ h => h)⟩
          rintro k' v ⟨_, he, hv⟩
          cases he
          rw [hvl] at hv
          cases hv
        | some ref =>
          have hq := queues_enqueue g hrebuild ref
          refine ⟨rfl, ⟨⟨?_, hq.steady.weakOwners, hq.steady.currentOwner, ?_⟩, ?_⟩⟩
          · exact hq.grows.trans (.of_eq rfl rfl rfl rfl (fun h => h) (fun h => h) rfl rfl)
          · intro C hC hignored hclosed r hr
            rcases hq.only r hr with hr | rfl
            · exact hC r hr
            · have hkC : k ∈ C := by
                rcases hlive.mp rfl with hk | hk
                · exact hC k hk
                · exact hignored k hk
              exact hclosed.ephemeron _ (mem_singleton_self _) k r ⟨val, rfl, hvl⟩ hkC
          · intro herr field hf k' v he _
            rw [mem_singleton] at hf
            subst hf
            obtain ⟨_, he, hv⟩ := he
            cases he
            rw [hvl] at hv
            cases hv
            exact hq.live herr
    · rcases htest : referenceLive g m k with ⟨live, m₁⟩
      rw [htest] at hdead hfail
      subst hdead hfail
      refine ⟨by simp, hn _ ?_ (grows_fail m e) rfl rfl (fun _ h => h)⟩
      intro k' v _ _ herr
      cases herr

/-- In the ephemeron phase every field is visited without being rewritten. -/
theorem visit_ephemeron (hph : m.phase = .ephemeron) (field : TraceField) :
    (visit g m field).2 = field ∧ TracesEphemeron g [field] m (visit g m field).1 := by
  have hstrong : m.followsStrong = true := by simp [followsStrong, hph]
  have hnot : ∀ f ∈ [field], (∀ key val, field ≠ .ephemeron key val) →
      ∀ key val, ¬f.Ephemeral key val := by
    rintro f hf hne key val ⟨v, he, _⟩
    rw [mem_singleton] at hf
    exact hne _ _ (hf ▸ he)
  cases field with
  | value val =>
    obtain ⟨hf, -, -⟩ := traceValue_strong (g := g) hrebuild hstrong val [.value val]
      (fun C hC => strongRefs_closedUnder hC)
    exact ⟨rfl, hf, fun _ f hm key v he =>
      absurd he (hnot f hm (fun _ _ => by simp) key v)⟩
  | rawHeapRef ref =>
    have hq := queues_enqueue g hrebuild ref
    simp only [visit, traceRawHeapRef, hstrong]
    refine ⟨trivial, hq.follows ?_, fun _ f hm key v he =>
      absurd he (hnot f hm (fun _ _ => by simp) key v)⟩
    intro C _ _ hclosed
    exact strongRefs_closedUnder hclosed ref (mem_singleton_self _)
  | weak tgt =>
    have heq : visit g m (.weak tgt) = (m, .weak tgt) := by
      simp [visit, traceWeakRawHeapRef, hrebuild, hph]
    rw [heq]
    exact ⟨rfl, .refl_of fun f hm => hnot f hm fun _ _ => by simp⟩
  | ephemeron key val =>
    obtain ⟨hfield, htr⟩ := traceEphemeron_ephemeron (g := g) hrebuild hph key val
    refine ⟨?_, htr⟩
    simp only [visit, hfield]
  | finalization tgt heldValue =>
    have heq : visit g m (.finalization tgt heldValue) = (m, .finalization tgt heldValue) := by
      simp [visit, traceFinalization, hrebuild, hph]
    rw [heq]
    exact ⟨rfl, .refl_of fun f hm => hnot f hm fun _ _ => by simp⟩

end

theorem traceAll_ephemeron (fields : List TraceField) (hrebuild : m.rebuildingSource = false)
    (hph : m.phase = .ephemeron) : (traceAll (visit g) fields m).2 = fields ∧
      TracesEphemeron g fields m (traceAll (visit g) fields m).1 := by
  induction fields generalizing m with
  | nil => exact ⟨rfl, .refl_of fun _ h => absurd h not_mem_nil⟩
  | cons field fields ih =>
    obtain ⟨hfield, hvisit⟩ := visit_ephemeron (g := g) hrebuild hph field
    obtain ⟨hrest, htr⟩ := ih (hvisit.follows.grows.rebuilding hrebuild)
      (hvisit.follows.grows.phase.trans hph)
    simp only [traceAll]
    refine ⟨by rw [hfield, hrest], ⟨?_, ?_⟩⟩
    · exact (hvisit.follows.mono fun C h => h.tail.1).trans (htr.follows.mono fun C h => h.tail.2)
    · intro herr f hf key val he hkey
      rcases mem_cons.mp hf with rfl | hf
      · have hmid := htr.follows.grows.error herr
        exact htr.follows.grows.live_mono
          (hvisit.live hmid f (mem_singleton_self _) key val he hkey)
      · exact htr.live herr f hf key val he (hvisit.follows.grows.live_mono hkey)

/-! ## Tracing objects -/

section

variable (hvalid : m.table.Valid ref)

include hvalid

/-- Writing the fields of an object back as they were changes nothing. -/
theorem grows_setPayload (hfields : m.table.payload ref = fields) :
    Grows m { m with table := m.table.setPayload ref fields } where
  skeleton := skeleton_setPayload ..
  payload := by
    intro r
    rw [payload_setPayload hvalid]
    split_ifs with h
    · rw [h, hfields]
    · rfl
  epoch := rfl
  pending := rfl
  phase := rfl
  rebuilding := fun h => h
  error := fun h => h
  marksWithin := fun h => h.setPayload
  fresh := by
    refine ⟨[], nodup_nil, by simp, ?_, rfl, rfl⟩
    simp [marked]

theorem tracePayload_strong (hrebuild : m.rebuildingSource = false) (hph : m.phase = .strong) :
    TracesStrong g (m.table.payload ref) m (tracePayload g m ref) := by
  obtain ⟨hfields, htr⟩ := traceAll_strong (g := g) (m.table.payload ref) hrebuild hph
  have hgr := htr.follows.grows
  have hset := grows_setPayload (m := (traceAll (visit g) (m.table.payload ref) m).1)
    ((valid_congr hgr.skeleton).mpr hvalid) ((hgr.payload ref).trans hfields.symm)
  exact
    { follows := htr.follows.trans
        (.of_marked hset rfl rfl fun r hr => by simpa [marked, tracePayload] using hr)
      live := fun herr field hf r hr => hset.live_mono (htr.live herr field hf r hr)
      hasWeak := htr.hasWeak
      hasEphemeron := htr.hasEphemeron
      hasFinalization := htr.hasFinalization }

theorem tracePayload_ephemeron (hrebuild : m.rebuildingSource = false)
    (hph : m.phase = .ephemeron) :
    TracesEphemeron g (m.table.payload ref) m (tracePayload g m ref) := by
  obtain ⟨hfields, htr⟩ := traceAll_ephemeron (g := g) (m.table.payload ref) hrebuild hph
  have hgr := htr.follows.grows
  have hset := grows_setPayload (m := (traceAll (visit g) (m.table.payload ref) m).1)
    ((valid_congr hgr.skeleton).mpr hvalid) ((hgr.payload ref).trans hfields.symm)
  exact
    { follows := htr.follows.trans
        (.of_marked hset rfl rfl fun r hr => by simpa [marked, tracePayload] using hr)
      live := fun herr field hf key val he hkey =>
        hset.live_mono (htr.live herr field hf key val he hkey) }

omit hvalid in
theorem valid_of_resolve {t : SpanTable} (h : resolve t types ref = .ok ()) : t.Valid ref := by
  unfold resolve at h
  cases hverify : t.verifyReference ref none with
  | error e => rw [hverify] at h; cases h
  | ok header => exact ⟨header, hverify⟩

/-- One strongly traced source: its strong targets are live and, when it has weak
fields, it is recorded as a weak owner, unless the marker stopped. -/
structure Scans (g : Generation) (ref : RawHeapRef) (m m' : Marker) : Prop where
  grows : Grows m m'
  sound : ∀ C : Set RawHeapRef, (∀ r ∈ m.marked, r ∈ C) → (∀ r, Ignored g m.table r → r ∈ C) →
    ClosedUnder (m.table.payload ref) C → ∀ r ∈ m'.marked, r ∈ C
  live : m'.error = none → ∀ field ∈ m.table.payload ref, ∀ r ∈ field.strongRefs, Live g m' r
  owners : m'.weakOwners.entries = m.weakOwners.entries ∨
    m'.weakOwners.entries = m.weakOwners.entries ++ [weakOwnerOf m.table ref]
  recorded : m'.error = none → (weakOwnerOf m.table ref).isWeak = true →
    weakOwnerOf m.table ref ∈ m'.weakOwners.entries

omit hvalid in
theorem scans_fail (g : Generation) (m : Marker) (e : MarkError) (ref : RawHeapRef) :
    Scans g ref m (m.fail e) where
  grows := grows_fail m e
  sound := fun _ hC _ _ => hC
  live := fun h => by cases h
  owners := Or.inl rfl
  recorded := fun h => by cases h

theorem scans_traceStrong (hph : m.phase = .strong) : Scans g ref m (traceStrong g m ref) := by
  let m₀ : Marker := { m.resetFlags with rebuildingSource := false, sourceHasYoung := false }
  have hgr₀ : Grows m m₀ := .of_eq rfl rfl rfl rfl (fun _ => rfl) (fun h => h) rfl rfl
  have htr : TracesStrong g (m.table.payload ref) m₀ (tracePayload g m₀ ref) :=
    tracePayload_strong (m := m₀) hvalid rfl hph
  obtain ⟨m₁, hm₁⟩ : ∃ m₁, tracePayload g m₀ ref = m₁ := ⟨_, rfl⟩
  rw [hm₁] at htr
  -- The flags after the trace are those of the object in the worklist.
  have howner : weakOwnerOf m.table ref =
      { reference := ref
        hasWeak := m₁.currentHasWeak
        hasEphemeron := m₁.currentHasEphemeron
        hasFinalization := m₁.currentHasFinalization } := by
    rw [htr.hasWeak, htr.hasEphemeron, htr.hasFinalization]
    rfl
  have hweak : (weakOwnerOf m.table ref).isWeak =
      (m₁.currentHasWeak || m₁.currentHasEphemeron || m₁.currentHasFinalization) := by
    rw [howner]
    rfl
  have hsound : ∀ C : Set RawHeapRef, (∀ r ∈ m.marked, r ∈ C) → (∀ r, Ignored g m.table r → r ∈ C) →
      ClosedUnder (m.table.payload ref) C → ∀ r ∈ m₁.marked, r ∈ C :=
    htr.follows.sound
  have hgr₁ : Grows m m₁ := hgr₀.trans htr.follows.grows
  have howners₁ : m₁.weakOwners.entries = m.weakOwners.entries := by
    rw [htr.follows.weakOwners]
    rfl
  have heq : traceStrong g m ref = m₁.recordWeakOwner ref := by
    rw [← hm₁]
    rfl
  rw [heq]
  unfold recordWeakOwner
  by_cases hn : (!m₁.currentHasWeak && !m₁.currentHasEphemeron &&
      !m₁.currentHasFinalization) = true
  · rw [if_pos hn]
    refine ⟨hgr₁, hsound, htr.live, Or.inl howners₁, ?_⟩
    intro _ hw
    cases h1 : m₁.currentHasWeak <;> cases h2 : m₁.currentHasEphemeron <;>
      cases h3 : m₁.currentHasFinalization <;> simp_all
  · rw [if_neg hn, ← howner]
    simp only
    rcases BoundedVec.tryPush_cases initialWeakOwnerCapacity m₁.weakOwners
        (weakOwnerOf m.table ref) with ⟨hok, hes⟩ | ⟨e, herr, hes⟩
    · rcases hpush : m₁.weakOwners.tryPush initialWeakOwnerCapacity
          (weakOwnerOf m.table ref) with ⟨res, owners⟩
      rw [hpush] at hok hes
      simp only at hok hes
      subst hok
      refine ⟨hgr₁.trans (.of_eq rfl rfl rfl rfl (fun h => h) (fun h => h) rfl rfl), hsound,
        htr.live, Or.inr ?_, ?_⟩
      · simp only [hes, howners₁]
      · simp [hes]
    · rcases hpush : m₁.weakOwners.tryPush initialWeakOwnerCapacity
          (weakOwnerOf m.table ref) with ⟨res, owners⟩
      rw [hpush] at herr hes
      simp only at herr hes
      subst herr
      refine ⟨hgr₁.trans (.of_eq rfl rfl rfl rfl (fun h => h) (fun h => by cases h) rfl rfl),
        hsound, (fun h => by cases h), Or.inl ?_, (fun h => by cases h)⟩
      simp only [fail, hes, howners₁]

end

theorem scans_traceSource (hph : m.phase = .strong) :
    Scans g ref m (traceSource g types m ref) := by
  unfold traceSource
  cases hres : resolve m.table types ref with
  | error e => exact scans_fail g m e ref
  | ok u => exact scans_traceStrong (valid_of_resolve hres) hph

theorem grows_countObject (m : Marker) : Grows m m.countObject :=
  Grows.of_eq rfl rfl rfl rfl (fun h => h) (fun h => h) rfl rfl

theorem Scans.of_countObject (h : Scans g ref m.countObject m') : Scans g ref m m' where
  grows := (grows_countObject m).trans h.grows
  sound := h.sound
  live := h.live
  owners := h.owners
  recorded := h.recorded

theorem scans_drainOne (hph : m.phase = .strong) : Scans g ref m (drainOne g types m ref) := by
  cases g with
  | full =>
    simp only [drainOne]
    cases hres : resolve m.table types ref with
    | error e => exact scans_fail .full m e ref
    | ok u =>
      exact (scans_traceStrong (m := m.countObject) (valid_of_resolve hres) hph).of_countObject
  | young => exact (scans_traceSource (m := m.countObject) hph).of_countObject

/-! ## The worklist invariant -/

/-- A source that needs no further strong trace. -/
structure Scanned (g : Generation) (t : SpanTable) (m : Marker) (ref : RawHeapRef) :
    Prop where
  live : ∀ field ∈ t.payload ref, ∀ r ∈ field.strongRefs, Live g m r
  recorded : (weakOwnerOf t ref).isWeak = true → weakOwnerOf t ref ∈ m.weakOwners.entries

theorem Scanned.mono (h : Scanned g t m ref) (hg : Grows m m') (howners : ∀ owner ∈
    m.weakOwners.entries, owner ∈ m'.weakOwners.entries) : Scanned g t m' ref where
  live := fun field hf r hr => hg.live_mono (h.live field hf r hr)
  recorded := fun hw => howners _ (h.recorded hw)

/-- The invariant of marking a table `t`. The marks stay inside `C`; unless the
marker stopped, every marked object is queued, in hand, or scanned, and so is every
source of `S`. -/
structure DrainInv (g : Generation) (t : SpanTable) (C S : Set RawHeapRef)
    (hand : List RawHeapRef) (m : Marker) : Prop where
  skeleton : m.table.skeleton = t.skeleton
  payload : ∀ r, m.table.payload r = t.payload r
  rebuilding : m.rebuildingSource = false
  within : ∀ r ∈ m.marked, r ∈ C
  gray : ∀ r ∈ m.gray.entries, r ∈ m.marked
  owners : ∀ owner ∈ m.weakOwners.entries, owner = weakOwnerOf t owner.reference ∧
    owner.reference ∈ C
  scanned : m.error = none → ∀ r ∈ m.marked, r ∈ m.gray.entries ∨ r ∈ hand ∨ Scanned g t m r
  sources : m.error = none → ∀ r ∈ S, Scanned g t m r

section Drain

variable {t : SpanTable} {C S : Set RawHeapRef} {hand : List RawHeapRef}

/-- Scanning the source in hand discharges it. -/
theorem DrainInv.scan (h : DrainInv g t C S (ref :: hand) m)
    (hclosed : ∀ r ∈ C, ClosedUnder (t.payload r) C) (hignored : ∀ r, Ignored g t r → r ∈ C)
    (href : ref ∈ C) (hs : Scans g ref m m') :
    DrainInv g t C S hand m' ∧ (m'.error = none → Scanned g t m' ref) := by
  obtain ⟨fresh, -, -, hm, hgray, -⟩ := hs.grows.fresh
  have hpay : m.table.payload ref = t.payload ref := h.payload ref
  have howner : weakOwnerOf m.table ref = weakOwnerOf t ref := by
    rw [weakOwnerOf, hpay, ← weakOwnerOf]
  have hkeep : ∀ owner ∈ m.weakOwners.entries, owner ∈ m'.weakOwners.entries := by
    intro owner ho
    rcases hs.owners with heq | heq <;> rw [heq]
    · exact ho
    · exact mem_append_left _ ho
  have hself : m'.error = none → Scanned g t m' ref := by
    intro herr
    constructor
    · rw [← hpay]
      exact hs.live herr
    · rw [← howner]
      exact hs.recorded herr
  refine ⟨?_, hself⟩
  exact
    { skeleton := hs.grows.skeleton.trans h.skeleton
      payload := fun r => (hs.grows.payload r).trans (h.payload r)
      rebuilding := hs.grows.rebuilding h.rebuilding
      within := by
        apply hs.sound C h.within
        · intro r hr
          exact hignored r ((ignored_congr h.skeleton).mp hr)
        · rw [hpay]
          exact hclosed ref href
      gray := by
        intro r hr
        rw [hgray] at hr
        rcases mem_append.mp hr with hr | hr
        · exact (hm r).mpr (Or.inr hr)
        · exact hs.grows.marked_mono (h.gray r hr)
      owners := by
        intro owner ho
        rcases hs.owners with heq | heq
        · rw [heq] at ho
          exact h.owners owner ho
        · rw [heq] at ho
          rcases mem_append.mp ho with ho | ho
          · exact h.owners owner ho
          · rw [mem_singleton, howner] at ho
            subst ho
            exact ⟨rfl, href⟩
      scanned := by
        intro herr r hr
        rw [hgray, mem_append]
        rcases (hm r).mp hr with hold | hnew
        · rcases h.scanned (hs.grows.error herr) r hold with hq | hh | hscan
          · exact Or.inl (Or.inr hq)
          · rcases mem_cons.mp hh with rfl | hh
            · exact Or.inr (Or.inr (hself herr))
            · exact Or.inr (Or.inl hh)
          · exact Or.inr (Or.inr (hscan.mono hs.grows hkeep))
        · exact Or.inl (Or.inl hnew)
      sources := by
        intro herr r hr
        exact (h.sources (hs.grows.error herr) r hr).mono hs.grows hkeep }

/-- What a sequence of scans does to the counters and the marks. -/
structure Advances (m m' : Marker) : Prop where
  epoch : m'.epoch = m.epoch
  pending : m'.pendingFinalizations = m.pendingFinalizations
  skeleton : m'.table.skeleton = m.table.skeleton
  error : m'.error = none → m.error = none
  marksWithin : m.table.MarksWithin m.epoch → m'.table.MarksWithin m'.epoch
  count_le : m.stats.markedObjects ≤ m'.stats.markedObjects
  marked_mono : ∀ r ∈ m.marked, r ∈ m'.marked
  marked_eq : m'.stats.markedObjects = m.stats.markedObjects → ∀ r ∈ m'.marked, r ∈ m.marked
  white : m'.table.white m'.epoch + m'.stats.markedObjects =
    m.table.white m.epoch + m.stats.markedObjects

theorem Advances.refl (m : Marker) : Advances m m :=
  ⟨rfl, rfl, rfl, fun h => h, fun h => h, le_refl _, fun _ h => h, fun _ _ h => h, rfl⟩

theorem Advances.trans (h : Advances m m') (h' : Advances m' m'') : Advances m m'' where
  epoch := h'.epoch.trans h.epoch
  pending := h'.pending.trans h.pending
  skeleton := h'.skeleton.trans h.skeleton
  error := fun herr => h.error (h'.error herr)
  marksWithin := fun hm => h'.marksWithin (h.marksWithin hm)
  count_le := le_trans h.count_le h'.count_le
  marked_mono := fun r hr => h'.marked_mono r (h.marked_mono r hr)
  marked_eq := by
    intro heq r hr
    have hle := h.count_le
    have hle' := h'.count_le
    exact h.marked_eq (by omega) r (h'.marked_eq (by omega) r hr)
  white := h'.white.trans h.white

theorem Grows.advances (h : Grows m m') : Advances m m' where
  epoch := h.epoch
  pending := h.pending
  skeleton := h.skeleton
  error := h.error
  marksWithin := h.marksWithin
  count_le := by
    obtain ⟨fresh, -, -, -, -, hc⟩ := h.fresh
    omega
  marked_mono := fun _ hr => h.marked_mono hr
  marked_eq := by
    obtain ⟨fresh, -, -, hm, -, hc⟩ := h.fresh
    intro heq r hr
    have hnil : fresh = [] := length_eq_zero_iff.mp (by omega)
    rcases (hm r).mp hr with hr | hr
    · exact hr
    · rw [hnil] at hr
      cases hr
  white := h.white

theorem Advances.live_mono (h : Advances m m') (hm : Live g m ref) : Live g m' ref := by
  rcases hm with hm | hm
  · exact Or.inl (h.marked_mono _ hm)
  · exact Or.inr ((ignored_congr h.skeleton).mpr hm)

theorem DrainInv.pop {rest : List RawHeapRef} (h : DrainInv g t C S [] m)
    (hgray : m.gray.entries = ref :: rest) : DrainInv g t C S [ref] (m.popGray rest) where
  skeleton := h.skeleton
  payload := h.payload
  rebuilding := h.rebuilding
  within := h.within
  gray := by
    intro r hr
    exact h.gray r (by rw [hgray]; exact mem_cons_of_mem _ hr)
  owners := h.owners
  scanned := by
    intro herr r hr
    rcases h.scanned herr r hr with hq | hh | hs
    · rw [hgray] at hq
      rcases mem_cons.mp hq with rfl | hq
      · exact Or.inr (Or.inl (mem_singleton_self _))
      · exact Or.inl hq
    · cases hh
    · exact Or.inr (Or.inr ⟨hs.live, hs.recorded⟩)
  sources := by
    intro herr r hr
    exact ⟨(h.sources herr r hr).live, (h.sources herr r hr).recorded⟩

variable (hclosed : ∀ r ∈ C, ClosedUnder (t.payload r) C) (hignored : ∀ r, Ignored g t r → r ∈ C)

include hclosed hignored

variable {fuel : Nat}

/-- Draining keeps the invariant and, with fuel for every white and queued object,
ends with an error or an empty queue. -/
theorem drainLoop_facts (types : TypeRegistry) (h : DrainInv g t C S [] m) (hph : m.phase = .strong)
    (hfuel : m.table.white m.epoch + m.gray.entries.length ≤ fuel) :
    let m' := drainLoop g types fuel m
    DrainInv g t C S [] m' ∧ m'.phase = .strong ∧ Advances m m' ∧
      (m'.error = none → m'.gray.entries = []) ∧ (m.gray.entries = [] → m' = m) := by
  induction fuel generalizing m with
  | zero =>
    have hnil : m.gray.entries = [] := length_eq_zero_iff.mp (by omega)
    exact ⟨h, hph, .refl m, fun _ => hnil, fun _ => rfl⟩
  | succ fuel ih =>
    simp only [drainLoop]
    cases herr : m.error with
    | some e =>
      simp only [Option.isSome_some, if_true]
      refine ⟨h, hph, .refl m, ?_, fun _ => trivial⟩
      intro hn
      rw [herr] at hn
      cases hn
    | none =>
      cases hgray : m.gray.entries with
      | nil => exact ⟨h, hph, .refl m, fun _ => hgray, fun _ => rfl⟩
      | cons ref rest =>
        have hmarked : ref ∈ m.marked := h.gray ref (by simp [hgray])
        have hscan : Scans g ref (m.popGray rest)
            (drainOne g types (m.popGray rest) ref) := scans_drainOne hph
        obtain ⟨hinv, -⟩ := (h.pop hgray).scan hclosed hignored (h.within _ hmarked) hscan
        -- Each popped object pays for the objects its trace queues.
        have hmeasure : (drainOne g types (m.popGray rest) ref).table.white
              (drainOne g types (m.popGray rest) ref).epoch +
            (drainOne g types (m.popGray rest) ref).gray.entries.length ≤ fuel := by
          have hwhite := hscan.grows.white
          obtain ⟨fresh, -, -, -, hfr, hc⟩ := hscan.grows.fresh
          have hlen := congrArg length hfr
          rw [length_append] at hlen
          have hold : (m.popGray rest).gray.entries.length + 1 = m.gray.entries.length := by
            rw [hgray]
            rfl
          have hs : (m.popGray rest).table.white (m.popGray rest).epoch =
              m.table.white m.epoch := rfl
          omega
        obtain ⟨hinv', hph', hadv, hempty, -⟩ := ih hinv (hscan.grows.phase.trans hph) hmeasure
        refine ⟨hinv', hph', ?_, hempty, fun hnil => by cases hnil⟩
        have hpop : Advances m (m.popGray rest) :=
          ⟨rfl, rfl, rfl, fun h => h, fun h => h, le_refl _, fun _ h => h, fun _ _ h => h, rfl⟩
        exact hpop.trans (hscan.grows.advances.trans hadv)

theorem drain_facts (types : TypeRegistry) (h : DrainInv g t C S [] m) (hph : m.phase = .strong) :
    let m' := drain g types m
    DrainInv g t C S [] m' ∧ m'.phase = .strong ∧ Advances m m' ∧
      (m'.error = none → m'.gray.entries = []) ∧ (m.gray.entries = [] → m' = m) := by
  apply drainLoop_facts hclosed hignored types h hph
  have := m.table.white_le m.epoch
  omega

omit hclosed hignored

/-! ## The ephemeron loop -/

/-- One weak owner traced in the ephemeron phase. -/
structure TracesOwner (g : Generation) (ref : RawHeapRef) (m m' : Marker) : Prop where
  grows : Grows m m'
  weakOwners : m'.weakOwners = m.weakOwners
  sound : ∀ C : Set RawHeapRef, (∀ r ∈ m.marked, r ∈ C) → (∀ r, Ignored g m.table r → r ∈ C) →
    ClosedUnder (m.table.payload ref) C → ∀ r ∈ m'.marked, r ∈ C
  live : m'.error = none → ∀ field ∈ m.table.payload ref, ∀ key value,
    field.Ephemeral key value → Live g m key → Live g m' value

theorem tracesOwner_ephemeron (hrebuild : m.rebuildingSource = false) (hph : m.phase = .ephemeron) :
    TracesOwner g ref m (traceWeakOwner g types m ref) := by
  unfold traceWeakOwner
  cases hres : resolve m.table types ref with
  | error e =>
    exact ⟨grows_fail m e, rfl, fun _ hC _ _ => hC, fun h => by cases h⟩
  | ok u =>
    let m₀ : Marker := { m with currentOwner := some ref }
    have htr : TracesEphemeron g (m.table.payload ref) m₀ (tracePayload g m₀ ref) :=
      tracePayload_ephemeron (m := m₀) (valid_of_resolve hres) hrebuild hph
    have hgr₀ : Grows m m₀ := .of_eq rfl rfl rfl rfl (fun h => h) (fun h => h) rfl rfl
    refine ⟨?_, htr.follows.weakOwners, htr.follows.sound, htr.live⟩
    exact (hgr₀.trans htr.follows.grows).trans
      (.of_eq rfl rfl rfl rfl (fun h => h) (fun h => h) rfl rfl)

/-- The part of the invariant that a growing trace of known owners keeps. -/
theorem DrainInv.grow (h : DrainInv g t C S hand m) (hg : Grows m m')
    (howners : m'.weakOwners = m.weakOwners) (hwi : ∀ r ∈ m'.marked, r ∈ C) :
    DrainInv g t C S hand m' where
  skeleton := hg.skeleton.trans h.skeleton
  payload := fun r => (hg.payload r).trans (h.payload r)
  rebuilding := hg.rebuilding h.rebuilding
  within := hwi
  gray := by
    obtain ⟨fresh, -, -, hm, hgray, -⟩ := hg.fresh
    intro r hr
    rw [hgray] at hr
    rcases mem_append.mp hr with hr | hr
    · exact (hm r).mpr (Or.inr hr)
    · exact hg.marked_mono (h.gray r hr)
  owners := by rw [howners]; exact h.owners
  scanned := by
    obtain ⟨fresh, -, -, hm, hgray, -⟩ := hg.fresh
    intro herr r hr
    rw [hgray, mem_append]
    rcases (hm r).mp hr with hold | hnew
    · rcases h.scanned (hg.error herr) r hold with hq | hh | hs
      · exact Or.inl (Or.inr hq)
      · exact Or.inr (Or.inl hh)
      · exact Or.inr (Or.inr (hs.mono hg fun o ho => howners ▸ ho))
    · exact Or.inl (Or.inl hnew)
  sources := by
    intro herr r hr
    exact (h.sources (hg.error herr) r hr).mono hg fun o ho => howners ▸ ho

/-- The body of an ephemeron pass. -/
def passOwner (g : Generation) (types : TypeRegistry) (m : Marker) (owner : WeakOwner) : Marker :=
  if owner.hasEphemeron then traceWeakOwner g types m owner.reference else m

include hclosed hignored in
/-- A pass over some recorded owners. -/
theorem foldl_passOwner (types : TypeRegistry) (l : List WeakOwner) (h : DrainInv g t C S [] m)
    (hph : m.phase = .ephemeron) (hl : ∀ owner ∈ l, owner ∈ m.weakOwners.entries) :
    let m' := l.foldl (passOwner g types) m
    DrainInv g t C S [] m' ∧ Grows m m' ∧ m'.weakOwners = m.weakOwners ∧
      (m'.error = none → ∀ owner ∈ l, owner.hasEphemeron = true →
        ∀ field ∈ t.payload owner.reference, ∀ key val, field.Ephemeral key val →
          Live g m key → Live g m' val) := by
  induction l generalizing m with
  | nil => exact ⟨h, .refl m, rfl, fun _ _ ho => absurd ho not_mem_nil⟩
  | cons owner l ih =>
    simp only [foldl_cons]
    have howner := h.owners owner (hl owner (mem_cons_self ..))
    have hl' : ∀ o ∈ l, o ∈ m.weakOwners.entries := fun o ho => hl o (mem_cons_of_mem _ ho)
    cases hflag : owner.hasEphemeron with
    | false =>
      have heq : passOwner g types m owner = m := by simp [passOwner, hflag]
      rw [heq]
      obtain ⟨hinv, hgr, hs, hlive⟩ := ih h hph hl'
      refine ⟨hinv, hgr, hs, ?_⟩
      intro herr o ho hfo
      rcases mem_cons.mp ho with rfl | ho
      · rw [hflag] at hfo
        cases hfo
      · exact hlive herr o ho hfo
    | true =>
      have heq : passOwner g types m owner = traceWeakOwner g types m owner.reference := by
        simp [passOwner, hflag]
      rw [heq]
      have htr : TracesOwner g owner.reference m (traceWeakOwner g types m owner.reference) :=
        tracesOwner_ephemeron h.rebuilding hph
      have hwi : ∀ r ∈ (traceWeakOwner g types m owner.reference).marked, r ∈ C := by
        apply htr.sound C h.within
        · intro r hr
          exact hignored r ((ignored_congr h.skeleton).mp hr)
        · rw [h.payload]
          exact hclosed _ howner.2
      have hinv := h.grow htr.grows htr.weakOwners hwi
      obtain ⟨hinv', hgr, hs, hlive⟩ := ih hinv (htr.grows.phase.trans hph)
        (fun o ho => by rw [htr.weakOwners]; exact hl' o ho)
      refine ⟨hinv', htr.grows.trans hgr, hs.trans htr.weakOwners, ?_⟩
      intro herr o ho hfo field hf key val he hkey
      rcases mem_cons.mp ho with rfl | ho
      · have hmid := hgr.error herr
        rw [← h.payload] at hf
        exact hgr.live_mono (htr.live hmid field hf key val he hkey)
      · exact hlive herr o ho hfo field hf key val he (htr.grows.live_mono hkey)

theorem foldl_passOwner_of_none (l : List WeakOwner)
    (hl : ∀ owner ∈ l, owner.hasEphemeron = false) : l.foldl (passOwner g types) m = m := by
  induction l with
  | nil => rfl
  | cons owner l ih =>
    have heq : passOwner g types m owner = m := by
      simp [passOwner, hl owner (mem_cons_self ..)]
    rw [foldl_cons, heq]
    exact ih fun o ho => hl o (mem_cons_of_mem _ ho)

/-- The fixed point: unless the marker stopped, nothing is queued and the recorded
ephemerons are closed. -/
structure Closure (g : Generation) (t : SpanTable) (C S : Set RawHeapRef) (m : Marker) :
    Prop where
  inv : DrainInv g t C S [] m
  gray : m.error = none → m.gray.entries = []
  ephemerons : m.error = none → ∀ owner ∈ m.weakOwners.entries,
    ∀ field ∈ t.payload owner.reference, ∀ key value, field.Ephemeral key value →
      Live g m key → Live g m value

/-- Fields of the marker that the invariant does not look at. -/
theorem DrainInv.congr (h : DrainInv g t C S hand m) (ht : m'.table = m.table)
    (hepoch : m'.epoch = m.epoch) (hrebuild : m'.rebuildingSource = m.rebuildingSource)
    (hgray : m'.gray = m.gray) (howners : m'.weakOwners = m.weakOwners)
    (herr : m'.error = m.error) : DrainInv g t C S hand m' := by
  obtain ⟨tbl', gray', weakOwners', pending', epoch', err', stats', young', rebuild', has',
    w', e', f', o', p'⟩ := m'
  subst ht hepoch hrebuild hgray howners herr
  exact ⟨h.skeleton, h.payload, h.rebuilding, h.within, h.gray, h.owners,
    fun herr r hr => (h.scanned herr r hr).imp_right
      (Or.imp_right fun hs => ⟨hs.live, hs.recorded⟩),
    fun herr r hr => ⟨(h.sources herr r hr).live, (h.sources herr r hr).recorded⟩⟩

/-- An object whose entry says it has no ephemeron has none. -/
theorem hasEphemeron_of_ephemeral {field : TraceField} {key val : RawHeapRef}
    (hf : field ∈ t.payload ref) (he : field.Ephemeral key val) :
    (weakOwnerOf t ref).hasEphemeron = true := by
  obtain ⟨v, rfl, -⟩ := he
  simp only [weakOwnerOf, any_eq_true]
  exact ⟨_, hf, rfl⟩

include hclosed hignored in
/-- After a pass without an error: if the drain ends with the marks the pass began
with, the pass has queued nothing and the fixed point is reached; otherwise white
objects were lost. -/
theorem drainPassed_facts (types : TypeRegistry) {passed : Marker}
    (hinv : DrainInv g t C S [] passed) (howners : passed.weakOwners = m.weakOwners)
    (hadv : Advances m passed)
    (hgray : passed.stats.markedObjects = m.stats.markedObjects → passed.gray.entries = [])
    (hlive : ∀ owner ∈ m.weakOwners.entries, ∀ field ∈ t.payload owner.reference,
      ∀ key val, field.Ephemeral key val → Live g m key → Live g passed val) :
    let drained := drainPassed g types passed
    DrainInv g t C S [] drained ∧ drained.phase = .strong ∧ Advances m drained ∧
      (drained.error = none → drained.gray.entries = []) ∧
      (drained.stats.markedObjects = m.stats.markedObjects →
        drained.weakOwners = m.weakOwners ∧ Closure g t C S drained) := by
  let m₁ : Marker :=
    { passed with
      stats := { passed.stats with ephemeronPasses := passed.stats.ephemeronPasses + 1 }
      phase := .strong }
  have hm₁ : DrainInv g t C S [] m₁ := hinv.congr rfl rfl rfl rfl rfl rfl
  obtain ⟨hinv', hph, hadv', hempty, hs⟩ := drain_facts hclosed hignored types hm₁ rfl
  have hpassed : Advances passed m₁ :=
    ⟨rfl, rfl, rfl, fun h => h, fun h => h, le_refl _, fun _ h => h, fun _ _ h => h, rfl⟩
  have hall : Advances m (drain g types m₁) := hadv.trans (hpassed.trans hadv')
  refine ⟨hinv', hph, hall, hempty, ?_⟩
  intro hc
  have hpcount : passed.stats.markedObjects = m.stats.markedObjects := by
    have h1 := hadv.count_le
    have h2 : passed.stats.markedObjects ≤ (drain g types m₁).stats.markedObjects :=
      (hpassed.trans hadv').count_le
    have h3 : (drain g types m₁).stats.markedObjects = m.stats.markedObjects := hc
    omega
  have hdrained : drain g types m₁ = m₁ := hs (hgray hpcount)
  have hweak : (drain g types m₁).weakOwners = m.weakOwners := by
    rw [hdrained]
    exact howners
  refine ⟨hweak, ⟨hinv', hempty, ?_⟩⟩
  intro _ owner ho field hf key val he hkey
  have ho' : owner ∈ m.weakOwners.entries := hweak ▸ ho
  have hkey' : Live g m key := by
    rcases hkey with hk | hk
    · exact Or.inl (hall.marked_eq hc key hk)
    · exact Or.inr ((ignored_congr hall.skeleton).mp hk)
  exact (hpassed.trans hadv').live_mono (hlive owner ho' field hf key val he hkey')

include hclosed hignored in
/-- The ephemeron loop reaches the fixed point: a pass that neither marks an object
nor records an owner has found every live key's value live. -/
theorem closureLoop_closure (types : TypeRegistry) (h : DrainInv g t C S [] m) (hph : m.phase =
    .strong) (hgray : m.error = none → m.gray.entries = []) (hfuel : m.table.white m.epoch < fuel) :
    Closure g t C S (closureLoop g types fuel m) ∧
      Advances m (closureLoop g types fuel m) := by
  induction fuel generalizing m with
  | zero => omega
  | succ fuel ih =>
    simp only [closureLoop]
    cases herr : m.error with
    | some e =>
      simp only [Option.isSome_some, if_true]
      refine ⟨⟨h, hgray, ?_⟩, .refl m⟩
      intro hn
      rw [herr] at hn
      cases hn
    | none =>
      let m₀ : Marker := { m with phase := .ephemeron }
      have hm₀ : DrainInv g t C S [] m₀ := h.congr rfl rfl rfl rfl rfl rfl
      obtain ⟨hinv, hgr, howners, hlive⟩ :=
        foldl_passOwner hclosed hignored types m.weakOwners.entries hm₀ rfl fun _ ho => ho
      have hpass : ephemeronPass g types m = m.weakOwners.entries.foldl (passOwner g types) m₀ :=
        rfl
      rw [← hpass] at hinv hgr howners hlive
      obtain ⟨passed, hpassed⟩ : ∃ p, ephemeronPass g types m = p := ⟨_, rfl⟩
      rw [hpassed] at hinv hgr howners hlive ⊢
      have hst : Advances m m₀ :=
        ⟨rfl, rfl, rfl, fun h => h, fun h => h, le_refl _, fun _ h => h, fun _ _ h => h, rfl⟩
      have hadv₀ : Advances m passed := hst.trans hgr.advances
      -- Values of keys that were live when the pass began.
      have hpassLive : passed.error = none → ∀ owner ∈ m.weakOwners.entries,
          ∀ field ∈ t.payload owner.reference, ∀ key val, field.Ephemeral key val →
            Live g m key → Live g passed val := by
        intro hn owner ho field hf key val he hkey
        have hflag : owner.hasEphemeron = true := by
          rw [(h.owners owner ho).1]
          exact hasEphemeron_of_ephemeral hf he
        exact hlive hn owner ho hflag field hf key val he hkey
      cases hany : m.weakOwners.entries.any (·.hasEphemeron) with
      | false =>
        -- No owner has an ephemeron: the pass does nothing.
        have hnoflag : ∀ owner ∈ m.weakOwners.entries, owner.hasEphemeron = false := by
          intro owner ho
          simpa using any_eq_false.mp hany owner ho
        have hs : passed = m₀ := by
          rw [← hpassed]
          exact foldl_passOwner_of_none _ hnoflag
        subst hs
        refine ⟨⟨hm₀, fun _ => hgray herr, ?_⟩, hadv₀⟩
        intro _ owner ho field hf key val he _
        have hflag : owner.hasEphemeron = true := by
          rw [(h.owners owner ho).1]
          exact hasEphemeron_of_ephemeral hf he
        rw [hnoflag owner ho] at hflag
        cases hflag
      | true =>
        simp only [Bool.not_true, Bool.false_or]
        cases hpe : passed.error with
        | some e =>
          have hfail : passed.error ≠ none := by simp [hpe]
          exact ⟨⟨hinv, fun hn => absurd hn hfail, fun hn => absurd hn hfail⟩, hadv₀⟩
        | none =>
          simp only [Option.isSome_none, Bool.false_eq_true, if_false]
          have hpgray : passed.stats.markedObjects = m.stats.markedObjects →
              passed.gray.entries = [] := by
            obtain ⟨fresh, -, -, -, hfr, hc⟩ := hgr.fresh
            intro heq
            have hlen : passed.stats.markedObjects = m.stats.markedObjects + fresh.length := hc
            have hnil : fresh = [] := length_eq_zero_iff.mp (by omega)
            rw [hfr, hnil]
            exact hgray herr
          obtain ⟨hinv', hph', hadv', hempty, hdone⟩ := drainPassed_facts (m := m) hclosed
            hignored types hinv howners hadv₀ hpgray (hpassLive hpe)
          split_ifs with hstop
          · exact ⟨(hdone hstop.1).2, hadv'⟩
          · have hc : (drainPassed g types passed).stats.markedObjects ≠ m.stats.markedObjects := by
              intro heq
              exact hstop ⟨heq, by rw [(hdone heq).1]⟩
            have hwhite := hadv'.white
            have hle := hadv'.count_le
            obtain ⟨hclosure, hadv''⟩ := ih hinv' hph' hempty (by omega)
            exact ⟨hclosure, hadv'.trans hadv''⟩

end Drain

end Marker

end TachyonEngine.Gc
