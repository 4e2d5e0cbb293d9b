import TachyonEngine.Gc.MarkWeak

/-!
# Full marking is exact

The references of a table form a graph with ephemerons: the roots are the strong
references of the root set and of the pending records, the strong edges are those
of the payloads, and every ephemeron carries liveness from its owner and key to its
value. A successful full marking marks exactly the least closed set of that graph,
and its weak phases clear exactly the weak fields of marked owners whose target or
key is not marked.
-/

namespace TachyonEngine.Gc

open Lib.Traversal Lib.Capacity Lib.EphemeronReach

/-- The reference is one that a pending record holds. -/
def PendingFinalization.Refers (record : PendingFinalization) (ref : RawHeapRef) : Prop :=
  record.owner = ref ∨ record.heldValue.asHeapRef = some ref

/-- Roots, strong edges and ephemerons of a table. -/
def heapGraph (t : SpanTable) (roots : List TraceField) (pending : List PendingFinalization) :
    EphemeronGraph RawHeapRef where
  root := {r | (∃ field ∈ roots, r ∈ field.strongRefs) ∨ ∃ record ∈ pending, record.Refers r}
  strong := fun source target => ∃ field ∈ t.payload source, target ∈ field.strongRefs
  ephemeron := fun owner key value => ∃ field ∈ t.payload owner, field.Ephemeral key value

theorem closedUnder_of_closed {t : SpanTable} {roots : List TraceField}
    {pending : List PendingFinalization} {C : Set RawHeapRef}
    (h : (heapGraph t roots pending).Closed C) : ∀ r ∈ C, Marker.ClosedUnder (t.payload r) C := by
  intro r hr
  constructor
  · intro field hf tgt ht
    exact h.strong r tgt hr ⟨field, hf, ht⟩
  · intro field hf key val he hkey
    exact h.ephemeron r key val hr hkey ⟨field, hf, he⟩

namespace Marker

variable {g : Generation} {types : TypeRegistry} {m m' : Marker} {ref : RawHeapRef}
variable {t : SpanTable} {C S : Set RawHeapRef}

/-! ## Roots -/

/-- A fresh marking has marked nothing yet. -/
theorem drainInv_start {gray : GrayQueue} {weakOwners : WeakOwners}
    {pending : PendingFinalizations} {epoch : CollectionEpoch} (hfr : t.marked epoch = ∅) :
    DrainInv g t C ∅ [] (Marker.start t gray weakOwners pending epoch) where
  skeleton := rfl
  payload := fun _ => rfl
  rebuilding := rfl
  within := fun r hr => by
    have : r ∈ t.marked epoch := hr
    rw [hfr] at this
    cases this
  gray := fun _ h => absurd h List.not_mem_nil
  owners := fun _ h => absurd h List.not_mem_nil
  scanned := fun _ r hr => by
    have : r ∈ t.marked epoch := hr
    rw [hfr] at this
    cases this
  sources := fun _ _ h => absurd h (Set.notMem_empty _)

/-- A strong trace marks strong targets only; ephemerons of the root set are left
alone. -/
theorem traceAll_strong_within (fields : List TraceField) (hrebuild : m.rebuildingSource = false)
    (hph : m.phase = .strong) (hC : ∀ r ∈ m.marked, r ∈ C) (hign : ∀ r, Ignored g m.table r → r ∈ C)
    (hfields : ∀ field ∈ fields, ∀ r ∈ field.strongRefs, r ∈ C) :
    ∀ r ∈ (traceAll (visit g) fields m).1.marked, r ∈ C := by
  induction fields generalizing m with
  | nil => exact hC
  | cons field fields ih =>
    obtain ⟨-, hvisit⟩ := visit_strong (g := g) hrebuild hph field
    have hgr := hvisit.follows.grows
    -- Apart from an ephemeron, which marks nothing here, a field has strong targets only.
    have hcl : (∀ key v, field ≠ .ephemeron key v) → ClosedUnder [field] C := by
      intro hne
      refine ⟨fun f hf => ?_, fun f hf key val he => ?_⟩
      · rw [List.mem_singleton.mp hf]
        exact hfields _ (List.mem_cons_self ..)
      · obtain ⟨v, he, -⟩ := he
        exact absurd ((List.mem_singleton.mp hf).symm.trans he) (hne _ v)
    have hfirst : ∀ r ∈ (visit g m field).1.marked, r ∈ C := by
      cases field with
      | ephemeron key v =>
        have heq : (visit g m (.ephemeron key v)).1.marked = m.marked := by
          simp [visit, traceEphemeron, hrebuild, hph, marked]
        rw [heq]
        exact hC
      | value v | rawHeapRef r => exact hvisit.follows.sound C hC hign (hcl fun _ _ h => by cases h)
      | weak tgt | finalization tgt heldValue =>
        exact hvisit.follows.sound C hC hign (hcl fun _ _ h => by cases h)
    apply ih (hgr.rebuilding hrebuild) (hgr.phase.trans hph) hfirst
    · intro r hr
      exact hign r ((ignored_congr hgr.skeleton).mp hr)
    · intro f hf
      exact hfields f (List.mem_cons_of_mem _ hf)

/-- Tracing the roots of a root set. -/
structure TracesRoots (g : Generation) (t : SpanTable) (C S : Set RawHeapRef)
    (refs : RawHeapRef → Prop) (m m' : Marker) : Prop where
  inv : DrainInv g t C S [] m'
  grows : Grows m m'
  live : m'.error = none → ∀ r, refs r → Live g m' r

theorem traceRoots_facts (roots : List TraceField) (h : DrainInv g t C S [] m)
    (hph : m.phase = .strong) (hign : ∀ r, Ignored g t r → r ∈ C)
    (hroots : ∀ field ∈ roots, ∀ r ∈ field.strongRefs, r ∈ C) :
    TracesRoots g t C S (fun r => ∃ field ∈ roots, r ∈ field.strongRefs) m
    (m.traceRoots g roots) := by
  obtain ⟨-, htr⟩ := traceAll_strong (g := g) roots h.rebuilding hph
  have hwi := traceAll_strong_within (g := g) roots h.rebuilding hph h.within
    (fun r hr => hign r ((ignored_congr h.skeleton).mp hr)) hroots
  refine ⟨h.grow htr.follows.grows htr.follows.weakOwners hwi, htr.follows.grows, ?_⟩
  rintro herr r ⟨field, hf, hr⟩
  exact htr.live herr field hf r hr

/-- Queueing a target of the closed set. -/
theorem DrainInv.queue (h : DrainInv g t C S [] m) (hq : Queues g ref m m')
    (href : ref ∈ C) : DrainInv g t C S [] m' := by
  apply h.grow hq.grows hq.steady.weakOwners
  intro r hr
  rcases hq.only r hr with hr | rfl
  · exact h.within r hr
  · exact href

/-- One pending record: its owner and its held value. -/
theorem tracesRoots_record (h : DrainInv g t C S [] m) (rec : PendingFinalization)
    (hrec : ∀ r, rec.Refers r → r ∈ C) : TracesRoots g t C S rec.Refers m
      (enqueueOption g (enqueue g m rec.owner) rec.heldValue.asHeapRef) := by
  have howner := queues_enqueue g h.rebuilding rec.owner
  have hinv := h.queue howner (hrec _ (Or.inl rfl))
  cases hheld : rec.heldValue.asHeapRef with
  | none =>
    refine ⟨hinv, howner.grows, ?_⟩
    rintro herr r (rfl | hr)
    · exact howner.live herr
    · rw [hheld] at hr
      cases hr
  | some tgt =>
    have ht := queues_enqueue g hinv.rebuilding tgt
    refine ⟨hinv.queue ht (hrec _ (Or.inr hheld)), howner.grows.trans ht.grows, ?_⟩
    rintro herr r (rfl | hr)
    · exact ht.grows.live_mono (howner.live (ht.grows.error herr))
    · rw [hheld] at hr
      cases hr
      exact ht.live herr

theorem foldl_record_facts (records : List PendingFinalization) (h : DrainInv g t C S [] m)
    (hrecs : ∀ rec ∈ records, ∀ r, rec.Refers r → r ∈ C) :
    TracesRoots g t C S (fun r => ∃ rec ∈ records, rec.Refers r) m (records.foldl (fun m rec =>
        enqueueOption g (enqueue g m rec.owner) rec.heldValue.asHeapRef) m) := by
  induction records generalizing m with
  | nil =>
    refine ⟨h, .refl m, ?_⟩
    rintro - r ⟨rec, hm, -⟩
    cases hm
  | cons rec records ih =>
    have hfirst := tracesRoots_record h rec (hrecs rec (List.mem_cons_self ..))
    have hrest := ih hfirst.inv fun rec' hm => hrecs rec' (List.mem_cons_of_mem _ hm)
    refine ⟨hrest.inv, hfirst.grows.trans hrest.grows, ?_⟩
    rintro herr r ⟨rec', hm, hr⟩
    rcases List.mem_cons.mp hm with rfl | hm
    · exact hrest.grows.live_mono (hfirst.live (hrest.grows.error herr) r hr)
    · exact hrest.live herr r ⟨rec', hm, hr⟩

/-- A full marker ignores no object. -/
theorem not_ignored_full (t : SpanTable) (ref : RawHeapRef) : ¬Ignored .full t ref := by
  rintro ⟨h, -⟩
  cases h

theorem live_full : Live .full m ref ↔ ref ∈ m.marked := by
  constructor
  · rintro (h | h)
    · exact h
    · exact absurd h (not_ignored_full _ _)
  · exact Or.inl

/-- The result of `finish` is a success exactly when no error stopped the marker. -/
theorem finish_eq_ok {stats : MarkStats} (h : m.finish = (.ok stats, m')) :
    m.error = none ∧ m' = m := by
  unfold finish at h
  cases herr : m.error with
  | some e =>
    rw [herr] at h
    cases h
  | none =>
    rw [herr] at h
    cases h
    exact ⟨rfl, rfl⟩

end Marker

open Marker

/-- What full marking does with the graph of its table, whatever its outcome. -/
theorem markStrongRoots_facts {t : SpanTable} (types : TypeRegistry) (gray : GrayQueue)
    (weakOwners : WeakOwners) (pending : PendingFinalizations) {epoch : CollectionEpoch}
    (roots : List TraceField) (hfr : t.marked epoch = ∅) : ∃ cleared log, ∃ m m' : Marker,
      markStrongRoots t types gray weakOwners pending epoch roots = m'.finish ∧
      m.epoch = epoch ∧ m.table.skeleton = t.skeleton ∧ m.pendingFinalizations = pending ∧
      WeakClosed .full t (heapGraph t roots pending.entries).reachable ∅ cleared log m m' ∧
      (m'.error = none → ∀ r ∈ (heapGraph t roots pending.entries).root, r ∈ m'.marked) ∧
      (t.MarksWithin epoch → m'.table.MarksWithin epoch) := by
  have hg := (heapGraph t roots pending.entries).closed_reachable
  have hcl := closedUnder_of_closed hg
  have hign : ∀ r, Ignored .full t r → r ∈ (heapGraph t roots pending.entries).reachable :=
    fun r h => absurd h (not_ignored_full t r)
  have hst : DrainInv .full t (heapGraph t roots pending.entries).reachable ∅ []
      (Marker.start t gray weakOwners pending epoch) := drainInv_start hfr
  have hroots := traceRoots_facts roots hst rfl hign
    fun field hf r hr => hg.root r (Or.inl ⟨field, hf, hr⟩)
  have hrecs := foldl_record_facts
    ((Marker.start t gray weakOwners pending epoch).traceRoots .full
      roots).pendingFinalizations.entries
    hroots.inv (by
      rw [hroots.grows.pending]
      exact fun rec hmm r hr => hg.root r (Or.inr ⟨rec, hmm, hr⟩))
  have hph := (hroots.grows.trans hrecs.grows).phase
  obtain ⟨hinv, hph', hadv, hempty, -⟩ := drain_facts hcl hign types hrecs.inv hph
  obtain ⟨cleared, log, hweak⟩ := closeWeak_facts types hcl hign hinv hph' hempty
  have hadv₀ := ((hroots.grows.trans hrecs.grows).advances).trans hadv
  have hmarks : t.MarksWithin epoch → _ := fun hm => hweak.marksWithin (hadv₀.marksWithin hm)
  rw [hweak.epoch, hadv₀.epoch] at hmarks
  refine ⟨cleared, log, _, _, rfl, hadv₀.epoch, hinv.skeleton, hadv₀.pending, hweak, ?_, hmarks⟩
  -- A root is live when it is queued and stays so.
  intro herr r hr
  have hqueued := hadv.error (hweak.error herr)
  apply live_full.mp
  rcases hr with hr | hr
  · exact hweak.live_mono (hadv.live_mono (hrecs.grows.live_mono
      (hroots.live (hrecs.grows.error hqueued) r hr))) hinv.skeleton
  · obtain ⟨rec, hmm, href⟩ := hr
    refine hweak.live_mono (hadv.live_mono (hrecs.live hqueued r ⟨rec, ?_, href⟩)) hinv.skeleton
    rw [hroots.grows.pending]
    exact hmm

/-- Full marking marks the least closed set of the graph, clears the weak slots and
ephemerons of marked owners whose target or key is unmarked, and changes no weak
slot or ephemeron whose target or key is marked. -/
theorem markStrongRoots_isLeast {t : SpanTable} {types : TypeRegistry} {gray : GrayQueue}
    {weakOwners : WeakOwners} {pending : PendingFinalizations} {epoch : CollectionEpoch}
    {roots : List TraceField} {stats : MarkStats} {m' : Marker} (hfr : t.marked epoch = ∅)
    (hok : markStrongRoots t types gray weakOwners pending epoch roots = (.ok stats, m')) :
    IsLeast {s | (heapGraph t roots pending.entries).Closed s} (m'.table.marked epoch) ∧
      (∀ owner ∈ m'.table.marked epoch, ∀ slot tgt,
        t.slotAt (owner, slot) = some (.weak (some tgt)) →
        tgt ∉ m'.table.marked epoch → m'.table.slotAt (owner, slot) = some (.weak none)) ∧
      (∀ owner ∈ m'.table.marked epoch, ∀ slot key val,
        t.slotAt (owner, slot) = some (.ephemeron (some key) val) →
        key ∉ m'.table.marked epoch →
          m'.table.slotAt (owner, slot) = some (.ephemeron none .undefined)) ∧
      (∀ site tgt, t.slotAt site = some (.weak (some tgt)) →
        tgt ∈ m'.table.marked epoch → m'.table.slotAt site = some (.weak (some tgt))) ∧
      (∀ site key val, t.slotAt site = some (.ephemeron (some key) val) →
        key ∈ m'.table.marked epoch → m'.table.slotAt site = some (.ephemeron (some key) val)) := by
  obtain ⟨cleared, log, m, m₁, heq, hepoch, -, -, hweak, hroots, -⟩ :=
    markStrongRoots_facts types gray weakOwners pending roots hfr
  rw [hok] at heq
  obtain ⟨herr, rfl⟩ := finish_eq_ok heq.symm
  have hmarked : m'.marked = m'.table.marked epoch := by
    unfold Marker.marked
    rw [hweak.epoch, hepoch]
  have hlive : ∀ {r}, Live .full m' r ↔ r ∈ m'.table.marked epoch := by
    intro r
    rw [live_full, hmarked]
  have hscanned : ∀ r ∈ m'.table.marked epoch, Scanned .full t m' r := by
    intro r hr
    exact hweak.scanned herr r (Or.inl (hmarked ▸ hr))
  refine ⟨EphemeronGraph.isLeast_of_subset ⟨?_, ?_, ?_⟩ ?_, ?_, ?_, ?_, ?_⟩
  · intro r hr
    exact hmarked ▸ hroots herr r hr
  · rintro source tgt hsource ⟨field, hf, ht⟩
    exact hlive.mp ((hscanned source hsource).live field hf tgt ht)
  · rintro owner key val howner hkey ⟨field, hf, he⟩
    have hrecorded := (hscanned owner howner).recorded
      (by simp [WeakOwner.isWeak, hasEphemeron_of_ephemeral hf he])
    exact hlive.mp (hweak.ephemerons herr _ hrecorded field hf key val he (hlive.mpr hkey))
  · intro r hr
    exact hweak.within r (hmarked ▸ hr)
  · intro owner howner slot tgt hsl hdead
    rw [hweak.slotAt_cleared herr (Or.inl (hmarked ▸ howner)) hsl (Or.inl rfl)]
    simp [TraceField.cleared, hlive, hdead]
  · intro owner howner slot key val hsl hdead
    rw [hweak.slotAt_cleared herr (Or.inl (hmarked ▸ howner)) hsl (Or.inr rfl)]
    simp [TraceField.cleared, hlive, hdead]
  · intro site tgt hsl ht
    apply hweak.slotAt_kept hsl
    · simp [TraceField.cleared, hlive, ht]
    · exact fun _ _ h => by cases h
  · intro site key val hsl hkey
    apply hweak.slotAt_kept hsl
    · simp [TraceField.cleared, hlive, hkey]
    · exact fun _ _ h => by cases h

/-- A large object of two spans with these fields. -/
def sampleEntry (fields : List TraceField) : SpanEntry := .new (.largeOwner
    { storage :=
        { spanCount := 2
          cells := fun _ => { header := .new ⟨1, Nat.one_pos⟩ 0 0, payload := fields } }
      metadata := .new 2 65552 0 })

/-- The object at the start of a span. -/
def sampleReference (span : SpanId) : RawHeapRef := { spanId := span, spanOffset := firstOffset }

def sampleTypes : TypeRegistry :=
  { entries :=
      [{ rustTypeId := 0
         descriptor :=
           { typeId := ⟨1, Nat.one_pos⟩
             layout := { size := 65536, align := 8 }
             allocationPolicy := .oldOnly } }] }

/-- An ephemeron whose value holds the key of a second ephemeron, and a dead object
that is the target of a weak slot. -/
def sampleTable : SpanTable :=
  { SpanTable.new .granting with
    entries := [sampleEntry [.ephemeron (some (sampleReference 1)) (.heapRef (sampleReference 2)),
          .ephemeron (some (sampleReference 3)) (.heapRef (sampleReference 4)),
          .weak (some (sampleReference 5))],
       sampleEntry [],
       sampleEntry [.rawHeapRef (sampleReference 3)],
       sampleEntry [],
       sampleEntry [],
       sampleEntry []] }

def sampleMarking : Except MarkError MarkStats × Marker :=
  markStrongRoots sampleTable sampleTypes (.new 16 .granting) (.new 16 .granting)
    (.new 16 .granting) .initial
    [.rawHeapRef (sampleReference 0), .value (.heapRef (sampleReference 1))]

theorem markStrongRoots_isLeast_sampleTable :
    IsLeast
        {s | (heapGraph sampleTable
          [.rawHeapRef (sampleReference 0), .value (.heapRef (sampleReference 1))] []).Closed s}
        (sampleMarking.2.table.marked .initial) ∧
      sampleReference 4 ∈ sampleMarking.2.table.marked .initial ∧
      sampleReference 5 ∉ sampleMarking.2.table.marked .initial ∧
      sampleMarking.2.table.slotAt (sampleReference 0, 2) = some (.weak none) := by
  have hfr : sampleTable.marked .initial = ∅ := by
    apply SpanTable.marked_eq_empty
    simp [sampleTable, sampleEntry, SpanEntry.new, SpanKind.markEpoch, LargeSpanMetadata.new]
  have hok : sampleMarking = (.ok sampleMarking.2.stats, sampleMarking.2) :=
    Prod.ext rfl rfl
  have hmarks : sampleReference 0 ∈ sampleMarking.2.table.marked .initial ∧
      sampleReference 4 ∈ sampleMarking.2.table.marked .initial ∧
      sampleReference 5 ∉ sampleMarking.2.table.marked .initial := by
    refine ⟨?_, ?_, ?_⟩
    · exact (rfl : sampleMarking.2.table.isMarked (sampleReference 0) .initial = .ok true)
    · exact (rfl : sampleMarking.2.table.isMarked (sampleReference 4) .initial = .ok true)
    · intro h
      have hfalse : sampleMarking.2.table.isMarked (sampleReference 5) .initial = .ok false := rfl
      exact absurd (hfalse.symm.trans h) (by simp)
  obtain ⟨hleast, hweak, -⟩ := markStrongRoots_isLeast hfr hok
  exact ⟨hleast, hmarks.2.1, hmarks.2.2, hweak _ hmarks.1 2 (sampleReference 5) rfl hmarks.2.2⟩

end TachyonEngine.Gc
