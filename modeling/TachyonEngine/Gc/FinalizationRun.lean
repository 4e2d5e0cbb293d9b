import TachyonEngine.Gc.MinorSafety

/-!
# Finalization over runs

A run is any sequence of minor and major collections, whatever their outcome, and of
records handed over from the pending queue. The records of a run are accounted for by
deliveries: each empties one registration, a registration is emptied at most once, and
one that was not delivered is kept as long as its registry is. `Fades` says what
happens to the registrations of a table; it holds of every operation and is closed
under composition.
-/

namespace TachyonEngine.Gc

open SpanTable List

open Lib.Traversal Lib.Capacity Lib.EphemeronReach

/-- The registration at a site of a table. -/
def SpanTable.Registered (t : SpanTable) (site : RawHeapRef × Nat) (target : RawHeapRef)
    (heldValue : Value) : Prop :=
  t.slotAt site = some (.finalization (some target) heldValue)

/-- Between the tables the deliveries `log` were made, and otherwise registrations went
with their registries only. -/
structure Fades (t t' : SpanTable) (log : List Delivery) : Prop where
  once : (log.map Delivery.site).Nodup
  registered : ∀ d ∈ log, t.Valid d.registry ∧ t.Registered d.site d.target d.heldValue
  gone : ∀ d ∈ log, ∀ target heldValue, ¬t'.Registered d.site target heldValue
  back : ∀ site target heldValue, t'.Registered site target heldValue →
    t.Registered site target heldValue
  kept : ∀ site target heldValue, t.Registered site target heldValue →
    site ∈ log.map Delivery.site ∨ t'.Registered site target heldValue ∨ ¬t'.Valid site.1
  sub : ∀ reference, t'.Valid reference → t.Valid reference

namespace Fades

variable {t t' t'' : SpanTable} {log log' : List Delivery}

theorem refl (t : SpanTable) : Fades t t [] where
  once := nodup_nil
  registered := fun _ h => absurd h not_mem_nil
  gone := fun _ h => absurd h not_mem_nil
  back := fun _ _ _ h => h
  kept := fun _ _ _ h => Or.inr (Or.inl h)
  sub := fun _ h => h

theorem trans (h : Fades t t' log) (h' : Fades t' t'' log') : Fades t t'' (log ++ log') where
  once := by
    rw [map_append]
    refine nodup_append.mpr ⟨h.once, h'.once, ?_⟩
    -- A site that was delivered has no registration that could be delivered again.
    rintro a ha b hb rfl
    obtain ⟨d, hd, rfl⟩ := mem_map.mp ha
    obtain ⟨d', hd', hsite⟩ := mem_map.mp hb
    exact h.gone d hd d'.target d'.heldValue (hsite ▸ (h'.registered d' hd').2)
  registered := by
    intro d hd
    rcases mem_append.mp hd with hd | hd
    · exact h.registered d hd
    · obtain ⟨hval, hsl⟩ := h'.registered d hd
      exact ⟨h.sub _ hval, h.back _ _ _ hsl⟩
  gone := by
    exact forall_mem_append.mpr ⟨fun d hd tgt heldValue hsl => h.gone d hd tgt heldValue
      (h'.back _ _ _ hsl), h'.gone⟩
  back := fun site tgt heldValue hsl => h.back _ _ _ (h'.back _ _ _ hsl)
  kept := by
    intro site tgt heldValue hsl
    rw [map_append, mem_append]
    rcases h.kept site tgt heldValue hsl with hm | hsl' | hfreed
    · exact Or.inl (Or.inl hm)
    · rcases h'.kept site tgt heldValue hsl' with hm | hsl'' | hfreed
      · exact Or.inl (Or.inr hm)
      · exact Or.inr (Or.inl hsl'')
      · exact Or.inr (Or.inr hfreed)
    · exact Or.inr (Or.inr fun hval => hfreed (h'.sub _ hval))
  sub := fun ref hval => h.sub _ (h'.sub _ hval)

/-- Nothing happens to registrations when payloads and objects are the same. -/
theorem of_eq (hpay : ∀ ref, t'.payload ref = t.payload ref)
    (hval : ∀ ref, t'.Valid ref ↔ t.Valid ref) : Fades t t' [] where
  once := nodup_nil
  registered := fun _ h => absurd h not_mem_nil
  gone := fun _ h => absurd h not_mem_nil
  back := by
    intro site tgt heldValue h
    unfold SpanTable.Registered slotAt at h ⊢
    rw [← hpay]
    exact h
  kept := by
    intro site tgt heldValue h
    refine Or.inr (Or.inl ?_)
    unfold SpanTable.Registered slotAt at h ⊢
    rw [hpay]
    exact h
  sub := fun ref h => (hval ref).mp h

variable {g : Generation}

/-- A sweep takes registrations away with their registries. -/
theorem of_steps {epoch : CollectionEpoch} (h : SweepSteps g epoch t t') : Fades t t' [] where
  once := nodup_nil
  registered := fun _ h => absurd h not_mem_nil
  gone := fun _ h => absurd h not_mem_nil
  back := by
    intro site tgt heldValue hsl
    unfold SpanTable.Registered slotAt at hsl ⊢
    rcases h.payload site.1 with heq | heq
    · rw [← heq]
      exact hsl
    · rw [heq] at hsl
      simp at hsl
  kept := by
    intro site tgt heldValue hsl
    by_cases hval : t'.Valid site.1
    · refine Or.inr (Or.inl ?_)
      unfold SpanTable.Registered slotAt at hsl ⊢
      rw [(h.sub hval).payload]
      exact hsl
    · exact Or.inr (Or.inr hval)
  sub := fun ref hval => (h.sub hval).valid.mp hval

/-- A marking delivers and keeps the other registrations. -/
theorem of_weakClosed {C S : Set RawHeapRef} {cleared : SpanTable} {m m' : Marker} (h :
    Marker.WeakClosed g t C S cleared log m m') : Fades t m'.table log := by
  have hcleared : ∀ site tgt heldValue, cleared.Registered site tgt heldValue ↔
      t.Registered site tgt heldValue := by
    intro site tgt heldValue
    have hmay := h.may site.1
    unfold SpanTable.Registered slotAt
    by_cases hlt : site.2 < (t.payload site.1).length
    · have hlt' : site.2 < (cleared.payload site.1).length := hmay.length_eq ▸ hlt
      rw [getElem?_eq_getElem hlt, getElem?_eq_getElem hlt', Option.some.injEq,
        Option.some.injEq]
      exact ((forall₂_iff_get.mp hmay).2 site.2 hlt hlt').finalization_iff
    · have hlt' : ¬site.2 < (cleared.payload site.1).length := hmay.length_eq ▸ hlt
      rw [getElem?_eq_none (Nat.le_of_not_lt hlt),
        getElem?_eq_none (Nat.le_of_not_lt hlt')]
  have hval : ∀ ref, cleared.Valid ref ↔ t.Valid ref := fun ref =>
    valid_congr h.clearedSkeleton
  refine ⟨h.delivers.once, ?_, ?_, ?_, ?_, ?_⟩
  · intro d hd
    obtain ⟨hd, hsl⟩ := h.delivers.registered d hd
    exact ⟨(hval _).mp hd, (hcleared _ _ _).mp hsl⟩
  · intro d hd tgt heldValue hsl
    have hgone := h.delivers.gone d hd
    unfold SpanTable.Registered at hsl
    rw [hgone] at hsl
    cases hsl
  · intro site tgt heldValue hsl
    by_cases hm : site ∈ log.map Delivery.site
    · obtain ⟨d, hd, rfl⟩ := mem_map.mp hm
      have hgone := h.delivers.gone d hd
      unfold SpanTable.Registered at hsl
      rw [hgone] at hsl
      cases hsl
    · unfold SpanTable.Registered at hsl
      rw [h.delivers.kept site hm] at hsl
      exact (hcleared _ _ _).mp hsl
  · intro site tgt heldValue hsl
    by_cases hm : site ∈ log.map Delivery.site
    · exact Or.inl hm
    · refine Or.inr (Or.inl ?_)
      unfold SpanTable.Registered
      rw [h.delivers.kept site hm]
      exact (hcleared _ _ _).mpr hsl
  · intro ref hval'
    exact (valid_congr h.skeleton).mp hval'

end Fades

namespace Heap

variable {h h' h'' : Heap} {roots : List TraceField} {log log' : List Delivery}

/-! ## Collections -/

/-- An operation of the collector, with the deliveries it made. -/
structure Collects (h h' : Heap) (log : List Delivery) : Prop where
  fades : Fades h.table h'.table log
  pending : h'.pendingFinalizations.entries =
    h.pendingFinalizations.entries ++ log.map Delivery.record
  marksWithin : h.table.MarksWithin h.collectionEpoch → h'.table.MarksWithin h'.collectionEpoch

theorem Collects.refl (h : Heap) : Collects h h [] := ⟨.refl _, by simp, fun h => h⟩

theorem Collects.trans (h₁ : Collects h h' log) (h₂ : Collects h' h'' log') :
    Collects h h'' (log ++ log') where
  fades := h₁.fades.trans h₂.fades
  pending := by rw [h₂.pending, h₁.pending, map_append, append_assoc]
  marksWithin := fun hm => h₂.marksWithin (h₁.marksWithin hm)

/-- Steps of a sweep, with the queue and the epoch as they were. -/
theorem Collects.of_steps {g : Generation} {epoch : CollectionEpoch}
    (hsteps : SweepSteps g epoch h.table h'.table)
    (hpend : h'.pendingFinalizations = h.pendingFinalizations)
    (hepoch : h'.collectionEpoch = h.collectionEpoch) : Collects h h' [] where
  fades := .of_steps hsteps
  pending := by simp [hpend]
  marksWithin := fun hm => by
    rw [hepoch]
    exact hsteps.marksWithin hm

section

variable (hmarks : h.table.MarksWithin h.collectionEpoch)

include hmarks

theorem markYoung_collects {res : Except MarkError (MarkStats × YoungMarkStats)}
    (hmark : h.markYoung roots = some (res, h')) :
    ∃ log, Collects h h' log ∧ ∀ r, h'.table.Valid r ↔ h.table.Valid r := by
  obtain ⟨-, -, hskel, hpay⟩ := advanceCollectionEpoch_fresh hmarks
  obtain ⟨cleared, log, m, m', -, hpend, hweak, -, huncarded, -, hpend', -, hwi, -⟩ :=
    markYoung_facts hmarks hmark
  have hadvance : Fades h.table h.advanceEpoch.table [] := .of_eq hpay fun r => valid_congr hskel
  have hbare := bare_of_uncarded huncarded
  have hrebuild : Fades m'.table h'.table [] :=
    .of_eq (payload_of_uncarded huncarded) fun r => valid_of_bare hbare
  refine ⟨log, ⟨?_, ?_, fun _ => hwi⟩, fun r => ?_⟩
  · simpa using (hadvance.trans (.of_weakClosed hweak)).trans hrebuild
  · rw [hpend', hweak.pending, hpend]
  · exact ((valid_of_bare hbare).trans (valid_congr hweak.skeleton)).trans (valid_congr hskel)

variable {res : Except MarkError MarkStats}

/-- Full marking at the heap: the facts of `markStrongRoots_facts` in the new epoch. -/
theorem markStrong_facts (hmark : h.markStrong roots = (res, h')) :
    ∃ cleared log, ∃ m m' : Marker, m.epoch = h.advanceEpoch.collectionEpoch ∧
      m.pendingFinalizations = h.pendingFinalizations ∧ Marker.WeakClosed .full h.advanceEpoch.table
        (heapGraph h.advanceEpoch.table (h.rootComposition roots)
          h.pendingFinalizations.entries).reachable ∅ cleared log m m' ∧
      h'.table = m'.table ∧ h'.collectionEpoch = m'.epoch ∧
      h'.pendingFinalizations = m'.pendingFinalizations ∧
      h'.table.MarksWithin h'.collectionEpoch ∧ (res.isOk = true → m'.error = none) := by
  obtain ⟨hfr, hwi, -, -⟩ := advanceCollectionEpoch_fresh hmarks
  obtain ⟨cleared, log, m, m', heq, hepoch, -, hpend, hweak, -, hmarks'⟩ :=
    markStrongRoots_facts h.advanceEpoch.types h.advanceEpoch.gray h.advanceEpoch.weakOwners
      h.advanceEpoch.pendingFinalizations (h.advanceEpoch.rootComposition roots) hfr
  have hmark' : (m'.finish.1, h.advanceEpoch.absorbMarker m'.finish.2) = (res, h') := by
    rw [← hmark, ← heq]
    rfl
  have ht : m'.finish.2.table = m'.table ∧
      m'.finish.2.pendingFinalizations = m'.pendingFinalizations ∧
      (m'.finish.1.isOk = true → m'.error = none) := by
    unfold Marker.finish
    cases herr : m'.error with
    | none => exact ⟨rfl, rfl, fun _ => rfl⟩
    | some e => exact ⟨rfl, rfl, fun hok => by cases hok⟩
  cases hmark'
  refine ⟨cleared, log, m, m', hepoch, hpend, hweak, ht.1, ?_, ht.2.1, ?_, ht.2.2⟩
  · exact hepoch.symm.trans hweak.epoch.symm
  · have hwi' := hmarks' hwi
    rw [← ht.1] at hwi'
    exact hwi'

theorem markStrong_collects (hmark : h.markStrong roots = (res, h')) :
    ∃ log, Collects h h' log ∧ ∀ r, h'.table.Valid r ↔ h.table.Valid r := by
  obtain ⟨-, -, hskel, hpay⟩ := advanceCollectionEpoch_fresh hmarks
  obtain ⟨cleared, log, m, m', -, hpend, hweak, ht, -, hpend', hwi, -⟩ :=
    markStrong_facts hmarks hmark
  have hadvance : Fades h.table h.advanceEpoch.table [] := .of_eq hpay fun r => valid_congr hskel
  refine ⟨log, ⟨?_, ?_, fun _ => hwi⟩, fun r => ?_⟩
  · rw [ht]
    simpa using hadvance.trans (.of_weakClosed hweak)
  · rw [hpend', hweak.pending, hpend]
  · rw [ht]
    exact (valid_congr hweak.skeleton).trans (valid_congr hskel)

/-! ## Trimming -/

/-- A trim releases spans and leaves the queue and the epoch alone. -/
structure Trims (h : Heap) (s : Trimmer) : Prop where
  steps : SweepSteps .full h.collectionEpoch h.table s.heap.table
  pending : s.heap.pendingFinalizations = h.pendingFinalizations
  epoch : s.heap.collectionEpoch = h.collectionEpoch
  types : s.heap.types = h.types

omit hmarks in
theorem Trims.trimOne {s : Trimmer} (hs : Trims h s) (classIndex : Nat) :
    Trims h (trimOne classIndex s) := by
  unfold Heap.trimOne
  rcases s.heap.edenPool.firstRetained classIndex with _ | ⟨place, span⟩
  · exact hs
  · have hprep : SweepSteps .full h.collectionEpoch s.heap.table
        (s.heap.table.prepareRelease span).2 := prepareRelease_steps _ _
    simp only
    generalize s.heap.table.prepareRelease span = prepared at hprep ⊢
    obtain ⟨e | ⟨⟩, tbl⟩ := prepared
    · exact ⟨hs.steps.trans hprep, hs.pending, hs.epoch, hs.types⟩
    · have hrel : SweepSteps .full h.collectionEpoch tbl (tbl.release span).2 :=
        release_steps fun hg => by cases hg
      simp only at hprep ⊢
      generalize tbl.release span = release at hrel ⊢
      obtain ⟨e | ⟨⟩, released⟩ := release
      · exact ⟨(hs.steps.trans hprep).trans hrel, hs.pending, hs.epoch, hs.types⟩
      · exact ⟨(hs.steps.trans hprep).trans hrel, hs.pending, hs.epoch, hs.types⟩

omit hmarks in
theorem trims_trimEdenPoolStorage (h : Heap) :
    SweepSteps .full h.collectionEpoch h.table h.trimEdenPoolStorage.2.table ∧
      h.trimEdenPoolStorage.2.pendingFinalizations = h.pendingFinalizations ∧
      h.trimEdenPoolStorage.2.collectionEpoch = h.collectionEpoch := by
  have htrim : Trims h (foldUntil (fun s : Trimmer => s.error.isSome) trimClass
      (range smallSizeClasses.length) { heap := h }) := by
    apply foldUntil_induction (Trims h)
    · exact ⟨.refl, rfl, rfl, rfl⟩
    · intro s classIndex _ _ hs
      apply foldUntil_induction (Trims h) hs
      intro s' _ _ _ hs'
      exact hs'.trimOne classIndex
  unfold trimEdenPoolStorage
  simp only
  split
  · exact ⟨htrim.steps, htrim.pending, htrim.epoch⟩
  · exact ⟨htrim.steps, htrim.pending, htrim.epoch⟩

omit hmarks in
theorem trim_collects (h : Heap) : Collects h h.trimEdenPoolStorage.2 [] := by
  obtain ⟨hsteps, hpend, hepoch⟩ := trims_trimEdenPoolStorage h
  exact .of_steps hsteps hpend hepoch

omit hmarks in
/-- A major collection trims, marks, and sweeps when nothing stopped it before. -/
theorem collectMajor_cases {res : Except MajorCollectionError MajorCollectionStats}
    (hcoll : h.collectMajor roots = some (res, h')) :
    (∃ e, res = .error (.poolTrim e) ∧ h' = h.trimEdenPoolStorage.2) ∨
      (∃ e, res = .error (.mark e) ∧ h.trimEdenPoolStorage.2.markStrong roots = (.error e, h')) ∨
      ∃ stats marked, h.trimEdenPoolStorage.2.markStrong roots = (.ok stats, marked) ∧
        Absorbs marked (marked.sweeper.sweepFull marked.types marked.collectionEpoch) h' ∧
        ((marked.sweeper.sweepFull marked.types marked.collectionEpoch).halt = none ∨
          res.isOk = false) ∧ (∀ e, res ≠ .error (.mark e)) ∧
        h.trimEdenPoolStorage.1.isOk = true := by
  unfold collectMajor at hcoll
  -- the kernel need not run the marking to take the branches apart
  obtain ⟨mark, hrun⟩ : ∃ mark, Heap.markStrong = mark := ⟨_, rfl⟩
  rw [hrun] at hcoll ⊢
  rcases htrim : h.trimEdenPoolStorage with ⟨e | trimmed, base⟩
  · rw [htrim] at hcoll
    cases hcoll
    exact Or.inl ⟨e, rfl, rfl⟩
  · rw [htrim] at hcoll
    simp only at hcoll
    rcases hmark : mark base roots with ⟨e | stats, marked⟩
    · rw [hmark] at hcoll
      cases hcoll
      exact Or.inr (Or.inl ⟨e, rfl, rfl⟩)
    · rw [hmark] at hcoll
      simp only at hcoll
      cases habsorb : marked.absorbSweeper
          (marked.sweeper.sweepFull marked.types marked.collectionEpoch) with
      | none =>
        rw [habsorb] at hcoll
        cases hcoll
      | some swept =>
        rw [habsorb] at hcoll
        have habsorbs := absorbs_clearReleasedActiveSpans habsorb
        refine Or.inr (Or.inr ⟨stats, marked, rfl, ?_⟩)
        rcases hhalt : (marked.sweeper.sweepFull marked.types marked.collectionEpoch).halt with
          _ | ⟨e | _⟩
        · rw [hhalt] at hcoll
          cases hcoll
          exact ⟨habsorbs, Or.inl rfl, fun e heq => (by cases heq), rfl⟩
        · rw [hhalt] at hcoll
          cases hcoll
          exact ⟨habsorbs, Or.inr rfl, fun e heq => (by cases heq), rfl⟩
        · rw [hhalt] at hcoll
          cases hcoll

theorem collectMinor_collects {verifier : Bool}
    {res : Except MinorCollectionError MinorCollectionStats}
    (hcoll : h.collectMinor verifier roots = some (res, h')) : ∃ log, Collects h h' log := by
  rcases collectMinor_cases hcoll with ⟨e, -, rfl⟩ | hcycle
  · exact ⟨[], .refl h'⟩
  · rcases minorCycle_cases hcycle with ⟨e, hmark, -⟩ | ⟨stats, marked, s, hmark, hsweep,
      habsorb, -, -⟩
    · obtain ⟨log, hlog, -⟩ := markYoung_collects hmarks hmark
      exact ⟨log, hlog⟩
    · obtain ⟨log, hlog, -⟩ := markYoung_collects hmarks hmark
      have hsteps := Sweeper.sweepYoung_steps _ hsweep
      have hswept : Collects marked h' [] :=
        .of_steps (habsorb.table ▸ hsteps) habsorb.pending habsorb.epoch
      exact ⟨log ++ [], hlog.trans hswept⟩

theorem collectMajor_collects {res : Except MajorCollectionError MajorCollectionStats}
    (hcoll : h.collectMajor roots = some (res, h')) : ∃ log, Collects h h' log := by
  have htrim := trim_collects h
  have hmarks' := htrim.marksWithin hmarks
  rcases collectMajor_cases hcoll with ⟨e, -, rfl⟩ | ⟨e, -, hmark⟩ |
    ⟨stats, marked, hmark, habsorb, -, -⟩
  · exact ⟨[], htrim⟩
  · obtain ⟨log, hlog, -⟩ := markStrong_collects hmarks' hmark
    exact ⟨_, htrim.trans hlog⟩
  · obtain ⟨log, hlog, -⟩ := markStrong_collects hmarks' hmark
    have hsteps := Sweeper.sweepFull_steps marked.types marked.collectionEpoch marked.sweeper
    have hswept : Collects marked h' [] :=
      .of_steps (habsorb.table ▸ hsteps) habsorb.pending habsorb.epoch
    exact ⟨_, (htrim.trans hlog).trans hswept⟩

/-! ## Runs -/

/-- An operation of a run. -/
inductive CollectorOp where
  | minor (barrierVerifier : Bool) (roots : List TraceField)
  | major (roots : List TraceField)
  | pop

/-- One operation, with the record it hands over; `none` when it does not return. -/
def collectorStep (h : Heap) : CollectorOp → Option (Option PendingFinalization × Heap)
  | .minor barrierVerifier roots =>
    (h.collectMinor barrierVerifier roots).map fun run => (none, run.2)
  | .major roots => (h.collectMajor roots).map fun run => (none, run.2)
  | .pop => some h.popPendingFinalization

/-- Some operations, with the records they hand over. -/
def runCollector : List CollectorOp → Heap → Option (List PendingFinalization × Heap)
  | [], h => some ([], h)
  | op :: ops, h =>
    match h.collectorStep op with
    | none => none
    | some (record, h) =>
      (runCollector ops h).map fun run => (record.toList ++ run.1, run.2)

/-- A run, with the records handed over and the deliveries made. -/
structure Runs (h h' : Heap) (popped : List PendingFinalization) (log : List Delivery) : Prop where
  fades : Fades h.table h'.table log
  pending : popped ++ h'.pendingFinalizations.entries =
    h.pendingFinalizations.entries ++ log.map Delivery.record
  marksWithin : h'.table.MarksWithin h'.collectionEpoch

theorem collectorStep_runs {op : CollectorOp} {rec : Option PendingFinalization}
    (hstep : h.collectorStep op = some (rec, h')) : ∃ log, Runs h h' rec.toList log := by
  cases op with
  | minor verifier roots =>
    obtain ⟨⟨res, heap⟩, hcoll, heq⟩ := Option.map_eq_some_iff.mp hstep
    cases heq
    obtain ⟨log, hlog⟩ := collectMinor_collects hmarks hcoll
    exact ⟨log, hlog.fades, hlog.pending, hlog.marksWithin hmarks⟩
  | major roots =>
    obtain ⟨⟨res, heap⟩, hcoll, heq⟩ := Option.map_eq_some_iff.mp hstep
    cases heq
    obtain ⟨log, hlog⟩ := collectMajor_collects hmarks hcoll
    exact ⟨log, hlog.fades, hlog.pending, hlog.marksWithin hmarks⟩
  | pop =>
    refine ⟨[], ?_⟩
    unfold collectorStep popPendingFinalization Gc.popPendingFinalization at hstep
    cases hes : h.pendingFinalizations.entries with
    | nil | cons first rest =>
      cases hstep
      exact ⟨.refl _, by simp [hes], hmarks⟩

theorem runCollector_runs {ops : List CollectorOp} {popped : List PendingFinalization}
    (hrun : runCollector ops h = some (popped, h')) : ∃ log, Runs h h' popped log := by
  induction ops generalizing h popped with
  | nil =>
    cases hrun
    exact ⟨[], .refl _, by simp, hmarks⟩
  | cons op ops ih =>
    unfold runCollector at hrun
    rcases hstep : h.collectorStep op with _ | ⟨rec, next⟩
    · rw [hstep] at hrun
      cases hrun
    · rw [hstep] at hrun
      obtain ⟨⟨records, last⟩, hrest, heq⟩ := Option.map_eq_some_iff.mp hrun
      cases heq
      obtain ⟨log, hlog⟩ := collectorStep_runs hmarks hstep
      obtain ⟨log', hlog'⟩ := ih hlog.marksWithin hrest
      refine ⟨log ++ log', hlog.fades.trans hlog'.fades, ?_, hlog'.marksWithin⟩
      rw [append_assoc, hlog'.pending, ← append_assoc, hlog.pending, map_append,
        append_assoc]

/-- Marking made some deliveries, and a registration that is not among them is as it
was, with its registry in place. -/
def KeepsUndelivered (base marked : Heap) : Prop :=
  ∃ log : List Delivery, marked.pendingFinalizations.entries =
      base.pendingFinalizations.entries ++ log.map Delivery.record ∧
    (∀ r, marked.table.Valid r ↔ base.table.Valid r) ∧
    ∀ registry slot target heldValue, base.table.Valid registry →
      base.table.Registered (registry, slot) target heldValue →
      (registry, slot) ∉ log.map Delivery.site →
        marked.table.Registered (registry, slot) target heldValue

/-- Marking delivered the registrations of marked registries whose targets are not
marked, each of them once, and no others of theirs. -/
def DeliversExactly (base marked : Heap) : Prop :=
  ∃ log : List Delivery, marked.pendingFinalizations.entries =
      base.pendingFinalizations.entries ++ log.map Delivery.record ∧
    (log.map Delivery.site).Nodup ∧
    ∀ registry ∈ marked.table.marked marked.collectionEpoch, ∀ slot target heldValue,
      base.table.Registered (registry, slot) target heldValue →
        (⟨registry, slot, target, heldValue⟩ ∈ log ↔
          target ∉ marked.table.marked marked.collectionEpoch)

omit hmarks in
theorem Collects.keepsUndelivered (hcollects : Collects h h' log)
    (hval : ∀ r, h'.table.Valid r ↔ h.table.Valid r) : KeepsUndelivered h h' := by
  refine ⟨log, hcollects.pending, hval, ?_⟩
  intro registry slot tgt heldValue hreg hsl hm
  rcases hcollects.fades.kept _ _ _ hsl with hdelivered | hkept | hfreed
  · exact absurd hdelivered hm
  · exact hkept
  · exact absurd ((hval registry).mpr hreg) hfreed

theorem markStrong_deliversExactly {stats : MarkStats}
    (hmark : h.markStrong roots = (.ok stats, h')) : DeliversExactly h h' := by
  obtain ⟨-, -, hskel, hpay⟩ := advanceCollectionEpoch_fresh hmarks
  obtain ⟨cleared, log, m, m', -, hpend, hweak, ht, hepoch, hpend', -, herr⟩ :=
    markStrong_facts hmarks hmark
  have herr := herr rfl
  have hmarked : h'.table.marked h'.collectionEpoch = m'.marked := by
    rw [ht, hepoch]
    rfl
  have hlive : ∀ r, Marker.Live .full m' r ↔ r ∈ h'.table.marked h'.collectionEpoch := by
    intro r
    rw [hmarked]
    exact Marker.live_full
  have hfades := Fades.of_weakClosed hweak
  refine ⟨log, by rw [hpend', hweak.pending, hpend], hweak.delivers.once, ?_⟩
  intro registry hreg slot tgt heldValue hsl
  have hsl' : h.advanceEpoch.table.Registered (registry, slot) tgt heldValue := by
    unfold SpanTable.Registered slotAt at hsl ⊢
    rw [show h.advanceEpoch.table.payload registry = h.table.payload registry from hpay registry]
    exact hsl
  constructor
  · intro hm
    rw [← hlive]
    exact hweak.dead _ hm
  · intro hdead
    -- The registry is a weak owner, so no dead registration is left in it.
    have hfield : TraceField.finalization (some tgt) heldValue ∈
        h.advanceEpoch.table.payload registry := mem_iff_getElem?.mpr ⟨slot, hsl'⟩
    have hscanned := hweak.scanned herr registry (Or.inl (hmarked ▸ hreg))
    have hfinalization : (weakOwnerOf h.advanceEpoch.table registry).hasFinalization = true :=
      any_eq_true.mpr ⟨_, hfield, rfl⟩
    have hrecorded := hscanned.recorded (by simp [WeakOwner.isWeak, hfinalization])
    have hswept := hweak.swept herr _ hrecorded hfinalization
    rcases hfades.kept _ _ _ hsl' with hdelivered | hkept | hfreed
    · obtain ⟨d, hd, hsite⟩ := mem_map.mp hdelivered
      have hd' := (hfades.registered d hd).2
      rw [hsite] at hd'
      unfold SpanTable.Registered at hd' hsl'
      rw [hsl'] at hd'
      obtain ⟨rfl, rfl⟩ := hsite
      cases hd'
      exact hd
    · exfalso
      have hm : TraceField.finalization (some tgt) heldValue ∈ m'.table.payload registry :=
        mem_iff_getElem?.mpr ⟨slot, hkept⟩
      exact hdead ((hlive tgt).mp (hswept tgt heldValue hm))
    · exfalso
      apply hfreed
      rw [hmarked] at hreg
      exact valid_of_marked hreg

end

end Heap

/-- Finalization is exactly-once and lossless, over every run of the collector. The
records of a run belong to registrations of registries that were allocated at its
start, each to one of them; the other registrations are kept as long as their
registries are. From any state of a run, a successful major collection delivers
exactly the registrations of marked registries with unmarked targets, and a collection
whose marking fails keeps what it did not deliver. -/
theorem finalization_exactlyOnce {h h' : Heap} {ops : List Heap.CollectorOp}
    {popped : List PendingFinalization} (hmarks : h.table.MarksWithin h.collectionEpoch)
    (hrun : Heap.runCollector ops h = some (popped, h')) :
    (∃ log : List Delivery, popped ++ h'.pendingFinalizations.entries =
        h.pendingFinalizations.entries ++ log.map Delivery.record ∧
      (log.map Delivery.site).Nodup ∧
      (∀ d ∈ log, h.table.Valid d.registry ∧ h.table.Registered d.site d.target d.heldValue) ∧
      ∀ registry slot tgt heldValue, h.table.Registered (registry, slot) tgt heldValue →
        (registry, slot) ∈ log.map Delivery.site ∨
          h'.table.Registered (registry, slot) tgt heldValue ∨ ¬h'.table.Valid registry) ∧
    (∀ roots stats h'', h'.collectMajor roots = some (.ok stats, h'') →
      ∃ markStats marked, h'.trimEdenPoolStorage.2.markStrong roots = (.ok markStats, marked) ∧
        h''.pendingFinalizations = marked.pendingFinalizations ∧
        Heap.DeliversExactly h'.trimEdenPoolStorage.2 marked) ∧
    (∀ roots e h'', h'.collectMajor roots = some (.error (.mark e), h'') →
      Heap.KeepsUndelivered h'.trimEdenPoolStorage.2 h'') ∧
    ∀ verifier roots e h'', h'.collectMinor verifier roots = some (.error (.mark e), h'') →
      Heap.KeepsUndelivered h' h'' := by
  obtain ⟨log, hlog⟩ := Heap.runCollector_runs hmarks hrun
  have htrim := (Heap.trim_collects h').marksWithin hlog.marksWithin
  refine ⟨⟨log, hlog.pending, hlog.fades.once, hlog.fades.registered, ?_⟩, ?_, ?_, ?_⟩
  · intro registry slot tgt heldValue hsl
    exact hlog.fades.kept _ _ _ hsl
  · intro roots stats h'' hcoll
    rcases Heap.collectMajor_cases hcoll with ⟨e, heq, -⟩ | ⟨e, heq, -⟩ |
      ⟨markStats, marked, hmark, habsorb, -, -⟩
    · cases heq
    · cases heq
    · exact ⟨markStats, marked, hmark, habsorb.pending, Heap.markStrong_deliversExactly htrim hmark⟩
  · intro roots e h'' hcoll
    rcases Heap.collectMajor_cases hcoll with ⟨e', heq, -⟩ | ⟨e', -, hmark⟩ |
      ⟨markStats, marked, -, -, -, hne⟩
    · cases heq
    · obtain ⟨log', hlog', hval⟩ := Heap.markStrong_collects htrim hmark
      exact hlog'.keepsUndelivered hval
    · exact absurd rfl (hne.1 e)
  · intro verifier roots e h'' hcoll
    rcases Heap.collectMinor_cases hcoll with ⟨e', heq, -⟩ | hcycle
    · cases heq
    · rcases Heap.minorCycle_cases hcycle with ⟨e', hmark, -⟩ | ⟨stats, marked, s, -, -, -,
        -, hne, -⟩
      · obtain ⟨log', hlog', hval⟩ := Heap.markYoung_collects hlog.marksWithin hmark
        exact hlog'.keepsUndelivered hval
      · exact absurd rfl (hne e)

/-- The large object registers the second young object. -/
def registryHeap : Heap :=
  { minorHeap with
    table :=
      { minorTable with
        entries :=
          { sampleEntry [.rawHeapRef (youngReference 0),
               .finalization (some (youngReference 1)) (.heapRef (youngReference 0))] with
            inRememberedSet := true } :: minorTable.entries.tail } }

def registryRun : List Heap.CollectorOp :=
  [.minor true [], .pop, .major [.rawHeapRef (sampleReference 0)]]

theorem finalization_exactlyOnce_registryHeap :
    ∃ h', Heap.runCollector registryRun registryHeap =
        some ([{ owner := sampleReference 0, heldValue := .heapRef (youngReference 0) }], h') ∧
      (∀ tgt heldValue, ¬h'.table.Registered (sampleReference 0, 1) tgt heldValue) ∧
      ∃ log : List Delivery, log.map Delivery.record =
        [{ owner := sampleReference 0, heldValue := .heapRef (youngReference 0) }] := by
  have hmarks : registryHeap.table.MarksWithin registryHeap.collectionEpoch := by
    simp [SpanTable.MarksWithin, registryHeap, minorTable, sampleEntry, SpanEntry.new,
      SpanKind.markEpoch, LargeSpanMetadata.new, SmallSpanMetadata.new, MarkBitmap.new]
  have hpopped : ((Heap.runCollector registryRun registryHeap).map fun run => run.1) =
      some [{ owner := sampleReference 0, heldValue := .heapRef (youngReference 0) }] := rfl
  have hsl : ((Heap.runCollector registryRun registryHeap).map fun run =>
      run.2.table.slotAt (sampleReference 0, 1)) = some (some
        (.finalization none .undefined)) := rfl
  have hes : ((Heap.runCollector registryRun registryHeap).map fun run =>
      run.2.pendingFinalizations.entries) = some [] := rfl
  rcases hrun : Heap.runCollector registryRun registryHeap with _ | ⟨popped, h'⟩
  · rw [hrun] at hpopped
    cases hpopped
  · rw [hrun] at hpopped hsl hes
    simp only [Option.map_some, Option.some.injEq] at hpopped hsl hes
    obtain ⟨⟨log, hlog, -⟩, -⟩ := finalization_exactlyOnce hmarks hrun
    subst hpopped
    refine ⟨h', rfl, ?_, log, ?_⟩
    · intro tgt heldValue hreg
      have hsome := hsl.symm.trans hreg
      cases hsome
    · rw [hes] at hlog
      exact hlog.symm

end TachyonEngine.Gc
