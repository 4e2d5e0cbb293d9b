import TachyonEngine.Gc.Rebuild
import TachyonEngine.Gc.SweepRun

/-!
# A minor collection reclaims no live object

The graph of a minor collection has every old object for a root (`youngGraph`). When
each edge from an old object to a young one is remembered (`Covered`), a successful
minor collection leaves every reachable young object in place, and what it frees is
young and not reachable.
-/

namespace TachyonEngine.Gc

open SpanTable

open Lib.Traversal Lib.Capacity Lib.EphemeronReach

/-- Every direct edge from an old object to a young one has its source remembered, in
a span on the chain of remembered sources. -/
def SpanTable.Covered (t : SpanTable) : Prop :=
  ∀ source target, Ignored .young t source → target ∈ payloadRefs (t.payload source) →
    t.referenceSpace target = .ok .young → RememberedSource t source

/-- The graph of the allocated objects as a minor collection has it: the roots are those
of the root set, of the pending records, and every old object. -/
def youngGraph (t : SpanTable) (roots : List TraceField) (pending : List PendingFinalization) :
    EphemeronGraph RawHeapRef where
  root := {r | r ∈ (heapGraph t roots pending).root ∨ Ignored .young t r}
  strong := fun source target => t.Valid source ∧ (heapGraph t roots pending).strong source target
  ephemeron := fun owner key value => t.Valid owner ∧ t.Valid key ∧
    (heapGraph t roots pending).ephemeron owner key value

theorem strongRefs_subset (field : TraceField) : ∀ r ∈ field.strongRefs, r ∈ field.refs := by
  cases field <;> simp +contextual [TraceField.strongRefs, TraceField.refs]

/-! ## Reachable young objects are live -/

section Congr

variable {t t' : SpanTable} (hskel : t.skeleton = t'.skeleton)
variable (hpay : ∀ ref, t.payload ref = t'.payload ref)
include hskel hpay

theorem youngGraph_congr (roots : List TraceField) (pending : List PendingFinalization) :
    youngGraph t roots pending = youngGraph t' roots pending := by
  have hheap : heapGraph t roots pending = heapGraph t' roots pending := by
    unfold heapGraph
    simp only [hpay]
  have hval : ∀ r, t.Valid r ↔ t'.Valid r := fun r => valid_congr hskel
  have hign : ∀ r, Ignored .young t r ↔ Ignored .young t' r := fun r => Marker.ignored_congr hskel
  unfold youngGraph
  simp only [hheap, hval, hign]

theorem SpanTable.Covered.congr (h : t.Covered) : t'.Covered := by
  intro source tgt hold ht hyoung
  have hsource := h source tgt ((Marker.ignored_congr hskel).mpr hold) (by rw [hpay]; exact ht)
    (by rw [referenceSpace_congr hskel]; exact hyoung)
  refine ⟨(valid_congr hskel).mp hsource.valid, ?_, ?_⟩
  · rw [← remembers_congr hskel]
    exact hsource.remembers
  · rw [← rememberedHead_congr hskel, ← funext (rememberedNext_congr hskel)]
    exact hsource.chained

end Congr

namespace Marker

variable {t cleared : SpanTable} {log : List Delivery} {m m' : Marker}

/-- An allocated object is young or taken for live. -/
theorem young_or_ignored {ref : RawHeapRef} (h : t.Valid ref) :
    t.referenceSpace ref = .ok .young ∨ Ignored .young t ref := by
  obtain ⟨kind, hk, hlive⟩ := valid_iff.mp h
  by_cases hyoung : kind.referenceSpace = some .young
  · unfold referenceSpace
    rw [verifyReference_eq_ok.mpr ⟨kind, hk, hlive, rfl⟩, hk]
    simp [hyoung]
  · exact Or.inr (SweepSteps.ignored_iff.mpr ⟨kind, hk, hlive, hyoung⟩)

/-- A live source with a target that is not old was scanned. -/
theorem scanned_of_live {source tgt : RawHeapRef} (hcov : t.Covered)
    (hweak : WeakClosed .young t Set.univ {r | RememberedSource t r} cleared log m m')
    (herr : m'.error = none) (hlive : Live .young m' source)
    (ht : tgt ∈ payloadRefs (t.payload source))
    (hyoung : t.referenceSpace tgt = .ok .young) : Scanned .young t m' source := by
  rcases hlive with hmarked | hold
  · exact hweak.scanned herr source (Or.inl hmarked)
  · have hold' := (ignored_congr hweak.skeleton).mp hold
    exact hweak.scanned herr source (Or.inr (hcov source tgt hold' ht hyoung))

/-- The live objects are closed under the graph of the minor collection. -/
theorem closed_live {roots : List TraceField} {pending : List PendingFinalization}
    (hcov : t.Covered)
    (hweak : WeakClosed .young t Set.univ {r | RememberedSource t r} cleared log m m')
    (herr : m'.error = none) (hroots : ∀ r ∈ (heapGraph t roots pending).root, Live .young m' r) :
    (youngGraph t roots pending).Closed {r | t.Valid r → Live .young m' r} where
  root := by
    rintro r (hr | hr) hval
    · exact hroots r hr
    · exact Or.inr ((ignored_congr hweak.skeleton).mpr hr)
  strong := by
    rintro source tgt hsource ⟨hval, field, hf, hr⟩ ht
    rcases young_or_ignored ht with hyoung | hold
    · have hm : tgt ∈ payloadRefs (t.payload source) :=
        List.mem_flatMap.mpr ⟨field, hf, strongRefs_subset field tgt hr⟩
      exact (scanned_of_live hcov hweak herr (hsource hval) hm hyoung).live field hf tgt hr
    · exact Or.inr ((ignored_congr hweak.skeleton).mpr hold)
  ephemeron := by
    rintro owner key val howner hkey ⟨hval, hkeyValid, field, hf, he⟩ hvl
    rcases young_or_ignored hvl with hyoung | hold
    · have hm : val ∈ payloadRefs (t.payload owner) := by
        obtain ⟨v, rfl, hv⟩ := he
        exact List.mem_flatMap.mpr ⟨_, hf, by simp [TraceField.refs, hv]⟩
      have hscanned := scanned_of_live hcov hweak herr (howner hval) hm hyoung
      have hrecorded := hscanned.recorded
        (by simp [WeakOwner.isWeak, hasEphemeron_of_ephemeral hf he])
      exact hweak.ephemerons herr _ hrecorded field hf key val he (hkey hkeyValid)
    · exact Or.inr ((ignored_congr hweak.skeleton).mpr hold)

end Marker

/-! ## The heap operation -/

namespace Heap

variable {h h' : Heap} {roots : List TraceField}

/-- What a sweep hands back to the heap. An active span is one that was active and is
still there, or a promoted one. -/
structure Absorbs (h : Heap) (s : Sweeper) (h' : Heap) : Prop where
  table : h'.table = s.table
  pending : h'.pendingFinalizations = h.pendingFinalizations
  epoch : h'.collectionEpoch = h.collectionEpoch
  types : h'.types = h.types
  pool : h'.edenPool = s.edenPool
  active : ∀ space classIndex span, h'.active space classIndex = some span →
    (h.active space classIndex = some span ∧ (s.table.sweepTarget span).isSome) ∨
      (space = .old ∧ (s.promotedActiveOld[classIndex]?).join = some span)

variable {s : Sweeper}

theorem absorbSweeper_eq_some (h₁ : h.absorbSweeper s = some h') :
    h' = { h with
      table := s.table
      objectExternalBytes := s.externalBytes
      edenPool := s.edenPool
      sweepWorklist := s.worklist
      committedSpanStorageBytes := h.committedSpanStorageBytes -
        s.stats.releasedStorageBytes } := by
  simp only [absorbSweeper] at h₁
  split_ifs at h₁
  exact (Option.some.inj h₁).symm

theorem sweepTarget_of_canAllocate {t : SpanTable} {span : SpanId}
    (hroom : t.canAllocateInSpan span = true) : (t.sweepTarget span).isSome := by
  simp only [canAllocateInSpan] at hroom
  simp only [sweepTarget]
  split at hroom
  next hk =>
    rw [hk]
    rfl
  · cases hroom

theorem getElem?_join_map {α : Type} {l : List (Option α)} {f : Option α → Option α}
    {i : Nat} {a : α} (h : ((l.map f)[i]?).join = some a) (hf : ∀ o, f o = some a → o = some a) :
    (l[i]?).join = some a := by
  rw [List.getElem?_map] at h
  cases hget : l[i]? with
  | none =>
    rw [hget] at h
    cases h
  | some o =>
    rw [hget] at h
    exact hf o h

variable {swept : Heap}

theorem absorbs_clearReleasedActiveSpans (h₁ : h.absorbSweeper s = some swept) :
    Absorbs h s swept.clearReleasedActiveSpans := by
  obtain rfl := absorbSweeper_eq_some h₁
  refine ⟨rfl, rfl, rfl, rfl, rfl, ?_⟩
  -- A span is kept when it is still the owner of its entry.
  have hkeep : ∀ (l : List (Option SpanId)) (c : Nat) (span : SpanId),
      ((l.map fun span => span.filter fun span => (s.table.sweepTarget span).isSome)[c]?).join =
        some span → (l[c]?).join = some span ∧ (s.table.sweepTarget span).isSome := by
    intro l c span hact
    have hm : (s.table.sweepTarget span).isSome := by
      rw [List.getElem?_map] at hact
      cases hget : l[c]? with
      | none =>
        rw [hget] at hact
        cases hact
      | some o =>
        rw [hget] at hact
        exact (Option.filter_eq_some_iff.mp hact).2
    refine ⟨getElem?_join_map hact ?_, hm⟩
    intro o ho
    exact (Option.filter_eq_some_iff.mp ho).1
  intro space c span hact
  cases space with
  | young | old => exact Or.inl (hkeep _ c span hact)

theorem active_young_repair (h : Heap) (promoted : List (Option SpanId)) (c : Nat) :
    (h.repairActiveSpansAfterMinor promoted).active .young c = none := by
  simp only [repairActiveSpansAfterMinor, active, List.getElem?_map]
  cases h.activeEden[c]? <;> rfl

theorem absorbs_repairActiveSpansAfterMinor (h₁ : h.absorbSweeper s = some swept) :
    Absorbs h s (swept.repairActiveSpansAfterMinor s.promotedActiveOld) := by
  obtain rfl := absorbSweeper_eq_some h₁
  refine ⟨rfl, rfl, rfl, rfl, rfl, ?_⟩
  intro space c span hact
  cases space with
  | young =>
    rw [active_young_repair] at hact
    cases hact
  | old =>
    simp only [repairActiveSpansAfterMinor, active, List.getElem?_zipWith] at hact
    cases hold : h.activeOld[c]? with
    | none =>
      rw [hold] at hact
      cases hact
    | some active =>
      cases hnew : s.promotedActiveOld[c]? with
      | none =>
        rw [hold, hnew] at hact
        cases hact
      | some promoted =>
        rw [hold, hnew] at hact
        rcases Option.or_eq_some_iff.mp hact with hkept | ⟨-, hpromoted⟩
        · obtain ⟨hact', hroom⟩ := Option.filter_eq_some_iff.mp hkept
          refine Or.inl ⟨?_, sweepTarget_of_canAllocate hroom⟩
          simp only [Heap.active, hold]
          exact hact'
        · exact Or.inr ⟨rfl, hpromoted⟩

variable {res : Except MinorCollectionError MinorCollectionStats}

/-- A minor collection marks, and sweeps when nothing stopped the marking. -/
theorem minorCycle_cases (hcycle : h.minorCycle roots = some (res, h')) :
    (∃ e, h.markYoung roots = some (.error e, h') ∧ res = .error (.mark e)) ∨
      ∃ stats marked s, h.markYoung roots = some (.ok stats, marked) ∧
        marked.sweeper.sweepYoung marked.types marked.collectionEpoch = some s ∧
        Absorbs marked s h' ∧ (res.isOk = true → s.halt = none) ∧
        (∀ e, res ≠ .error (.mark e)) ∧ ∀ classIndex, h'.active .young classIndex = none := by
  unfold minorCycle at hcycle
  rcases hmark : h.markYoung roots with _ | ⟨e | ⟨stats, young⟩, marked⟩
  · rw [hmark] at hcycle
    cases hcycle
  · rw [hmark] at hcycle
    cases hcycle
    exact Or.inl ⟨e, rfl, rfl⟩
  · rw [hmark] at hcycle
    simp only at hcycle
    cases hsweep : marked.sweeper.sweepYoung marked.types marked.collectionEpoch with
    | none =>
      rw [hsweep] at hcycle
      cases hcycle
    | some s =>
      rw [hsweep] at hcycle
      simp only at hcycle
      cases habsorb : marked.absorbSweeper s with
      | none =>
        rw [habsorb] at hcycle
        cases hcycle
      | some swept =>
        rw [habsorb] at hcycle
        have habsorbs := absorbs_repairActiveSpansAfterMinor habsorb
        refine Or.inr ⟨(stats, young), marked, s, rfl, hsweep, ?_⟩
        rcases hhalt : s.halt with _ | ⟨e | _⟩
        · rw [hhalt] at hcycle
          cases hcycle
          exact ⟨habsorbs, fun _ => rfl, fun e heq => (by cases heq), active_young_repair _ _⟩
        · rw [hhalt] at hcycle
          cases hcycle
          exact ⟨habsorbs, fun hok => (by cases hok), fun e heq => (by cases heq),
            active_young_repair _ _⟩
        · rw [hhalt] at hcycle
          cases hcycle

theorem collectMinor_cases {verifier : Bool} (hcoll : h.collectMinor verifier roots = some (res,
    h')) : (∃ e, res = .error (.barrier e) ∧ h' = h) ∨ h.minorCycle roots = some (res, h') := by
  unfold collectMinor at hcoll
  split at hcoll
  · split at hcoll
    next e _ =>
      cases hcoll
      exact Or.inl ⟨e, rfl, rfl⟩
    · exact Or.inr hcoll
  · exact Or.inr hcoll

/-- Young marking at the heap: the facts of `markYoungRoots_facts` in the new epoch. -/
theorem markYoung_facts {res : Except MarkError (MarkStats × YoungMarkStats)}
    (hmarks : h.table.MarksWithin h.collectionEpoch)
    (hmark : h.markYoung roots = some (res, h')) : ∃ cleared log, ∃ m m' : Marker,
      m.epoch = h.advanceEpoch.collectionEpoch ∧ m.pendingFinalizations = h.pendingFinalizations ∧
      Marker.WeakClosed .young h.advanceEpoch.table Set.univ
        {r | RememberedSource h.advanceEpoch.table r} cleared log m m' ∧
      (m'.error = none → ∀ r ∈ (heapGraph h.advanceEpoch.table (h.rootComposition roots)
        h.pendingFinalizations.entries).root, Marker.Live .young m' r) ∧
      h'.table.uncarded = m'.table.uncarded ∧ h'.collectionEpoch = m'.epoch ∧
      h'.pendingFinalizations = m'.pendingFinalizations ∧ h'.types = h.types ∧
      h'.table.MarksWithin h'.collectionEpoch ∧ (res.isOk = true → m'.error = none) := by
  obtain ⟨hfr, hwi, -, -⟩ := advanceCollectionEpoch_fresh hmarks
  obtain ⟨⟨r, mr⟩, hroots, heq⟩ := Option.map_eq_some_iff.mp hmark
  cases heq
  obtain ⟨cleared, log, m, m', hepoch, hpend, hweak, hlive, hph, hmarks', hout⟩ :=
    markYoungRoots_facts hfr hroots
  obtain ⟨huncarded, hepoch', hpend', hok⟩ := hout.rests hph
  exact ⟨cleared, log, m, m', hepoch, hpend, hweak, hlive, huncarded,
    (hepoch.symm.trans hweak.epoch.symm), hpend', rfl,
    (marksWithin_of_uncarded huncarded).mpr (hmarks' hwi), hok⟩

end Heap

/-- A minor collection reclaims no live object: a reachable young object is still
allocated with its header, and what is freed is young and not reachable. -/
theorem collectMinor_keeps_reachable {h h' : Heap} {verifier : Bool} {roots : List TraceField}
    {stats : MinorCollectionStats} (hmarks : h.table.MarksWithin h.collectionEpoch)
    (hcov : h.table.Covered) (hok : h.collectMinor verifier roots = some (.ok stats, h')) :
    (∀ r ∈ (youngGraph h.table (h.rootComposition roots) h.pendingFinalizations.entries).reachable,
      h.table.referenceSpace r = .ok .young →
        h'.table.verifyReference r none = h.table.verifyReference r none) ∧
      ∀ r, h.table.Valid r → ¬h'.table.Valid r →
        h.table.referenceSpace r = .ok .young ∧ r ∉ (youngGraph h.table (h.rootComposition roots)
            h.pendingFinalizations.entries).reachable := by
  have hcycle : h.minorCycle roots = some (.ok stats, h') := by
    rcases Heap.collectMinor_cases hok with ⟨e, heq, -⟩ | hcycle
    · cases heq
    · exact hcycle
  rcases Heap.minorCycle_cases hcycle with ⟨e, -, heq⟩ | ⟨ms, marked, s, hmark, hsweep,
    habsorb, -, -⟩
  · cases heq
  obtain ⟨-, -, hskel, hpay⟩ := SpanTable.advanceCollectionEpoch_fresh hmarks
  obtain ⟨cleared, log, m, m', -, -, hweak, hroots, huncarded, hepoch, -, -, -, herr⟩ :=
    Heap.markYoung_facts hmarks hmark
  have herr := herr rfl
  -- Marked or old objects go through the sweep, and these are the live ones.
  have hkept : ∀ r, Marker.Live .young m' r →
      h'.table.verifyReference r none = h.table.verifyReference r none := by
    intro r hlive
    have hbare := SpanTable.bare_of_uncarded huncarded
    have hkeep : r ∈ marked.table.marked marked.collectionEpoch ∨
        Ignored .young marked.table r := by
      rcases hlive with hlive | hlive
      · refine Or.inl ?_
        rw [SpanTable.marked_of_uncarded huncarded, hepoch]
        exact hlive
      · obtain ⟨hg, space, hspace, hold⟩ := hlive
        exact Or.inr ⟨hg, space, (SpanTable.referenceSpace_of_bare hbare r).trans hspace, hold⟩
    have hsurvives := (SweepSteps.kept (Sweeper.sweepYoung_steps _ hsweep) hkeep).1
    rw [habsorb.table, hsurvives.verify]
    exact (SpanTable.verifyReference_of_bare hbare r none).trans
      ((SpanTable.verifyReference_of_bare (SpanTable.bare_congr hweak.skeleton) r none).trans
        (SpanTable.verifyReference_of_bare (SpanTable.bare_congr hskel) r none))
  have hreach : ∀ r ∈ (youngGraph h.table (h.rootComposition roots)
      h.pendingFinalizations.entries).reachable, h.table.Valid r → Marker.Live .young m' r := by
    intro r hr hval
    have hcl := Marker.closed_live
      (SpanTable.Covered.congr hskel.symm (fun r => (hpay r).symm) hcov) hweak herr
      (hroots herr)
    rw [youngGraph_congr hskel.symm fun r => (hpay r).symm] at hr
    exact EphemeronGraph.reachable_subset hcl hr ((SpanTable.valid_congr hskel).mpr hval)
  have hfreed : ∀ r, h.table.Valid r → ¬h'.table.Valid r → ¬Marker.Live .young m' r := by
    rintro r ⟨header, hheader⟩ hfreed hlive
    exact hfreed ⟨header, (hkept r hlive).trans hheader⟩
  constructor
  · intro r hr hyoung
    have hval : h.table.Valid r := by
      unfold SpanTable.referenceSpace at hyoung
      cases hverify : h.table.verifyReference r none with
      | error e =>
        rw [hverify] at hyoung
        cases hyoung
      | ok header => exact ⟨header, hverify⟩
    exact hkept r (hreach r hr hval)
  · intro r hval hgone
    refine ⟨?_, fun hr => hfreed r hval hgone (hreach r hr hval)⟩
    rcases Marker.young_or_ignored hval with hyoung | hold
    · exact hyoung
    · refine absurd (Or.inr ?_) (hfreed r hval hgone)
      exact (Marker.ignored_congr (hweak.skeleton.trans hskel)).mpr hold

/-- A large type and a small one. -/
def minorTypes : TypeRegistry :=
  { entries :=
      [{ rustTypeId := 0
         descriptor :=
           { typeId := ⟨1, Nat.one_pos⟩
             layout := { size := 65536, align := 8 }
             allocationPolicy := .oldOnly } },
       { rustTypeId := 1
         descriptor :=
           { typeId := ⟨2, Nat.two_pos⟩
             layout := { size := 16, align := 8 }
             allocationPolicy := .youngEligible } }] }

/-- An object of the second span, in slots of 32 bytes. -/
def youngReference (slot : Fin 2) : RawHeapRef :=
  { spanId := 1, spanOffset := ⟨16 + slot.val * 32, by omega, by omega⟩ }

/-- Two young objects of which a remembered large object holds the first. -/
def minorTable : SpanTable :=
  { SpanTable.new .granting with
    entries := [{ sampleEntry [.rawHeapRef (youngReference ⟨0, Nat.two_pos⟩)]
      with inRememberedSet := true },
       { SpanEntry.new (.small
           { storage :=
               { spanCount := 1
                 cells := fun _ => { header := .new ⟨2, Nat.two_pos⟩ 0 0, payload := [] } }
             metadata :=
               { SmallSpanMetadata.new ((SizeClass.new 32).get (by decide)) .eden 0 with
                 allocations := {⟨0, by decide⟩, ⟨1, by decide⟩}
                 bumpCursor := 2
                 allocatedSlots := 2
                 allocatedBytes := 64 } }) with
         inYoungSet := true }]
    liveSpans := 2
    rememberedHead := some 0
    youngHead := some 1
    activeYoungSpans := 1 }

def minorHeap : Heap :=
  { Heap.new 1000000 minorTypes ⟨.granting, .granting, .granting, .granting, .granting⟩ with
    table := minorTable
    committedSpanStorageBytes := 3 * spanSizeBytes }

theorem covered_minorTable : minorTable.Covered := by
  intro source tgt hold ht hyoung
  obtain ⟨kind, hk, hlive, hspace⟩ := SweepSteps.ignored_iff.mp hold
  obtain ⟨span, off⟩ := source
  match span with
  | 0 =>
    refine ⟨valid_iff.mpr ⟨kind, hk, hlive⟩, rfl, .here _⟩
  | 1 =>
    cases hk
    exact absurd rfl hspace
  | n + 2 => cases hk

theorem collectMinor_keeps_reachable_minorHeap :
    ∃ stats h', minorHeap.collectMinor true [] = some (.ok stats, h') ∧
      h'.table.verifyReference (youngReference 0) none =
        minorTable.verifyReference (youngReference 0) none ∧
      ¬h'.table.Valid (youngReference 1) ∧
      youngReference 1 ∉ (youngGraph minorTable [] []).reachable := by
  have hmarks : minorHeap.table.MarksWithin minorHeap.collectionEpoch := by
    simp [SpanTable.MarksWithin, minorHeap, minorTable, sampleEntry, SpanEntry.new,
      SpanKind.markEpoch, LargeSpanMetadata.new, SmallSpanMetadata.new, MarkBitmap.new]
  have hres : ((minorHeap.collectMinor true []).map fun run => run.1.isOk) = some true := rfl
  have hfreed : ((minorHeap.collectMinor true []).map fun run =>
      (run.2.table.verifyReference (youngReference 1) none).isOk) = some false := rfl
  rcases hrun : minorHeap.collectMinor true [] with _ | ⟨e | stats, h'⟩
  · rw [hrun] at hres
    cases hres
  · rw [hrun] at hres
    cases hres
  · rw [hrun] at hfreed
    obtain ⟨hkeeps, hgone⟩ := collectMinor_keeps_reachable hmarks covered_minorTable hrun
    have hreach : youngReference 0 ∈ (youngGraph minorTable [] []).reachable := by
      have hcl := (youngGraph minorTable [] []).closed_reachable
      have hroot : sampleReference 0 ∈ (youngGraph minorTable [] []).reachable :=
        hcl.root _ (Or.inr ⟨rfl, .oldLarge, rfl, by decide⟩)
      refine hcl.strong _ _ hroot ⟨⟨_, rfl⟩, .rawHeapRef (youngReference 0), ?_, ?_⟩
      · exact List.mem_singleton_self _
      · exact List.mem_singleton_self _
    have hinvalid : ¬h'.table.Valid (youngReference 1) := by
      rintro ⟨header, hheader⟩
      simp only [Option.map_some, hheader] at hfreed
      cases hfreed
    exact ⟨stats, h', rfl, hkeeps _ hreach rfl, hinvalid, (hgone _ ⟨_, rfl⟩ hinvalid).2⟩

end TachyonEngine.Gc
