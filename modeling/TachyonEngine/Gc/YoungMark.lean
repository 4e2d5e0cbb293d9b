import TachyonEngine.Gc.MarkExact
import TachyonEngine.Gc.Views

/-!
# Young marking reaches every live young object

A minor collection takes every old object for live and traces only those that the
remembered set has. The sources it traces are the objects on dirty cards and the
remembered large objects of the remembered spans (`RememberedSource`), whatever the
order of the chain. Together with the roots, they lead to every young object that is
reachable at all, provided that an old object with a young target is remembered.
-/

namespace TachyonEngine.Gc

open SpanTable

open Lib.Traversal Lib.Capacity Lib.EphemeronReach

/-- An object whose span is on the chain of remembered sources and that the
remembered set has. -/
structure RememberedSource (t : SpanTable) (ref : RawHeapRef) : Prop where
  valid : t.Valid ref
  remembers : t.remembers ref = true
  chained : OnChain t.rememberedNext t.rememberedHead ref.spanId

namespace Marker

variable {m m' m'' : Marker} {t : SpanTable} {ref : RawHeapRef}

/-! ## Tracing remembered sources -/

/-- Some sources were traced strongly. -/
structure ScansMany (t : SpanTable) (m m' : Marker) : Prop where
  inv : DrainInv .young t Set.univ ∅ [] m'
  phase : m'.phase = .strong
  grows : Grows m m'
  owners : ∀ owner ∈ m.weakOwners.entries, owner ∈ m'.weakOwners.entries

theorem ScansMany.refl (h : DrainInv .young t Set.univ ∅ [] m) (hph : m.phase = .strong) :
    ScansMany t m m :=
  ⟨h, hph, .refl m, fun _ ho => ho⟩

theorem ScansMany.trans (h : ScansMany t m m') (h' : ScansMany t m' m'') : ScansMany t m m'' :=
  ⟨h'.inv, h'.phase, h.grows.trans h'.grows, fun o ho => h'.owners o (h.owners o ho)⟩

theorem ScansMany.scanned (h : ScansMany t m m') (hs : Scanned .young t m ref) :
    Scanned .young t m' ref :=
  hs.mono h.grows h.owners

theorem closedUnder_univ (fields : List TraceField) : ClosedUnder fields Set.univ :=
  ⟨fun _ _ _ _ => Set.mem_univ _, fun _ _ _ _ _ _ => Set.mem_univ _⟩

theorem DrainInv.hold {g : Generation} {C S : Set RawHeapRef} (h : DrainInv g t C S [] m)
    (ref : RawHeapRef) : DrainInv g t C S [ref] m :=
  { h with scanned := fun herr r hr => (h.scanned herr r hr).imp_right fun hs =>
      hs.elim (fun hh => absurd hh List.not_mem_nil) Or.inr }

section

variable (types : TypeRegistry)

include types

/-- One remembered source. -/
theorem scansMany_traceSource (h : DrainInv .young t Set.univ ∅ [] m) (hph : m.phase = .strong)
    (ref : RawHeapRef) : ScansMany t m (traceSource .young types m ref) ∧
      ((traceSource .young types m ref).error = none →
        Scanned .young t (traceSource .young types m ref) ref) := by
  have hscans : Scans .young ref m (traceSource .young types m ref) := scans_traceSource hph
  obtain ⟨hinv, hself⟩ := (h.hold ref).scan (fun _ _ => closedUnder_univ _)
    (fun _ _ => Set.mem_univ _) (Set.mem_univ _) hscans
  refine ⟨⟨hinv, hscans.grows.phase.trans hph, hscans.grows, ?_⟩, hself⟩
  intro owner ho
  rcases hscans.owners with heq | heq <;> rw [heq]
  · exact ho
  · exact List.mem_append_left _ ho

omit types in
/-- Counters of the young marker. -/
theorem scansMany_of_stats (h : DrainInv .young t Set.univ ∅ [] m) (hph : m.phase = .strong)
    (youngStats : YoungMarkStats) : ScansMany t m { m with youngStats := youngStats } :=
  ⟨h.congr rfl rfl rfl rfl rfl rfl, hph,
    .of_eq rfl rfl rfl rfl (fun h => h) (fun h => h) rfl rfl, fun _ ho => ho⟩

/-- The body of the scan of a dirty span. -/
theorem scansMany_oldObject (h : DrainInv .young t Set.univ ∅ [] m) (hph : m.phase = .strong)
    (ref : RawHeapRef) : ScansMany t m (traceSource .young types m.countOldObject ref) ∧
      ((traceSource .young types m.countOldObject ref).error = none →
        Scanned .young t (traceSource .young types m.countOldObject ref) ref) := by
  have hc : ScansMany t m m.countOldObject := scansMany_of_stats h hph _
  obtain ⟨hscan, hself⟩ := scansMany_traceSource types hc.inv hc.phase ref
  exact ⟨hc.trans hscan, hself⟩

/-- The objects on dirty cards of a span. Tracing them changes no card and no
allocation, so the cursor meets the dirty slots of `t`. -/
theorem scanDirtySmallSpan_eq (h : DrainInv .young t Set.univ ∅ [] m) (hph : m.phase = .strong)
    (span : SpanId) :
    ∃ l : List RawHeapRef, (∀ slot ∈ t.dirtyOldSlots span, t.slotReference span slot ∈ l) ∧
      scanDirtySmallSpan types m span = foldUntil (fun m => m.error.isSome)
        (fun m ref => traceSource .young types m.countOldObject ref) l m := by
  have hscan : ∃ l : List SlotIndex, l.Pairwise (· < ·) ∧
      (∀ slot, slot ∈ l ↔ slot ∈ t.dirtyOldSlots span ∧ 0 ≤ slot.val) ∧
      scanDirtySmallSpan types m span = foldUntil (fun m => m.error.isSome)
        (fun m ref => traceSource .young types m.countOldObject ref)
        (l.map (t.slotReference span)) m := by
    refine scan_eq_foldUntil (fun s => ScansMany t m s) (fun _ => t.dirtyOldSlots span)
      (t.slotReference span) ?_ ?_ ?_ (by omega) (.refl h hph)
    · intro s start hs
      rw [nextDirtyOldReference_eq, ← dirtyOldSlots_skeleton, ← slotReference_skeleton,
        hs.inv.skeleton, dirtyOldSlots_skeleton, slotReference_skeleton]
    · intro s slot hs hsl
      have hbody := (scansMany_oldObject types hs.inv hs.phase (t.slotReference span slot)).1
      rw [nextSlot_congr hbody.inv.skeleton]
      exact nextSlot_slotReference (t.dirtyOldSlots_subset span hsl)
    · intro s slot hs _
      exact ⟨hs.trans (scansMany_oldObject types hs.inv hs.phase _).1, fun _ _ => Iff.rfl⟩
  obtain ⟨l, -, hm, heq⟩ := hscan
  exact ⟨_, fun slot hsl => List.mem_map_of_mem ((hm slot).mpr ⟨hsl, Nat.zero_le _⟩), heq⟩

theorem scanDirtySmallSpan_facts (h : DrainInv .young t Set.univ ∅ [] m)
    (hph : m.phase = .strong) (span : SpanId) : ScansMany t m (scanDirtySmallSpan types m span) ∧
      ((scanDirtySmallSpan types m span).error = none → ∀ slot ∈ t.dirtyOldSlots span,
        Scanned .young t (scanDirtySmallSpan types m span) (t.slotReference span slot)) := by
  obtain ⟨l, hm, heq⟩ := scanDirtySmallSpan_eq types h hph span
  rw [heq]
  constructor
  · apply foldUntil_induction (fun s => ScansMany t m s) (.refl h hph)
    intro s ref _ _ hs
    exact hs.trans (scansMany_oldObject types hs.inv hs.phase ref).1
  · intro herr slot hsl
    apply foldUntil_forall (fun s => ScansMany t m s) (fun ref s => Scanned .young t s ref)
    · simp [herr]
    · exact .refl h hph
    · intro s ref _ _ _ hs
      exact hs.trans (scansMany_oldObject types hs.inv hs.phase ref).1
    · intro s ref _ _ hend hs
      exact (scansMany_oldObject types hs.inv hs.phase ref).2 (by simpa using hend)
    · intro s ref other _ _ _ hs hscanned
      exact (scansMany_oldObject types hs.inv hs.phase other).1.scanned hscanned
    · exact hm slot hsl

/-- One span of the chain. -/
theorem scanRememberedSpan_facts (h : DrainInv .young t Set.univ ∅ [] m)
    (hph : m.phase = .strong) (span : SpanId) : ScansMany t m (scanRememberedSpan types m span) ∧
      ((scanRememberedSpan types m span).error = none →
        ∀ ref, ref.spanId = span → t.Valid ref → t.remembers ref = true →
          Scanned .young t (scanRememberedSpan types m span) ref) := by
  unfold scanRememberedSpan
  rw [← dirtyOldCardCount_skeleton, h.skeleton, dirtyOldCardCount_skeleton,
    rememberedLargeReference_congr h.skeleton]
  by_cases hdirty : t.dirtyOldCardCount span ≠ 0
  · rw [if_pos hdirty]
    have hc : ScansMany t m (m.countDirtyCards (t.dirtyOldCardCount span)) :=
      scansMany_of_stats h hph _
    obtain ⟨hscan, hslots⟩ := scanDirtySmallSpan_facts types hc.inv hc.phase span
    refine ⟨hc.trans hscan, ?_⟩
    rintro herr ref rfl hval hremembers
    obtain ⟨kind, hk, hlive⟩ := valid_iff.mp hval
    cases kind with
    | small s =>
      obtain ⟨slot, hsl, heq⟩ := exists_dirtySlot hk hlive.1 hremembers
      rw [← heq]
      exact hslots herr slot hsl
    | largeOwner s =>
      exact absurd (rememberedLargeReference_of_kind hk hlive.1 hremembers).1 hdirty
    | largeContinuation owner ordinal => exact hlive.1.elim
  · rw [if_neg hdirty]
    cases hlarge : t.rememberedLargeReference span with
    | none =>
      refine ⟨.refl h hph, ?_⟩
      rintro herr ref rfl hval hremembers
      exfalso
      obtain ⟨kind, hk, hlive⟩ := valid_iff.mp hval
      cases kind with
      | small s => exact hdirty (dirtyOldCardCount_ne_zero hk hremembers)
      | largeOwner s =>
        have := (rememberedLargeReference_of_kind hk hlive.1 hremembers).2
        rw [hlarge] at this
        cases this
      | largeContinuation owner ordinal => exact hlive.1.elim
    | some owner =>
      have hc : ScansMany t m m.countLargeOwner := scansMany_of_stats h hph _
      obtain ⟨hscan, hself⟩ := scansMany_traceSource types hc.inv hc.phase owner
      refine ⟨hc.trans hscan, ?_⟩
      rintro herr ref rfl hval hremembers
      obtain ⟨kind, hk, hlive⟩ := valid_iff.mp hval
      cases kind with
      | small s => exact absurd (dirtyOldCardCount_ne_zero hk hremembers) hdirty
      | largeOwner s =>
        have := (rememberedLargeReference_of_kind hk hlive.1 hremembers).2
        rw [hlarge, Option.some.injEq] at this
        rw [← this]
        exact hself herr
      | largeContinuation owner ordinal => exact hlive.1.elim

/-- The whole chain: every remembered source is scanned. -/
theorem scanRemembered_facts (h : DrainInv .young t Set.univ ∅ [] m) (hph : m.phase = .strong)
    (hscan : scanRemembered types m = some m') : ScansMany t m m' ∧
      (m'.error = none → ∀ ref, RememberedSource t ref → Scanned .young t m' ref) := by
  have hstep : ∀ s span, ScansMany t m s → ScansMany t m (scanRememberedSpan types s span) :=
    fun s span hs => hs.trans (scanRememberedSpan_facts types hs.inv hs.phase span).1
  refine ⟨walk_induction (fun s => ScansMany t m s) hscan (.refl h hph)
    fun s span hs _ => hstep s span hs, ?_⟩
  intro herr ref hsource
  -- No link changes while the sources are traced, so the walk is the fold over the chain.
  have hn : ∀ {s}, ScansMany t m s → s.table.rememberedNext = t.rememberedNext :=
    fun hs => funext (rememberedNext_congr hs.inv.skeleton)
  obtain ⟨l, hchain, rfl⟩ := chain_of_walk (fun s => ScansMany t m s)
    (fun s span hs => ⟨hstep s span hs, (hn (hstep s span hs)).trans (hn hs).symm⟩)
    (.refl h hph) hscan (by simp [herr])
  have hm : ref.spanId ∈ l := by
    apply hsource.chained.mem
    rw [← rememberedHead_congr h.skeleton, ← hn (.refl h hph)]
    exact hchain
  -- The span of the source is visited, and the later spans keep what it has scanned.
  have hspans : ∀ span ∈ l, ∀ ref, ref.spanId = span → t.Valid ref →
      t.remembers ref = true → Scanned .young t (foldUntil (fun m : Marker => m.error.isSome)
        (scanRememberedSpan types) l m) ref := by
    apply foldUntil_forall (fun s => ScansMany t m s) (fun span s => ∀ ref : RawHeapRef,
      ref.spanId = span → t.Valid ref → t.remembers ref = true → Scanned .young t s ref)
    · simp [herr]
    · exact .refl h hph
    · intro s span _ _ _ hs
      exact hstep s span hs
    · intro s span _ _ hend hs
      exact (scanRememberedSpan_facts types hs.inv hs.phase span).2 (by simpa using hend)
    · intro s span other _ _ _ hs hscanned r hspan hval hremembers
      exact (scanRememberedSpan_facts types hs.inv hs.phase other).1.scanned
        (hscanned r hspan hval hremembers)
  exact hspans _ hm ref rfl hsource.valid hsource.remembers

end

end Marker

open Marker

/-- How young marking ends, once the weak references are closed: an error stops it,
or the remembered sources and the promotion cards are rebuilt. -/
def YoungOutcome (types : TypeRegistry) (m : Marker)
    (result : Except MarkError (MarkStats × YoungMarkStats) × Marker) : Prop :=
  (∃ e, m.error = some e ∧ result = (.error e, m.abandon)) ∨
    (m.error = none ∧ ∃ m₁ m₂, m.rebuildRemembered types = some m₁ ∧
      m₁.preparePromotions types = some m₂ ∧ result = (.ok (m₂.stats, m₂.youngStats), m₂))

/-- What young marking does with its table, whatever its outcome. -/
theorem markYoungRoots_facts {t : SpanTable} {types : TypeRegistry} {gray : GrayQueue}
    {weakOwners : WeakOwners} {pending : PendingFinalizations} {epoch : CollectionEpoch}
    {roots : List TraceField} {res : Except MarkError (MarkStats × YoungMarkStats) × Marker}
    (hfr : t.marked epoch = ∅)
    (h : markYoungRoots t types gray weakOwners pending epoch roots = some res) :
    ∃ cleared log, ∃ m m' : Marker, m.epoch = epoch ∧ m.pendingFinalizations = pending ∧
      WeakClosed .young t Set.univ {r | RememberedSource t r} cleared log m m' ∧
      (m'.error = none → ∀ r ∈ (heapGraph t roots pending.entries).root, Live .young m' r) ∧
      (m'.error = none → m'.phase = .strong) ∧
      (t.MarksWithin epoch → m'.table.MarksWithin epoch) ∧ YoungOutcome types m' res := by
  have hcl : ∀ r ∈ (Set.univ : Set RawHeapRef), ClosedUnder (t.payload r) Set.univ :=
    fun r _ => closedUnder_univ _
  have hign : ∀ r, Ignored .young t r → r ∈ (Set.univ : Set RawHeapRef) :=
    fun r _ => Set.mem_univ r
  have hst : DrainInv .young t Set.univ ∅ [] (Marker.start t gray weakOwners pending epoch) :=
    drainInv_start hfr
  have hroots := traceRoots_facts roots hst rfl hign fun _ _ r _ => Set.mem_univ r
  have hrecs := foldl_record_facts
    ((Marker.start t gray weakOwners pending epoch).traceRoots .young
      roots).pendingFinalizations.entries
    hroots.inv fun _ _ r _ => Set.mem_univ r
  have hph := (hroots.grows.trans hrecs.grows).phase
  unfold markYoungRoots at h
  -- the kernel need not run the closure to take the branches apart
  obtain ⟨close, hclose⟩ : ∃ close, closeWeak = close := ⟨_, rfl⟩
  rw [hclose] at h
  simp only at h
  cases hscan : scanRemembered types
      (((Marker.start t gray weakOwners pending epoch).traceRoots .young roots)
        |>.markPendingFinalizationRoots .young) with
  | none =>
    rw [hscan] at h
    cases h
  | some scanned =>
    rw [hscan] at h
    simp only at h
    subst hclose
    obtain ⟨hmany, hsources⟩ := scanRemembered_facts types hrecs.inv hph hscan
    -- From here on the remembered sources belong to the invariant.
    have hinv : DrainInv .young t Set.univ {r | RememberedSource t r} [] scanned :=
      { hmany.inv with sources := fun herr r hr => hsources herr r hr }
    obtain ⟨hdrained, hph', hadv, hempty, -⟩ := drain_facts hcl hign types hinv hmany.phase
    obtain ⟨cleared, log, hweak⟩ := closeWeak_facts types hcl hign hdrained hph' hempty
    have hadv₀ := ((hroots.grows.trans hrecs.grows).trans hmany.grows).advances.trans hadv
    have hmarks : t.MarksWithin epoch → _ := fun hm => hweak.marksWithin (hadv₀.marksWithin hm)
    rw [hweak.epoch, hadv₀.epoch] at hmarks
    refine ⟨cleared, log, _, _, hadv₀.epoch, hadv₀.pending, hweak, ?_, phase_closeWeak types,
      hmarks, ?_⟩
    · intro herr r hr
      have hqueued := hmany.grows.error (hadv.error (hweak.error herr))
      apply fun hr => hweak.live_mono (hadv.live_mono (hmany.grows.live_mono hr)) hdrained.skeleton
      rcases hr with hr | ⟨rec, hmm, href⟩
      · exact hrecs.grows.live_mono (hroots.live (hrecs.grows.error hqueued) r hr)
      · refine hrecs.live hqueued r ⟨rec, ?_, href⟩
        rw [hroots.grows.pending]
        exact hmm
    · cases herr : (closeWeak .young types (drain .young types scanned)).error with
      | some e =>
        rw [herr] at h
        cases h
        exact Or.inl ⟨e, herr, rfl⟩
      | none =>
        rw [herr] at h
        cases hrebuild : rebuildRemembered types
            (closeWeak .young types (drain .young types scanned)) with
        | none =>
          rw [hrebuild] at h
          cases h
        | some rebuilt =>
          rw [hrebuild, Option.map_eq_some_iff] at h
          obtain ⟨prepared, hprep, rfl⟩ := h
          exact Or.inr ⟨herr, rebuilt, prepared, hrebuild, hprep, rfl⟩

end TachyonEngine.Gc
