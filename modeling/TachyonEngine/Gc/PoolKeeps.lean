import TachyonEngine.Gc.EdenPool

/-!
# Operations that keep the Eden pool

`Heap.Pooled` is what a heap with a sound pool is: besides the pool, the table is sound, the
chain of young spans ends, and active spans are small spans in use that are not pooled.
Allocations, stores, barriers, reclaims and trims keep it. So does a major collection, which
empties the pool before it sweeps; minor collections are the subject of the next module.
-/

namespace TachyonEngine.Gc

open Lib.Traversal Lib.Capacity SpanTable List

namespace SpanTable

variable {t t' : SpanTable} {span i : SpanId}

/-- The entry can be an active span of the generation. -/
def ActiveIn (t : SpanTable) (space : AllocationSpace) (span : SpanId) : Prop :=
  ∃ s, t.kind span = some (.small s) ∧ (space = .old → s.metadata.space = .old) ∧
    t.pooled span = false

variable {space : AllocationSpace}

theorem ActiveIn.of_eq (h : t.ActiveIn space i) (hk : t'.kind i = t.kind i) (hpool : t'.pooled i =
    t.pooled i) : t'.ActiveIn space i := by
  obtain ⟨s, hs, hold, hflag⟩ := h
  exact ⟨s, hk.trans hs, hold, hpool.trans hflag⟩

theorem lt_of_kind {kind : SpanKind} (h : t.kind span = some kind) : span < t.entries.length := by
  obtain ⟨ent, he, -⟩ := Option.bind_eq_some_iff.mp h
  exact (List.getElem?_eq_some_iff.mp he).1

/-! ## Relabelling -/

theorem pooled_of_bare (h : t'.bare = t.bare) (i : SpanId) : t'.pooled i = t.pooled i := by
  have he : (t'.entries[i]?).map SpanEntry.bare = (t.entries[i]?).map SpanEntry.bare := by
    rw [← getElem?_bare, h, getElem?_bare]
  simp only [pooled]
  cases h' : t'.entries[i]? <;> cases h'' : t.entries[i]? <;> simp_all [SpanEntry.bare]

/-- The metadata of a relabelled span, but for marks and cards. -/
theorem small_bare {s s' : SmallSpan} (h : (SpanKind.small s').bare = (SpanKind.small s).bare) :
    s'.metadata.sizeClass = s.metadata.sizeClass ∧ s'.metadata.space = s.metadata.space ∧
      s'.metadata.allocatedSlots = s.metadata.allocatedSlots := by
  simp only [SpanKind.bare, SpanKind.small.injEq, SmallSpan.mk.injEq, SmallSpanMetadata.mk.injEq]
    at h
  exact ⟨h.2.1, h.2.2.1, h.2.2.2.2.2.2.2.2.2.1⟩

theorem ActiveIn.of_bare (h : t.ActiveIn space i) (hbare : t'.bare = t.bare) :
    t'.ActiveIn space i := by
  obtain ⟨s, hs, hold, hflag⟩ := h
  obtain ⟨s', hs', heq⟩ := small_of_bare hbare.symm hs
  refine ⟨s', hs', fun hspace => ?_, (pooled_of_bare hbare i).trans hflag⟩
  rw [← (small_bare heq).2.1]
  exact hold hspace

/-! ## Releasing -/

theorem SameSpans.of_reserved {reserved : SpanTable}
    (hrsv : t.reserveFreeRangeIfNeeded span = (.ok (), reserved)) : SameSpans t reserved := by
  obtain ⟨cap, alloc, heq, -⟩ := t.reserveFreeRangeIfNeeded_cases span
  rw [hrsv] at heq
  obtain rfl : reserved = _ := heq
  exact .of_entries rfl

/-- A release empties its entry and takes the pool flag away, or changes no entry. -/
theorem release_cases (t : SpanTable) (span : SpanId) :
    (∃ e, (t.release span).1 = .error e ∧ SameSpans t (t.release span).2) ∨
      ((t.release span).1 = .ok () ∧ (t.release span).2.pooled span = false ∧
        ∀ i, i ≠ span → (t.release span).2.kind i = t.kind i ∧
          (t.release span).2.pooled i = t.pooled i) := by
  rcases t.release_outcome span with ⟨e, cap, alloc, -, heq⟩ | ⟨s, reserved, -, -, hrsv, heq⟩
  · rw [heq]
    exact Or.inl ⟨e, rfl, .of_entries rfl⟩
  · rw [heq]
    have hs := SameSpans.of_reserved hrsv
    refine Or.inr ⟨rfl, ?_, ?_⟩
    · refine Eq.trans (pooled_modifyEntry _ span span _) ?_
      rw [if_pos rfl]
      generalize (vacate _ span).entries[span]? = ent
      cases ent <;> rfl
    · intro i hi
      refine ⟨Eq.trans (kind_modifyEntry _ span i _) ?_,
        Eq.trans (pooled_modifyEntry _ span i _) ?_⟩
      · rw [if_neg (Ne.symm hi), kind_vacate, if_neg (Ne.symm hi)]
        exact (hs i).1
      · rw [if_neg (Ne.symm hi)]
        refine Eq.trans (pooled_modifyEntry _ span i _) ?_
        rw [if_neg (Ne.symm hi)]
        exact (hs i).2

theorem pooled_releaseUnpublishedLarge (t : SpanTable) (ref : RawHeapRef) (i : SpanId) :
    (t.releaseUnpublishedLarge ref).2.pooled i = t.pooled i := by
  have hvacate : ∀ (t : SpanTable) (span : SpanId), (t.vacate span).pooled i = t.pooled i := by
    intro t span
    refine Eq.trans (pooled_modifyEntry t span i _) ?_
    split
    · rfl
    · rfl
  have hrange : ∀ (ordinals : List Nat) (t : SpanTable),
      (ordinals.foldl (fun (t : SpanTable) ordinal => t.vacate (ref.spanId + ordinal))
        t).pooled i = t.pooled i := by
    intro ordinals
    induction ordinals with
    | nil => exact fun t => rfl
    | cons ordinal ordinals ih => exact fun t => (ih _).trans (hvacate t _)
  rcases t.releaseUnpublishedLarge_outcome ref with
    ⟨e, cap, alloc, -, heq⟩ | ⟨s, reclaim, reserved, -, hrsv, heq⟩
  · rw [heq]
    rfl
  · rw [heq]
    exact Eq.trans (hrange _ reserved) (SameSpans.of_reserved hrsv i).2

theorem SameSpans.prepareRelease (t : SpanTable) (span : SpanId) :
    SameSpans t (t.prepareRelease span).2 := by
  obtain ⟨cap, alloc, hrsv, -⟩ := t.reserveFreeRangeIfNeeded_cases span
  simp only [SpanTable.prepareRelease]
  rw [hrsv]
  exact .of_entries rfl

theorem SameSpans.compactYoungSpans (h : t.compactYoungSpans = some t') : SameSpans t t' := by
  apply walk_induction (fun s : SpanTable => SameSpans t s) h
  · exact .of_entries rfl
  · exact fun s span hs _ => hs.trans (.relinkYoungSpan s span)

theorem YoungLinked.sweepSteps {g : Generation} {epoch : CollectionEpoch} (h : t.YoungLinked)
    (hsteps : SweepSteps g epoch t t') : t'.YoungLinked := by
  induction hsteps with
  | refl => exact h
  | tail _ hstep ih => exact ih.sweepStep hstep

end SpanTable

variable {t t' : SpanTable}

theorem EdenPool.Sound.of_bare {p : EdenPool} (h : p.Sound t) (hbare : t'.bare = t.bare) :
    p.Sound t' := by
  refine h.congr (fun _ _ => rfl) ?_ ?_
  · intro i
    rw [pooled_of_bare hbare]
  · rintro c i - ⟨s, hs, hclass, hspace, hslots⟩
    obtain ⟨s', hs', heq⟩ := small_of_bare hbare.symm hs
    obtain ⟨hclass', hspace', hslots'⟩ := small_bare heq
    exact ⟨s', hs', hclass' ▸ hclass, hspace' ▸ hspace, hslots' ▸ hslots⟩

namespace Heap

variable {h h' : Heap} {span : SpanId}

/-- What holds of a heap between two operations, the pool included. -/
structure Pooled (h : Heap) : Prop where
  sound : h.Sound
  young : h.table.YoungLinked
  pool : h.edenPool.Sound h.table
  active : ∀ space classIndex span, h.active space classIndex = some span →
    h.table.ActiveIn space span

theorem Pooled.new (maxHeapBytes : Nat) (types : TypeRegistry) (allocators : Allocators) :
    (Heap.new maxHeapBytes types allocators).Pooled where
  sound := .new maxHeapBytes types allocators
  young := .new allocators.table
  pool := .new allocators.table
  active := by
    intro space classIndex span hact
    cases space with
    | young | old =>
      simp only [Heap.active, Heap.new, getElem?_replicate] at hact
      split at hact
      · cases hact
      · cases hact

/-! ## Active spans -/

variable {space : AllocationSpace} {classIndex : Nat}

theorem active_setActive {val : Option SpanId} {space' : AllocationSpace} {c : Nat}
    (hact : (h.setActive space classIndex val).active space' c = some span) :
    (space' = space ∧ val = some span) ∨ h.active space' c = some span := by
  cases space with
  | young =>
    cases space' with
    | young =>
      simp only [setActive, active, getElem?_set] at hact
      split at hact
      · split at hact
        · exact Or.inl ⟨rfl, hact⟩
        · cases hact
      · exact Or.inr hact
    | old => exact Or.inr hact
  | old =>
    cases space' with
    | young => exact Or.inr hact
    | old =>
      simp only [setActive, active, getElem?_set] at hact
      split at hact
      · split at hact
        · exact Or.inl ⟨rfl, hact⟩
        · cases hact
      · exact Or.inr hact

theorem setActive_pool (h : Heap) (space : AllocationSpace) (classIndex : Nat)
    (val : Option SpanId) : (h.setActive space classIndex val).edenPool = h.edenPool := by
  cases space with
  | young | old => rfl

theorem Pooled.setActive (hp : h.Pooled) (space : AllocationSpace) (classIndex : Nat)
    (val : Option SpanId) (hv : ∀ span, val = some span → h.table.ActiveIn space span) :
    (h.setActive space classIndex val).Pooled := by
  obtain ⟨ht, -⟩ := table_setActive h space classIndex val
  refine ⟨hp.sound.setActive space classIndex val, ht ▸ hp.young, ?_, ?_⟩
  · rw [setActive_pool, ht]
    exact hp.pool
  · intro space' c i hact
    rw [ht]
    rcases active_setActive hact with ⟨rfl, heq⟩ | hact
    · exact hv i heq
    · exact hp.active space' c i hact

/-! ## Allocation -/

variable {req : AllocationRequest} {res : Except HeapAllocationError RawHeapRef}

section

variable (hp : h.Pooled)

include hp

theorem Pooled.allocateInSpan (hspan : h.table.pooled span = false)
    (hal : h.allocateInSpan span req = some (res, h')) : h'.Pooled := by
  have hsound := hp.sound.allocateInSpan hal
  -- Only the table changes, and only inside one span that is not pooled.
  have ht : ∃ tbl, h' = { h with table := tbl } ∧ SpanTable.Allocates h.table span tbl := by
    simp only [Heap.allocateInSpan] at hal
    split at hal
    · cases hal
    next hrun =>
      cases hal
      exact ⟨_, rfl, allocates_tryAllocateInSpan hrun⟩
    next hrun =>
      cases hal
      exact ⟨_, rfl, allocates_tryAllocateInSpan hrun⟩
  obtain ⟨tbl, rfl, hallocates⟩ := ht
  refine ⟨hsound, hp.young.of_young hallocates.young, ?_, ?_⟩
  · refine hp.pool.frame hspan ((hallocates.flags span).trans hspan) ?_
    exact fun i hi => ⟨hallocates.others i hi, hallocates.flags i⟩
  · intro space c i hact
    have hold := hp.active space c i hact
    by_cases hi : i = span
    · subst hi
      rcases hallocates.kind with heq | ⟨s, s', hk, hk', hkeeps⟩
      · exact hold.of_eq heq (hallocates.flags i)
      · obtain ⟨s₁, hs₁, hspace, hflag⟩ := hold
        rw [hk] at hs₁
        cases hs₁
        exact ⟨s', hk', fun heq => hkeeps.space.trans (hspace heq),
          (hallocates.flags i).trans hflag⟩
    · exact hold.of_eq (hallocates.others i hi) (hallocates.flags i)

theorem Pooled.reusePooled {pool : EdenPool}
    (htake : h.edenPool.takeForReuse classIndex = some (span, pool)) :
    (h.reusePooled classIndex span pool).Pooled ∧
      (h.reusePooled classIndex span pool).table.pooled span = false := by
  obtain ⟨place, hheld, hsets⟩ := EdenPool.takeForReuse_eq_some htake
  obtain ⟨⟨s, hk, -, -, -⟩, -⟩ := hp.pool.held classIndex place span hheld
  have hlt := lt_of_kind hk
  have hlk : ∀ t : SpanTable, SpanTable.SameSpans t (t.linkYoungSpan span) :=
    fun t => .linkYoungSpan t span
  have hflags : ∀ i, (h.table.activatePooledEden span).pooled i =
      if span = i then false else h.table.pooled i := by
    intro i
    refine Eq.trans (hlk _ i).2 ?_
    refine Eq.trans (pooled_modifyEntry h.table span i _) ?_
    split
    · cases h.table.entries[i]? <;> rfl
    · rfl
  have hkinds := kind_activatePooledEden h.table span
  have hspan : (h.table.activatePooledEden span).pooled span = false := by
    rw [hflags, if_pos rfl]
  have hos : ∀ i, i ≠ span → (h.table.activatePooledEden span).kind i = h.table.kind i ∧
      (h.table.activatePooledEden span).pooled i = h.table.pooled i := by
    intro i hi
    refine ⟨hkinds i, ?_⟩
    rw [hflags, if_neg (Ne.symm hi)]
  refine ⟨⟨hp.sound.reusePooled classIndex span pool, hp.young.activatePooledEden hlt,
    hp.pool.vacate hheld hsets hspan hos, ?_⟩, hspan⟩
  intro space c i hact
  have hcases : (space = .young ∧ i = span) ∨ h.active space c = some i := by
    rcases @active_setActive h i .young classIndex (some span) space c
      (by cases space <;> exact hact) with ⟨hspace, heq⟩ | hact
    · exact Or.inl ⟨hspace, (Option.some.inj heq).symm⟩
    · exact Or.inr hact
  rcases hcases with ⟨rfl, rfl⟩ | hact
  · exact ⟨s, (hkinds i).trans hk, fun heq => (by cases heq), hspan⟩
  · have hold := hp.active space c i hact
    by_cases hi : i = span
    · subst hi
      obtain ⟨s', hs', hspace, -⟩ := hold
      exact ⟨s', (hkinds i).trans hs', hspace, hspan⟩
    · exact hold.of_eq (hos i hi).1 (hos i hi).2

/-- A new span is not pooled, and no pooled or active span is where it goes. -/
theorem Pooled.installs {sizeClass : SizeClass} {space : SpanSpace} {tbl : SpanTable}
    (hinstalls : SpanTable.Installs h.table span sizeClass space tbl) :
    h.edenPool.Sound tbl ∧ ∀ space c i, h.active space c = some i → tbl.ActiveIn space i := by
  have hfree : h.table.pooled span = false := by
    cases hflag : h.table.pooled span with
    | false => rfl
    | true =>
      obtain ⟨s, hk⟩ := hp.pool.kind_of_pooled hflag
      rw [hinstalls.vacant] at hk
      cases hk
  refine ⟨hp.pool.frame hfree hinstalls.flag hinstalls.others, ?_⟩
  intro space c i hact
  have hold := hp.active space c i hact
  have hi : i ≠ span := by
    rintro rfl
    obtain ⟨s, hk, -⟩ := hold
    rw [hinstalls.vacant] at hk
    cases hk
  exact hold.of_eq (hinstalls.others i hi).1 (hinstalls.others i hi).2

theorem Pooled.allocateSlow
    (hal : h.allocateSlow classIndex space req = some (res, h')) : h'.Pooled := by
  simp only [Heap.allocateSlow] at hal
  have hreuse : ∀ span pool, (if space = .young then h.edenPool.takeForReuse classIndex else none) =
      some (span, pool) → h.edenPool.takeForReuse classIndex = some (span, pool) := by
    intro span pool heq
    split at heq
    · exact heq
    · cases heq
  generalize (if space = .young then h.edenPool.takeForReuse classIndex else none) = reuse
    at hal hreuse
  obtain ⟨capacity, hcapacity⟩ : ∃ capacity, h.ensureCommitCapacity spanSizeBytes = capacity :=
    ⟨_, rfl⟩
  rw [hcapacity] at hal
  obtain _ | ⟨span, pool⟩ := reuse
  · simp only at hal
    split at hal
    · cases hal
      exact hp
    · split at hal
      · cases hal
      next sizeClass _ =>
        have ht := hp.sound.table.allocateSpan sizeClass (AllocationSpace.spanSpace space)
        have hmarks := hp.sound.marks.allocateSpan hp.sound.table.tracked sizeClass
          (AllocationSpace.spanSpace space)
        have hyoung := hp.young.tryAllocateSmall hp.sound.table.tracked sizeClass
          (AllocationSpace.spanSpace space)
        have hcases := hp.sound.table.tracked.tryAllocateSmall_installs sizeClass
          (AllocationSpace.spanSpace space)
        generalize h.table.tryAllocateSmall sizeClass (AllocationSpace.spanSpace space) = fresh
          at hal ht hmarks hyoung hcases
        obtain ⟨e | span, tbl⟩ := fresh
        · cases hal
          rcases hcases with ⟨e', -, hs⟩ | ⟨span, heq, -⟩
          · refine ⟨⟨ht, hmarks⟩, hyoung, hp.pool.same hs, ?_⟩
            intro space c i hact
            exact (hp.active space c i hact).of_eq (hs i).1 (hs i).2
          · cases heq
        · rcases hcases with ⟨e', heq, -⟩ | ⟨span', heq, hinstalls⟩
          · cases heq
          · cases heq
            obtain ⟨hpool, hact⟩ := hp.installs hinstalls
            obtain ⟨storage, generation, hk⟩ := hinstalls.kind
            have hinstalled : ({ h with
                table := tbl
                committedSpanStorageBytes := h.committedSpanStorageBytes + spanSizeBytes } :
                  Heap).Pooled := ⟨⟨ht, hmarks⟩, hyoung, hpool, hact⟩
            refine Pooled.allocateInSpan (hinstalled.setActive space classIndex (some span) ?_) ?_
              hal
            · rintro i ⟨⟩
              refine ⟨_, hk, fun hspace => ?_, hinstalls.flag⟩
              rw [hspace]
              rfl
            · rw [(table_setActive _ space classIndex (some span)).1]
              exact hinstalls.flag
  · obtain ⟨hreused, hflag⟩ := hp.reusePooled (hreuse span pool rfl)
    exact hreused.allocateInSpan hflag hal

theorem Pooled.tryAllocateClass
    (hal : h.tryAllocateClass classIndex space req = some (res, h')) : h'.Pooled := by
  simp only [Heap.tryAllocateClass] at hal
  split at hal
  · exact hp.allocateSlow hal
  next span hact =>
    split at hal
    · obtain ⟨s, -, -, hflag⟩ := hp.active space classIndex span hact
      exact hp.allocateInSpan hflag hal
    · refine (hp.setActive space classIndex none ?_).allocateSlow hal
      intro span heq
      cases heq

theorem Pooled.allocateLarge (hal : h.allocateLarge req = some (res, h')) : h'.Pooled := by
  have hsound := hp.sound.allocateLarge hal
  have ht : h' = h ∨ ∃ tbl committed, h' = { h with
        table := tbl
        committedSpanStorageBytes := committed } ∧ SpanTable.InstallsLarge h.table tbl ∧
      tbl.young = h.table.young := by
    simp only [Heap.allocateLarge] at hal
    split at hal
    · cases hal
      exact Or.inl rfl
    · split at hal
      · cases hal
        exact Or.inl rfl
      · split at hal
        · cases hal
        next hrun =>
          cases hal
          exact Or.inr ⟨_, _, rfl, hp.sound.table.tracked.tryAllocateLarge_installs hrun,
            young_tryAllocateLarge hrun⟩
        next hrun =>
          cases hal
          exact Or.inr ⟨_, _, rfl, hp.sound.table.tracked.tryAllocateLarge_installs hrun,
            young_tryAllocateLarge hrun⟩
  rcases ht with rfl | ⟨tbl, committed, rfl, hinstalls, hyoung⟩
  · exact hp
  · -- An occupied entry is left alone.
    have hocc : ∀ i kind, h.table.kind i = some kind →
        tbl.kind i = h.table.kind i ∧ tbl.pooled i = h.table.pooled i := by
      intro i kind hk
      rcases hinstalls.entry i with hs | ⟨hvac, -⟩
      · exact hs
      · rw [hvac] at hk
        cases hk
    refine ⟨hsound, hp.young.of_young hyoung, hp.pool.congr (fun _ _ => rfl) ?_ ?_, ?_⟩
    · intro i
      rcases hinstalls.entry i with hs | ⟨hvac, -, himp⟩
      · rw [hs.2]
      · refine ⟨himp, fun hflag => ?_⟩
        obtain ⟨s, hk⟩ := hp.pool.kind_of_pooled hflag
        rw [hvac] at hk
        cases hk
    · rintro c i - ⟨s, hk, hrest⟩
      exact ⟨s, (hocc i _ hk).1.trans hk, hrest⟩
    · intro space c i hact
      have hold := hp.active space c i hact
      obtain ⟨s, hk, -⟩ := id hold
      exact hold.of_eq (hocc i _ hk).1 (hocc i _ hk).2

theorem Pooled.tryAllocateAccounted
    (hal : h.tryAllocateAccounted req = some (res, h')) : h'.Pooled := by
  rcases tryAllocateAccounted_cases hal with rfl | ⟨plan, inner, heq, hinner⟩
  · exact hp
  · have hpooled : inner.Pooled := by
      rcases hinner with ⟨classIndex, res', -, hrun⟩ | ⟨res', hrun⟩
      · exact hp.tryAllocateClass hrun
      · exact hp.allocateLarge hrun
    rcases heq with rfl | rfl
    · exact hpooled
    · exact ⟨hpooled.sound.of_table rfl rfl, hpooled.young, hpooled.pool, hpooled.active⟩

/-! ## Stores, barriers and reclaims -/

/-- A change of marks, payloads, cards and remembered links. -/
theorem Pooled.relabel (hsound : h'.Sound) (hbare : h'.table.bare = h.table.bare)
    (hyoung : h'.table.young = h.table.young) (hpool : h'.edenPool = h.edenPool)
    (hact : ∀ space c, h'.active space c = h.active space c) : h'.Pooled where
  sound := hsound
  young := hp.young.of_young hyoung
  pool := hpool ▸ hp.pool.of_bare hbare
  active := by
    intro space c i hi
    rw [hact] at hi
    exact (hp.active space c i hi).of_bare hbare

theorem Pooled.reclaim (ref : RawHeapRef) :
    ({ h with table := (h.table.reclaimSmallAfterDrop ref).2 } : Heap).Pooled := by
  have hsound := hp.sound.table.reclaim ref
  have hmarks := hp.sound.marks.reclaim ref
  have hyoung := young_reclaimSmallAfterDrop h.table ref
  rcases h.table.reclaimSmallAfterDrop_cases ref with
    heq | ⟨s, slot, metadata, s', hk, -, hrcl, heq, hs'⟩
  · rw [heq]
    exact hp
  · obtain ⟨hm, rfl⟩ := SmallSpanMetadata.reclaimAllocation_eq_some hrcl
    have hspace : s'.metadata.space = s.metadata.space := by
      rcases hs' with rfl | rfl
      · rfl
      · rfl
    -- A pooled span has no object to reclaim.
    have hflag : h.table.pooled ref.spanId = false := by
      cases hflag : h.table.pooled ref.spanId with
      | false => rfl
      | true =>
        obtain ⟨c, k, hheld⟩ := hp.pool.flagged _ hflag
        obtain ⟨⟨s₁, hk₁, -, -, hz⟩, -⟩ := hp.pool.held c k _ hheld
        rw [hk] at hk₁
        cases hk₁
        have hslots := (hp.sound.table.slots _ s hk).slots
        rw [hz] at hslots
        exact absurd (Finset.card_eq_zero.mp hslots.symm) (Finset.ne_empty_of_mem hm)
    have hallocates : ∀ i, i ≠ ref.spanId →
        (h.table.reclaimSmallAfterDrop ref).2.kind i = h.table.kind i ∧
          (h.table.reclaimSmallAfterDrop ref).2.pooled i = h.table.pooled i := by
      intro i hi
      rw [heq, kind_modifyKind, if_neg (Ne.symm hi), pooled_modifyKind]
      exact ⟨rfl, rfl⟩
    have hflag' : (h.table.reclaimSmallAfterDrop ref).2.pooled ref.spanId = false := by
      rw [heq, pooled_modifyKind]
      exact hflag
    refine ⟨⟨hsound, hmarks⟩, hp.young.of_young hyoung, hp.pool.frame hflag hflag' hallocates, ?_⟩
    intro space c i hact
    have hold := hp.active space c i hact
    by_cases hi : i = ref.spanId
    · subst hi
      obtain ⟨s₁, hs₁, hspace₁, -⟩ := hold
      rw [hk] at hs₁
      cases hs₁
      refine ⟨s', ?_, fun h₁ => hspace.trans (hspace₁ h₁), hflag'⟩
      show (h.table.reclaimSmallAfterDrop ref).2.kind ref.spanId = _
      rw [heq, kind_modifyKind, if_pos rfl, hk]
      rfl
    · exact hold.of_eq (hallocates i hi).1 (hallocates i hi).2

/-! ## Trimming -/

/-- Contents and flags are the same. -/
theorem Pooled.same (hsound : h'.Sound) (hyoung : h'.table.YoungLinked)
    (hs : SpanTable.SameSpans h.table h'.table) (hpool : h'.edenPool = h.edenPool)
    (hact : ∀ space c, h'.active space c = h.active space c) : h'.Pooled where
  sound := hsound
  young := hyoung
  pool := hpool ▸ hp.pool.same hs
  active := by
    intro space c i hi
    rw [hact] at hi
    exact (hp.active space c i hi).of_eq (hs i).1 (hs i).2

end

variable {s : Trimmer}

theorem Pooled.trimOne (hp : s.heap.Pooled) (classIndex : Nat) :
    (Heap.trimOne classIndex s).heap.Pooled := by
  simp only [Heap.trimOne]
  rcases hfirst : s.heap.edenPool.firstRetained classIndex with _ | ⟨place, span⟩
  · exact hp
  · obtain ⟨hheld, hlt⟩ := EdenPool.firstRetained_eq_some hfirst
    have hsteps : SweepSteps .full s.heap.collectionEpoch s.heap.table
        (s.heap.table.prepareRelease span).2 := prepareRelease_steps _ _
    have hs := SpanTable.SameSpans.prepareRelease s.heap.table span
    simp only
    generalize s.heap.table.prepareRelease span = prepared at hsteps hs ⊢
    obtain ⟨e | ⟨⟩, tbl⟩ := prepared
    · exact hp.same (hp.sound.of_steps hsteps rfl) (hp.young.sweepSteps hsteps) hs rfl
        fun _ _ => rfl
    · have hprep : ({ s.heap with table := tbl } : Heap).Pooled :=
        hp.same (hp.sound.of_steps hsteps rfl) (hp.young.sweepSteps hsteps) hs rfl fun _ _ => rfl
      have hrel : SweepSteps .full s.heap.collectionEpoch tbl (tbl.release span).2 :=
        release_steps fun hg => by cases hg
      have hcases := tbl.release_cases span
      simp only
      generalize tbl.release span = released at hrel hcases ⊢
      obtain ⟨e | ⟨⟩, released⟩ := released
      · rcases hcases with ⟨e', -, hs'⟩ | ⟨heq, -⟩
        · exact hprep.same (hprep.sound.of_steps hrel rfl)
            (hprep.young.sweepSteps hrel) hs' rfl fun _ _ => rfl
        · cases heq
      · rcases hcases with ⟨e', heq, -⟩ | ⟨-, hflag, hos⟩
        · cases heq
        · have hsets := EdenPool.sets_vacatePlace hlt
          refine ⟨hprep.sound.of_steps hrel rfl, hprep.young.sweepSteps hrel,
            hprep.pool.vacate hheld ⟨hsets.here, hsets.others⟩ hflag hos, ?_⟩
          intro space c i hact
          -- An active span is not pooled, so it is another one.
          have hold := hprep.active space c i hact
          have hi : i ≠ span := by
            rintro rfl
            obtain ⟨s', -, -, hfree⟩ := hold
            have hpooled := (hprep.pool.held classIndex place i hheld).2
            rw [hfree] at hpooled
            cases hpooled
          exact hold.of_eq (hos i hi).1 (hos i hi).2

theorem Pooled.trimClass (hp : s.heap.Pooled) (classIndex : Nat) :
    (Heap.trimClass s classIndex).heap.Pooled := by
  apply foldUntil_induction (fun s : Trimmer => s.heap.Pooled) hp
  intro s' _ _ _ hp'
  exact hp'.trimOne classIndex

theorem Pooled.trim (hp : h.Pooled) : h.trimEdenPoolStorage.2.Pooled := by
  have htrim : (foldUntil (fun s : Trimmer => s.error.isSome) Heap.trimClass
      (range smallSizeClasses.length) { heap := h }).heap.Pooled := by
    apply foldUntil_induction (fun s : Trimmer => s.heap.Pooled) hp
    intro s classIndex _ _ hp'
    exact hp'.trimClass classIndex
  simp only [trimEdenPoolStorage]
  split
  · exact htrim
  · exact htrim

/-- The kept spans of a size class. -/
def retainedCount (p : EdenPool) (classIndex : Nat) : Nat :=
  (p.places classIndex).countP Option.isSome

theorem heldAt_of_retainedCount {p : EdenPool} (hz : retainedCount p classIndex = 0) (k : Nat) :
    p.heldAt classIndex k = none := by
  simp only [EdenPool.heldAt]
  cases hget : (p.places classIndex)[k]? with
  | none => rfl
  | some val =>
    have hn := countP_eq_zero.mp hz val (mem_of_getElem? hget)
    cases val with
    | none => rfl
    | some span => exact absurd rfl hn

/-- A round of a trim that reports no error takes a span of its class, if there is one, and
none of another class. -/
theorem trimOne_retained (hend : (Heap.trimOne classIndex s).error = none) :
    retainedCount (Heap.trimOne classIndex s).heap.edenPool classIndex =
        retainedCount s.heap.edenPool classIndex - 1 ∧ ∀ c k, c ≠ classIndex →
        (Heap.trimOne classIndex s).heap.edenPool.heldAt c k = s.heap.edenPool.heldAt c k := by
  revert hend
  simp only [Heap.trimOne]
  rcases hfirst : s.heap.edenPool.firstRetained classIndex with _ | ⟨place, span⟩
  · intro _
    have hz : retainedCount s.heap.edenPool classIndex = 0 := by
      apply countP_eq_zero.mpr
      intro val hv
      obtain ⟨k, hk⟩ := mem_iff_getElem?.mp hv
      have hn := EdenPool.firstRetained_eq_none hfirst k
      simp only [EdenPool.heldAt, hk, Option.join_some] at hn
      rw [hn]
      exact Bool.false_ne_true
    exact ⟨by rw [hz], fun _ _ _ => rfl⟩
  · obtain ⟨hheld, hlt⟩ := EdenPool.firstRetained_eq_some hfirst
    have hplaces : (s.heap.edenPool.vacatePlace classIndex place).places classIndex =
        (s.heap.edenPool.places classIndex).set place none := by
      simp only [EdenPool.places, EdenPool.vacatePlace, getElem?_modify]
      cases hl : s.heap.edenPool.spans[classIndex]? <;> simp
    have hct : retainedCount (s.heap.edenPool.recordTrimmed classIndex place) classIndex =
        retainedCount s.heap.edenPool classIndex - 1 := by
      have hsome : ((s.heap.edenPool.places classIndex)[place]).isSome = true := by
        simp only [EdenPool.heldAt, getElem?_eq_getElem hlt, Option.join_some] at hheld
        rw [hheld]
        rfl
      show ((s.heap.edenPool.vacatePlace classIndex place).places classIndex).countP
        Option.isSome = _
      rw [hplaces, countP_set hlt, if_pos hsome]
      rfl
    have hsets := EdenPool.sets_vacatePlace hlt
    simp only
    generalize s.heap.table.prepareRelease span = prepared
    obtain ⟨e | ⟨⟩, tbl⟩ := prepared
    · intro hend
      cases hend
    · simp only
      generalize tbl.release span = released
      obtain ⟨e | ⟨⟩, released⟩ := released
      · intro hend
        cases hend
      · intro _
        exact ⟨hct, fun c k hc => hsets.others c k fun hck => hc hck.1⟩

/-- A trim of a class that reports no error empties it. -/
theorem trimClass_empties (hend : (Heap.trimClass s classIndex).error.isSome = false) :
    (∀ k, (Heap.trimClass s classIndex).heap.edenPool.heldAt classIndex k = none) ∧
      ∀ c k, c ≠ classIndex →
        (Heap.trimClass s classIndex).heap.edenPool.heldAt c k = s.heap.edenPool.heldAt c k := by
  -- Every round takes one span, and there are as many rounds as places.
  have hfold : ∀ (l : List Nat) (s : Trimmer),
      (foldUntil (fun s : Trimmer => s.error.isSome) (fun s _ => Heap.trimOne classIndex s) l
        s).error.isSome = false →
      retainedCount (foldUntil (fun s : Trimmer => s.error.isSome)
          (fun s _ => Heap.trimOne classIndex s) l s).heap.edenPool classIndex ≤
        retainedCount s.heap.edenPool classIndex - l.length ∧
      ∀ c k, c ≠ classIndex → (foldUntil (fun s : Trimmer => s.error.isSome)
          (fun s _ => Heap.trimOne classIndex s) l s).heap.edenPool.heldAt c k =
        s.heap.edenPool.heldAt c k := by
    intro l
    induction l with
    | nil => exact fun s _ => ⟨Nat.le_refl _, fun _ _ _ => rfl⟩
    | cons a l ih =>
      intro s hend
      obtain ⟨-, hstep, heq⟩ := @foldUntil_cons_of_end _ _ (fun s : Trimmer => s.error.isSome)
        (fun s _ => Heap.trimOne classIndex s) l s a hend
      rw [heq] at hend ⊢
      obtain ⟨hct, hos⟩ := ih _ hend
      have herr : (Heap.trimOne classIndex s).error = none := by
        cases herr : (Heap.trimOne classIndex s).error with
        | none => rfl
        | some e =>
          rw [herr] at hstep
          cases hstep
      obtain ⟨hct', hos'⟩ := trimOne_retained herr
      refine ⟨?_, fun c k hc => (hos c k hc).trans (hos' c k hc)⟩
      rw [length_cons]
      omega
  obtain ⟨hct, hos⟩ := hfold _ s hend
  refine ⟨heldAt_of_retainedCount ?_, hos⟩
  have hle : retainedCount s.heap.edenPool classIndex ≤
      (s.heap.edenPool.places classIndex).length := countP_le_length
  rw [length_range] at hct
  exact Nat.le_zero.mp (hct.trans (by omega))

/-- A trim without an error leaves nothing in the pool. -/
theorem trim_empties (hp : h.Pooled) {bytes : Nat} (hok : h.trimEdenPoolStorage.1 = .ok bytes)
    (classIndex place : Nat) : h.trimEdenPoolStorage.2.edenPool.heldAt classIndex place = none := by
  have hpooled := hp.trim
  revert hok hpooled
  simp only [trimEdenPoolStorage]
  have hempties : (foldUntil (fun s : Trimmer => s.error.isSome) Heap.trimClass
      (range smallSizeClasses.length) { heap := h }).error.isSome = false →
      ∀ c ∈ range smallSizeClasses.length, ∀ k, (foldUntil (fun s : Trimmer => s.error.isSome)
        Heap.trimClass (range smallSizeClasses.length) { heap := h }).heap.edenPool.heldAt c k =
          none := by
    intro hend
    refine foldUntil_forall (fun _ => True)
      (fun c (s : Trimmer) => ∀ k, s.heap.edenPool.heldAt c k = none) hend trivial ?_ ?_ ?_
    · exact fun _ _ _ _ _ _ => trivial
    · exact fun s c _ _ hc _ => (trimClass_empties hc).1
    · intro s c c' _ _ hc' _ hempty k
      by_cases hc : c = c'
      · subst hc
        exact (trimClass_empties hc').1 k
      · exact ((trimClass_empties hc').2 c k hc).trans (hempty k)
  generalize foldUntil (fun s : Trimmer => s.error.isSome) Heap.trimClass
    (range smallSizeClasses.length) { heap := h } = s at hempties ⊢
  cases herr : s.error with
  | some e =>
    intro hok
    cases hok
  | none =>
    intro _ hpooled
    rw [herr] at hempties
    by_cases hc : classIndex < smallSizeClasses.length
    · exact hempties rfl classIndex (mem_range.mpr hc) place
    · -- No span is of a size class that does not exist.
      cases hheld : s.heap.edenPool.heldAt classIndex place with
      | none => rfl
      | some span =>
        obtain ⟨⟨s', -, hclass, -⟩, -⟩ := hpooled.pool.held classIndex place span hheld
        rw [getElem?_eq_none (Nat.le_of_not_lt hc)] at hclass
        cases hclass

end Heap

/-! ## What a sweep does not touch -/

namespace Sweeper

variable {s : Sweeper} {span : SpanId} {epoch : CollectionEpoch}

/-- The pool and the promoted spans of a sweep. -/
def pools (s : Sweeper) : EdenPool × List (Option SpanId) := (s.edenPool, s.promotedActiveOld)

section

variable (s : Sweeper)

theorem pools_runTable {α : Type} (res : Except SpanTableError α × SpanTable) :
    (s.runTable res).pools = s.pools := by
  obtain ⟨res, tbl⟩ := res
  cases res <;> rfl

theorem pools_countReclaimed (slotSize : Nat) : (s.countReclaimed slotSize).pools = s.pools := by
  simp only [countReclaimed]
  split <;> rfl

theorem pools_sweepObject (types : TypeRegistry) (epoch : CollectionEpoch) (slotSize : Nat)
    (s : Sweeper) (ref : RawHeapRef) :
    (sweepObject types epoch slotSize s ref).pools = s.pools := by
  simp only [sweepObject]
  split
  · rfl
  · rfl
  · rw [pools_countReclaimed]
    simp only [dropSmall]
    split
    · rfl
    · split
      · rfl
      · rfl

theorem pools_sweepObjects (types : TypeRegistry) (epoch : CollectionEpoch) (s : Sweeper)
    (span : SpanId) (pre : SmallSweepSnapshot) :
    (s.sweepObjects types epoch span pre).pools = s.pools := by
  apply scan_induction (fun s' : Sweeper => s'.pools = s.pools) rfl
  intro s' start ref hs _ _
  exact (pools_sweepObject ..).trans hs

theorem pools_liveSlots (span : SpanId) (epoch : CollectionEpoch) (pre : SmallSweepSnapshot) :
    (s.liveSlots span epoch pre).1.pools = s.pools := by
  apply scan_induction (fun st : Sweeper × Nat => st.1.pools = s.pools) rfl
  intro st start ref hs _ _
  simp only [countLive]
  split <;> exact hs

theorem pools_prepareRetirement (span : SpanId) (classIndex live : Nat) :
    (s.prepareRetirement span classIndex live).pools = s.pools := by
  simp only [prepareRetirement]
  split
  · exact pools_runTable ..
  · rfl

theorem pools_countYoungSpan (space : SpanSpace) : (s.countYoungSpan space).pools = s.pools := by
  cases space <;> rfl

theorem pools_accountRetained (span : SpanId) : (s.accountRetained span).pools = s.pools := by
  simp only [accountRetained]
  split <;> rfl

theorem pools_releaseLarge (ref : RawHeapRef) : (s.releaseLarge ref).pools = s.pools := by
  simp only [releaseLarge]
  split <;> rfl

end

theorem pools_sweepSmall (types : TypeRegistry) (epoch : CollectionEpoch) (s : Sweeper)
    (span : SpanId) : (sweepSmall types epoch s span).pools = s.pools := by
  simp only [sweepSmall]
  split
  · rfl
  next pre _ =>
    have hlive := pools_liveSlots s span epoch pre
    generalize s.liveSlots span epoch pre = counted at hlive ⊢
    obtain ⟨s₁, live⟩ := counted
    split
    · exact hlive
    · have hprep : (if live = 0 then s₁.runTable (s₁.table.prepareRelease span) else s₁).pools =
          s.pools := by
        split
        · exact (pools_runTable ..).trans hlive
        · exact hlive
      generalize (if live = 0 then s₁.runTable (s₁.table.prepareRelease span) else s₁) = s₂
        at hprep ⊢
      split
      · exact hprep
      · have hswept := (pools_sweepObjects types epoch s₂ span pre).trans hprep
        generalize s₂.sweepObjects types epoch span pre = s₃ at hswept ⊢
        split
        · exact hswept
        · split
          · exact hswept
          · split
            · have hrel := (pools_runTable s₃ (s₃.table.release span)).trans hswept
              split
              · exact hrel
              · exact hrel
            · exact hswept

theorem pools_sweepLarge (types : TypeRegistry) (epoch : CollectionEpoch) (s : Sweeper)
    (span : SpanId) : (sweepLarge types epoch s span).pools = s.pools := by
  simp only [sweepLarge]
  split
  · rfl
  · split
    · have hprep := pools_runTable s (s.table.prepareRelease span)
      split
      · exact hprep
      · exact (pools_releaseLarge ..).trans hprep
    · split
      · rfl
      · rfl
      next metadata _ _ _ _ =>
        generalize hs : (s.count fun stats =>
          { stats with
            scannedObjects := stats.scannedObjects + 1
            scannedBytes := stats.scannedBytes + metadata.objectBytes }) = counted
        have hcounted : counted.pools = s.pools := by
          rw [← hs]
          rfl
        simp only [sweepWhiteLarge]
        have hprep := (pools_runTable counted (counted.table.prepareRelease span)).trans hcounted
        split
        · exact hprep
        · rw [pools_countReclaimed]
          simp only [dropLarge]
          split
          · exact hprep
          · split
            · exact hprep
            · exact (pools_releaseLarge ..).trans hprep

theorem pools_sweepFull (types : TypeRegistry) (epoch : CollectionEpoch) (s : Sweeper) :
    (s.sweepFull types epoch).pools = s.pools := by
  apply foldUntil_induction (fun s' : Sweeper => s'.pools = s.pools)
  · apply foldUntil_induction (fun s' : Sweeper => s'.pools = s.pools)
    · rfl
    · intro s' span _ _ hs
      split
      · split
        · exact hs
        · exact hs
      · exact hs
  · intro s' span _ _ hs
    simp only [sweepOwner]
    split
    · exact hs
    · exact (pools_sweepSmall ..).trans hs
    · exact (pools_sweepLarge ..).trans hs

end Sweeper

/-! ## Major collections -/

variable {epoch : CollectionEpoch} {i : SpanId}

/-- Only a minor sweep sets the pool flag of a span. -/
theorem SweepStep.pooled_full (h : SweepStep .full epoch t t') (hflag : t'.pooled i = true) :
    t.pooled i = true := by
  cases h with
  | reserve => exact hflag
  | unpublish _ _ hdrop =>
    obtain ⟨s, slot, metadata, -, -, -, rfl⟩ := unpublishSmallForDrop_eq_some hdrop
    rw [pooled_modifyKind] at hflag
    exact hflag
  | pool hg | advance hg => cases hg
  | @release _ span _ hrel =>
    have hcases := t.release_cases span
    rw [hrel] at hcases
    rcases hcases with ⟨e, heq, -⟩ | ⟨-, hspan, hos⟩
    · cases heq
    · by_cases hi : i = span
      · subst hi
        rw [hspan] at hflag
        cases hflag
      · exact (hos i hi).2 ▸ hflag
  | freeList span =>
    simp only [rebuildOldFreeList] at hflag
    split at hflag
    · exact hflag
    · split at hflag
      · rw [pooled_modifyKind] at hflag
        exact hflag
      · exact hflag
  | unpublishLarge _ _ hdrop =>
    obtain ⟨s, -, rfl⟩ := unpublishLargeForDrop_eq_ok hdrop
    rw [pooled_modifyKind] at hflag
    exact hflag
  | @releaseLarge _ ref _ _ hrel =>
    have hs := t.pooled_releaseUnpublishedLarge ref i
    rw [hrel] at hs
    exact hs ▸ hflag
  | compact hcompact =>
    exact (SpanTable.SameSpans.compactYoungSpans hcompact i).2 ▸ hflag

variable {g : Generation}

variable {s : SmallSpan} {o : Option SpanKind}

/-- A small span stays one or is released, and an old one stays old. -/
theorem KindStep.of_small (h : KindStep g epoch (some (.small s)) o) :
    o = none ∨ ∃ s', o = some (.small s') ∧
    (s.metadata.space = .old → s'.metadata.space = .old) := by
  cases h with
  | same => exact Or.inr ⟨s, rfl, fun h => h⟩
  | drop _ _ hrcl =>
    obtain ⟨-, rfl⟩ := SmallSpanMetadata.reclaimAllocation_eq_some hrcl
    exact Or.inr ⟨_, rfl, fun h => h⟩
  | pool hyoung | advance hyoung =>
    refine Or.inr ⟨_, rfl, fun hold => ?_⟩
    rw [hold] at hyoung
    cases hyoung
  | release | vacate => exact Or.inl rfl
  | freeList =>
    obtain ⟨head, hmeta⟩ := (SmallSpan.frees_rebuildFreeList s).metadata
    refine Or.inr ⟨_, rfl, fun hold => ?_⟩
    rw [hmeta]
    exact hold

theorem KindStep.of_none (h : KindStep g epoch none o) : o = none := by
  cases h with
  | same | vacate => rfl

theorem SweepSteps.of_small (h : SweepSteps g epoch t t') (hk : t.kind i = some (.small s)) :
    t'.kind i = none ∨ ∃ s', t'.kind i = some (.small s') ∧
      (s.metadata.space = .old → s'.metadata.space = .old) := by
  induction h with
  | refl => exact Or.inr ⟨s, hk, fun h => h⟩
  | tail _ hstep ih =>
    have he := hstep.kindStep i
    rcases ih with hn | ⟨s₁, hk₁, hold₁⟩
    · rw [hn] at he
      exact Or.inl he.of_none
    · rw [hk₁] at he
      rcases he.of_small with hn | ⟨s₂, hk₂, hold₂⟩
      · exact Or.inl hn
      · exact Or.inr ⟨s₂, hk₂, fun hold => hold₂ (hold₁ hold)⟩

theorem SweepSteps.pooled_full (h : SweepSteps .full epoch t t') (hflag : t'.pooled i = true) :
    t.pooled i = true := by
  induction h with
  | refl => exact hflag
  | tail _ hstep ih => exact ih (hstep.pooled_full hflag)

namespace Heap

variable {h h' : Heap} {span : SpanId}

variable {roots : List TraceField}

variable {res : Except MarkError MarkStats}

theorem markStrong_frame (hmark : h.markStrong roots = (res, h')) :
    h'.edenPool = h.edenPool ∧ ∀ space c, h'.active space c = h.active space c := by
  have habsorbs : ∃ m, h.advanceEpoch.absorbMarker m = h' := ⟨_, (Prod.mk.inj hmark).2⟩
  obtain ⟨m, rfl⟩ := habsorbs
  refine ⟨rfl, ?_⟩
  intro space c
  cases space with
  | young | old => rfl

theorem Pooled.markStrong (hp : h.Pooled) (hmark : h.markStrong roots = (res, h')) : h'.Pooled := by
  obtain ⟨hbare, hyoung, -⟩ := markStrong_bare hp.sound.marks hmark
  obtain ⟨hpool, hact⟩ := markStrong_frame hmark
  exact hp.relabel (hp.sound.markStrong hmark) hbare hyoung hpool hact

theorem Pooled.collectMajor {res : Except MajorCollectionError MajorCollectionStats} (hp : h.Pooled)
    (hcoll : h.collectMajor roots = some (res, h')) : h'.Pooled := by
  have hsound := hp.sound.collectMajor hcoll
  rcases collectMajor_cases hcoll with
    ⟨e, -, rfl⟩ | ⟨e, -, hmark⟩ | ⟨stats, marked, hmark, habsorb, -, -, hok⟩
  · exact hp.trim
  · exact hp.trim.markStrong hmark
  · have hmarked := hp.trim.markStrong hmark
    have hsteps := Sweeper.sweepFull_steps marked.types marked.collectionEpoch marked.sweeper
    have hpools := Sweeper.pools_sweepFull marked.types marked.collectionEpoch marked.sweeper
    -- The pool is empty from the trim on, so nothing is flagged while the sweep runs.
    have hempty : ∀ c k, marked.edenPool.heldAt c k = none := by
      intro c k
      rw [(markStrong_frame hmark).1]
      cases htrim : h.trimEdenPoolStorage.1 with
      | ok bytes => exact trim_empties hp htrim c k
      | error e =>
        rw [htrim] at hok
        cases hok
    have hflags : ∀ i, marked.table.pooled i = false := by
      intro i
      cases hflag : marked.table.pooled i with
      | false => rfl
      | true =>
        obtain ⟨c, k, hheld⟩ := hmarked.pool.flagged i hflag
        rw [hempty] at hheld
        cases hheld
    have hflags' : ∀ i, h'.table.pooled i = false := by
      intro i
      cases hflag : h'.table.pooled i with
      | false => rfl
      | true =>
        rw [habsorb.table] at hflag
        have hb := hsteps.pooled_full hflag
        rw [← hb]
        exact hflags i
    have hheld : ∀ c k, h'.edenPool.heldAt c k = none := by
      intro c k
      rw [habsorb.pool]
      exact (congrArg (fun pools : EdenPool × List (Option SpanId) => pools.1.heldAt c k)
        hpools).trans (hempty c k)
    refine ⟨hsound, ?_, ⟨?_, ?_, ?_⟩, ?_⟩
    · rw [habsorb.table]
      exact hmarked.young.sweepSteps hsteps
    · intro c k i hi
      rw [hheld] at hi
      cases hi
    · intro c k c' k' i hi
      rw [hheld] at hi
      cases hi
    · intro i hi
      rw [hflags' i] at hi
      cases hi
    · intro space c i hact
      have hpromoted : ((marked.sweeper.sweepFull marked.types
          marked.collectionEpoch).promotedActiveOld[c]?).join = none := by
        have heq := congrArg (fun pools :
          EdenPool × List (Option SpanId) => (pools.2[c]?).join) hpools
        refine heq.trans ?_
        simp only [Sweeper.pools, sweeper, getElem?_replicate]
        split <;> rfl
      rcases habsorb.active space c i hact with ⟨hold, ht⟩ | ⟨-, hnew⟩
      · obtain ⟨s, hk, hspace, -⟩ := hmarked.active space c i hold
        rw [← habsorb.table] at ht
        have hcases := hsteps.of_small hk
        rw [← habsorb.table] at hcases
        rcases hcases with hn | ⟨s', hk', hold'⟩
        · rw [sweepTarget, hn] at ht
          cases ht
        · exact ⟨s', hk', fun heq => hold' (hspace heq), hflags' i⟩
      · rw [hpromoted] at hnew
        cases hnew

end Heap

end TachyonEngine.Gc
