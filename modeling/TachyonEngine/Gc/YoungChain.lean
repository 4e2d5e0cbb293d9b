import TachyonEngine.Gc.Installs
import TachyonEngine.Gc.Rebuild

/-!
# The chain of young spans

The chain ends, and the flags of its entries say exactly who is on it. Linking and
compacting are the operations of `Lib.Traversal.Links` on the view `SpanTable.young`; every
other operation of the table leaves this view as it is.
-/

namespace TachyonEngine.Gc

open Lib.Traversal Lib.Capacity List

namespace SpanTable

variable {t t' : SpanTable} {span i : SpanId}

/-- The chain of young spans ends and its flags are right. -/
def YoungLinked (t : SpanTable) : Prop := ∃ l, t.young.Linked l

theorem YoungLinked.new (alloc : Allocator) : (SpanTable.new alloc).YoungLinked := by
  refine ⟨[], .nil, ?_⟩
  intro span
  constructor
  · intro h
    cases h
  · intro h
    exact absurd h not_mem_nil

theorem YoungLinked.of_young (h : t.YoungLinked) (hyoung : t'.young = t.young) :
    t'.YoungLinked := by
  obtain ⟨l, hl⟩ := h
  exact ⟨l, hyoung ▸ hl⟩

/-! ## The view of an operation -/

theorem young_of_skeleton (h : t'.skeleton = t.skeleton) : t'.young = t.young := by
  have he : ∀ i : SpanId, (t'.entries[i]?).map SpanEntry.skeleton =
      (t.entries[i]?).map SpanEntry.skeleton := by
    intro i
    rw [← getElem?_skeleton, h, getElem?_skeleton]
  apply young_ext
  · exact (SpanTable.mk.inj h).2.2.2.2.2.2.1
  · intro i
    have hi := congrArg (fun o => Option.bind o SpanEntry.youngNext) (he i)
    simp only [youngNext, young]
    cases h' : t'.entries[i]? <;> cases h'' : t.entries[i]? <;> simp_all [SpanEntry.skeleton]
  · intro i
    have hi := congrArg (fun o => Option.map SpanEntry.inYoungSet o) (he i)
    simp only [young]
    cases h' : t'.entries[i]? <;> cases h'' : t.entries[i]? <;> simp_all [SpanEntry.skeleton]

/-- New entries are in no chain. -/
theorem young_append (t : SpanTable) (entries : List SpanEntry)
    (hnew : ∀ ent ∈ entries, ent.youngNext = none ∧ ent.inYoungSet = false)
    (hes : t'.entries = t.entries ++ entries) (hhead : t'.youngHead = t.youngHead) :
    t'.young = t.young := by
  have hget : ∀ i : SpanId, t'.entries[i]? = t.entries[i]? ∨
      (t.entries[i]? = none ∧ ∃ ent, t'.entries[i]? = some ent ∧ ent.youngNext = none ∧
        ent.inYoungSet = false) := by
    intro i
    rw [hes]
    rcases lt_or_ge i t.entries.length with hlt | hge
    · exact Or.inl (List.getElem?_append_left hlt)
    · rw [getElem?_append_right hge, getElem?_eq_none hge]
      cases he : entries[i - t.entries.length]? with
      | none => exact Or.inl rfl
      | some ent =>
        exact Or.inr ⟨rfl, ent, rfl, hnew ent (mem_of_getElem? he)⟩
  apply young_ext hhead
  · intro i
    simp only [youngNext, young]
    rcases hget i with heq | ⟨hn, ent, hsome, hnx, -⟩
    · rw [heq]
    · rw [hn, hsome]
      exact hnx
  · intro i
    simp only [young]
    rcases hget i with heq | ⟨hn, ent, hsome, -, hflag⟩
    · rw [heq]
    · rw [hn, hsome]
      exact hflag

/-! ## Linking -/

/-- The links of the young list after one span was given other ones. -/
theorem young_setLinks (hspan : span < t.entries.length) (next : Option SpanId) (linked : Bool) :
    (t.modifyEntry span fun ent => { ent with youngNext := next, inYoungSet := linked }).young =
      { t.young with
        next := Function.update t.young.next span next
        linked := Function.update t.young.linked span linked } := by
  obtain ⟨ent, he⟩ : ∃ ent, t.entries[span]? = some ent := ⟨_, getElem?_eq_getElem hspan⟩
  simp only [young, Links.mk.injEq]
  refine ⟨rfl, ?_, ?_⟩
  · funext i
    rw [getElem?_modifyEntry]
    by_cases hi : span = i
    · subst hi
      simp [he]
    · rw [if_neg hi, Function.update_of_ne (Ne.symm hi)]
  · funext i
    rw [getElem?_modifyEntry]
    by_cases hi : span = i
    · subst hi
      simp [he]
    · rw [if_neg hi, Function.update_of_ne (Ne.symm hi)]

theorem young_linkYoungSpan (hspan : span < t.entries.length) :
    (t.linkYoungSpan span).young = t.young.link span := by
  simp only [linkYoungSpan, Links.link]
  split
  · rfl
  · have hset := young_setLinks hspan t.youngHead true
    simp only [young, Links.mk.injEq] at hset ⊢
    exact ⟨trivial, hset.2⟩

theorem YoungLinked.linkYoungSpan (h : t.YoungLinked) (hspan : span < t.entries.length) :
    (t.linkYoungSpan span).YoungLinked := by
  obtain ⟨l, hl⟩ := h
  obtain ⟨l', hl', -⟩ := hl.link span
  exact ⟨l', (young_linkYoungSpan hspan).symm ▸ hl'⟩

theorem young_relinkYoungSpan (hspan : span < t.entries.length) : (t.relinkYoungSpan span).young =
      t.young.relink (fun i => (t.youngSpace i).isSome && !t.pooled i) span := by
  have hunlink : (t.modifyEntry span fun ent =>
      { ent with youngNext := none, inYoungSet := false }).young = t.young.unlink span :=
    young_setLinks hspan none false
  have hs : SameSpans t (t.modifyEntry span fun ent =>
      { ent with youngNext := none, inYoungSet := false }) := by
    apply SameSpans.modifyEntry
    · exact fun _ => rfl
    · exact fun _ => rfl
  have hkeep : ((t.modifyEntry span fun ent =>
      { ent with youngNext := none, inYoungSet := false }).youngSpace span).isSome =
        (t.youngSpace span).isSome := by
    simp only [youngSpace, metadata, (hs span).1]
  have hpool : ((t.modifyEntry span fun ent =>
      { ent with youngNext := none, inYoungSet := false }).entries[span]?).any
        SpanEntry.inEdenPool = t.pooled span := (hs span).2
  simp only [relinkYoungSpan, Links.relink, hkeep, hpool]
  split
  · rw [young_linkYoungSpan ((length_modifyEntry ..).symm ▸ hspan), hunlink]
  · exact hunlink

/-! ## Compacting -/

theorem SameSpans.relinkYoungSpan (t : SpanTable) (span : SpanId) :
    SameSpans t (t.relinkYoungSpan span) := by
  have hunlink : SameSpans t (t.modifyEntry span fun ent =>
      { ent with youngNext := none, inYoungSet := false }) := by
    apply SameSpans.modifyEntry
    · exact fun _ => rfl
    · exact fun _ => rfl
  simp only [SpanTable.relinkYoungSpan]
  split
  · exact hunlink.trans (.linkYoungSpan _ span)
  · exact hunlink

@[simp] theorem length_linkYoungSpan (t : SpanTable) (span : SpanId) :
    (t.linkYoungSpan span).entries.length = t.entries.length := by
  simp only [linkYoungSpan]
  split
  · rfl
  · exact length_modifyEntry ..

@[simp] theorem length_relinkYoungSpan (t : SpanTable) (span : SpanId) :
    (t.relinkYoungSpan span).entries.length = t.entries.length := by
  simp only [relinkYoungSpan]
  split
  · rw [length_linkYoungSpan, length_modifyEntry]
  · exact length_modifyEntry ..

theorem youngNext_relinkYoungSpan (t : SpanTable) {a b : SpanId} (hne : b ≠ a) :
    (t.relinkYoungSpan a).youngNext b = t.youngNext b := by
  have he : (t.modifyEntry a fun ent =>
      { ent with youngNext := none, inYoungSet := false }).entries[b]? = t.entries[b]? := by
    rw [getElem?_modifyEntry, if_neg (Ne.symm hne)]
  simp only [relinkYoungSpan, youngNext, young]
  split
  · simp only [linkYoungSpan]
    split
    · rw [he]
    · rw [getElem?_modifyEntry, if_neg (Ne.symm hne), he]
  · rw [he]

/-- Entries stay on the chain that are still young and in use. -/
def keepsYoung (t : SpanTable) (span : SpanId) :
    Bool := (t.youngSpace span).isSome && !t.pooled span

theorem keepsYoung_congr (h : SameSpans t t') (span : SpanId) :
    t'.keepsYoung span = t.keepsYoung span := by
  simp only [keepsYoung, youngSpace, metadata, (h span).1, (h span).2]

/-- A compaction as one table sees it is one as the chain sees it. -/
theorem young_foldl_relinkYoungSpan (l : List SpanId) {s : SpanTable}
    (hl : ∀ a ∈ l, a < s.entries.length) (hs : SameSpans t s) :
    (l.foldl relinkYoungSpan s).young = l.foldl (Links.relink t.keepsYoung) s.young := by
  induction l generalizing s with
  | nil => rfl
  | cons a l ih =>
    have hkeep : s.keepsYoung = t.keepsYoung := funext fun i => keepsYoung_congr hs i
    have hfirst : (s.relinkYoungSpan a).young = s.young.relink t.keepsYoung a := by
      rw [← hkeep]
      exact young_relinkYoungSpan (hl a (mem_cons_self ..))
    rw [foldl_cons, foldl_cons, ← hfirst]
    apply ih
    · intro b hb
      rw [length_relinkYoungSpan]
      exact hl b (mem_cons_of_mem _ hb)
    · exact hs.trans (.relinkYoungSpan s a)

theorem lt_of_linked (h : t.young.linked span = true) : span < t.entries.length := by
  simp only [young] at h
  cases he : t.entries[span]? with
  | none =>
    rw [he] at h
    cases h
  | some ent => exact (List.getElem?_eq_some_iff.mp he).1

theorem Linked.length_le {l : List SpanId} (h : t.young.Linked l) :
    l.length ≤ t.entries.length := by
  have hsub : l ⊆ range t.entries.length := by
    intro a ha
    exact mem_range.mpr (lt_of_linked ((h.mem_iff a).mpr ha))
  have hle := (h.chain.nodup.subperm hsub).length_le
  rw [length_range] at hle
  exact hle

theorem foldUntil_false {σ ι : Type} (body : σ → ι → σ) (l : List ι) (s : σ) :
    foldUntil (fun _ => false) body l s = l.foldl body s := by
  induction l generalizing s with
  | nil => rfl
  | cons a l ih =>
    exact ih (body s a)

/-- Compacting keeps the young spans in use, and no others. -/
theorem linked_compactYoungSpans (h : t.YoungLinked) (hcompact : t.compactYoungSpans = some t') :
    ∃ l, t'.young.Linked l ∧ ∀ i ∈ l, t.keepsYoung i = true := by
  obtain ⟨l, hl⟩ := h
  have hwalk : walk youngNext (fun _ => false) relinkYoungSpan (t.entries.length + 1) t.youngHead
      { t with youngHead := none } =
        some (foldUntil (fun _ => false) relinkYoungSpan l { t with youngHead := none }) := by
    apply walk_eq_foldUntil
    · exact fun s a b hne => youngNext_relinkYoungSpan s hne
    · exact hl.chain
    · exact Nat.le_succ_of_le (Linked.length_le hl)
  have hfold : t' = l.foldl relinkYoungSpan { t with youngHead := none } := by
    rw [← foldUntil_false]
    exact Option.some.inj (hcompact.symm.trans hwalk)
  have hyoung : (l.foldl relinkYoungSpan { t with youngHead := none }).young =
      l.foldl (Links.relink t.keepsYoung) ({ t with youngHead := none } : SpanTable).young := by
    apply young_foldl_relinkYoungSpan
    · exact fun a ha => lt_of_linked ((hl.mem_iff a).mpr ha)
    · exact .of_entries rfl
  have hrelink : ∃ l', (l.foldl (Links.relink t.keepsYoung)
      ({ t with youngHead := none } : SpanTable).young).Linked l' ∧
        ∀ b, b ∈ l' ↔ b ∈ [] ∨ (b ∈ l ∧ t.keepsYoung b = true) := by
    apply Links.foldl_relink
    · exact .nil
    · exact fun b => (hl.mem_iff b).trans (by simp)
    · exact hl.chain.nodup
    · exact fun _ _ => not_mem_nil
  obtain ⟨l', hl', hm⟩ := hrelink
  refine ⟨l', ?_, ?_⟩
  · rw [hfold, hyoung]
    exact hl'
  · intro i hi
    rcases (hm i).mp hi with hnil | ⟨-, hkeep⟩
    · exact absurd hnil not_mem_nil
    · exact hkeep

/-! ## The other operations -/

theorem YoungLinked.publishSmall (h : t.YoungLinked) (hspan : span < t.entries.length)
    (space : SpanSpace) : (t.publishSmall span space).YoungLinked := by
  simp only [SpanTable.publishSmall]
  split
  · exact h
  · exact (h.linkYoungSpan hspan).of_young rfl

theorem YoungLinked.installNew (h : t.YoungLinked) (sizeClass : SizeClass) (space : SpanSpace) :
    (t.installNew sizeClass space).2.YoungLinked ∧
      ∀ span, (t.installNew sizeClass space).1 = .ok span →
        span < (t.installNew sizeClass space).2.entries.length := by
  simp only [SpanTable.installNew]
  split
  · exact ⟨h, fun _ heq => by cases heq⟩
  · obtain ⟨cap, alloc, hrsv⟩ := t.reserveEntries_facts 1
    generalize t.reserveEntries 1 = reserved at hrsv ⊢
    obtain ⟨_ | _, reserved⟩ := reserved
    · subst hrsv
      exact ⟨h.of_young rfl, fun _ heq => by cases heq⟩
    · subst hrsv
      refine ⟨h.of_young (young_append t _ ?_ rfl rfl), ?_⟩
      · intro ent he
        rw [mem_singleton] at he
        rw [he]
        exact ⟨rfl, rfl⟩
      · rintro span ⟨⟩
        simp

/-- A reused entry keeps the link it had. -/
theorem young_installReused (t : SpanTable) (span : SpanId) (sizeClass : SizeClass)
    (space : SpanSpace) : (t.installReused span sizeClass space).young = t.young := by
  have he : (t.modifyEntry span fun ent =>
      { ent with
        kind := some (.small { storage := .new 1, metadata := .new sizeClass space ent.generation })
        inEdenPool := false }).young = t.young := by
    apply young_modifyEntry
    · exact fun _ => rfl
    · exact fun _ => rfl
  exact he

theorem YoungLinked.tryAllocateSmall (h : t.YoungLinked) (htracked : t.Tracked)
    (sizeClass : SizeClass) (space : SpanSpace) :
    (t.tryAllocateSmall sizeClass space).2.YoungLinked := by
  simp only [SpanTable.tryAllocateSmall]
  rcases t.allocator.request with ⟨_ | _, alloc⟩
  · exact h.of_young rfl
  · simp only
    rcases alloc.request with ⟨_ | _, alloc'⟩
    · exact h.of_young rfl
    · have ht : ({ t with allocator := alloc' } : SpanTable).YoungLinked := h.of_young rfl
      rcases htake : takeFreeSpanRange 1 t.freeRanges with _ | ⟨span, ranges⟩
      · obtain ⟨hnew, hlt⟩ := ht.installNew sizeClass space
        simp only
        generalize SpanTable.installNew { t with allocator := alloc' } sizeClass space = res
          at hnew hlt ⊢
        obtain ⟨e | span, tbl⟩ := res
        · exact hnew
        · exact hnew.publishSmall (hlt span rfl) space
      · have hrange := takesRange_takeFreeSpanRange one_pos htracked.ranges htake
        obtain ⟨hlt, -⟩ := htracked.vacant_of_take hrange ⟨le_refl _, Nat.lt_succ_self _⟩
        apply YoungLinked.publishSmall
        · exact h.of_young (young_installReused { t with freeRanges :=
            ranges } span sizeClass space)
        · simp only [installReused]
          rw [length_modifyEntry]
          exact hlt

theorem young_installLargeRange (t : SpanTable) (placement : SpanRangePlacement)
    (storage : SpanStorage) (objectBytes spanCount : Nat) :
    (t.installLargeRange placement storage objectBytes spanCount).young = t.young := by
  cases placement with
  | reused owner =>
    simp only [installLargeRange]
    generalize range spanCount = ordinals
    induction ordinals generalizing t with
    | nil => rfl
    | cons ordinal ordinals ih =>
      rw [foldl_cons, ih]
      apply young_modifyEntry
      · exact fun _ => rfl
      · exact fun _ => rfl
  | append owner =>
    refine young_append t _ ?_ rfl rfl
    intro ent he
    obtain ⟨ordinal, -, rfl⟩ := mem_map.mp he
    exact ⟨rfl, rfl⟩

theorem young_tryAllocateLarge {layout : Layout} {header : GcHeader} {payload : List TraceField}
    {res : Except LargeAllocationError (RawHeapRef × Nat)}
    (hal : t.tryAllocateLarge layout header payload = some (res, t')) : t'.young = t.young := by
  have hinstall : ∀ (t : SpanTable) placement storage objectBytes spanCount,
      (t.installLarge placement storage objectBytes spanCount).young = t.young :=
    fun t placement _ _ _ => (young_linkRememberedSource _ placement.owner).trans
      (young_installLargeRange t _ _ _ _)
  obtain ⟨cap, alloc, rfl | ⟨storage, objectBytes, spanCount, -,
    ⟨owner, ranges, -, rfl⟩ | ⟨-, rfl⟩⟩⟩ := tryAllocateLarge_cases hal
  · rfl
  · exact hinstall { t with allocator := alloc, freeRanges := ranges } ..
  · exact hinstall { t with entriesCapacity := cap, allocator := alloc } ..

theorem young_activatePooledEden (hspan : span < t.entries.length) :
    (t.activatePooledEden span).young = t.young.link span := by
  have hflag : (t.modifyEntry span fun ent => { ent with inEdenPool := false }).young =
      t.young := by
    apply young_modifyEntry
    · exact fun _ => rfl
    · exact fun _ => rfl
  simp only [activatePooledEden]
  rw [young_linkYoungSpan ((length_modifyEntry ..).symm ▸ hspan)]
  exact congrArg (Links.link · span) hflag

theorem YoungLinked.activatePooledEden (h : t.YoungLinked) (hspan : span < t.entries.length) :
    (t.activatePooledEden span).YoungLinked := by
  obtain ⟨l, hl⟩ := h
  obtain ⟨l', hl', -⟩ := hl.link span
  exact ⟨l', (young_activatePooledEden hspan).symm ▸ hl'⟩

theorem young_reclaimSmallAfterDrop (t : SpanTable) (ref : RawHeapRef) :
    (t.reclaimSmallAfterDrop ref).2.young = t.young := by
  simp only [reclaimSmallAfterDrop]
  split
  · split
    · rfl
    · split
      · rfl
      · exact young_modifyKind ..
  · rfl

theorem young_vacate (t : SpanTable) (span : SpanId) : (t.vacate span).young = t.young := by
  have he : (t.modifyEntry span fun ent =>
      { ent with kind := none, generation := (ent.generation + 1) % 2 ^ 32 }).young = t.young := by
    apply young_modifyEntry
    · exact fun _ => rfl
    · exact fun _ => rfl
  exact he

theorem young_vacateRange (t : SpanTable) (owner cnt : Nat) :
    (t.vacateRange owner cnt).young = t.young := by
  simp only [vacateRange]
  generalize range cnt = ordinals
  induction ordinals generalizing t with
  | nil => rfl
  | cons ordinal ordinals ih =>
    rw [foldl_cons, ih]
    exact young_vacate t _

theorem young_reserved {reserved : SpanTable}
    (hrsv : t.reserveFreeRangeIfNeeded span = (.ok (), reserved)) : reserved.young = t.young := by
  obtain ⟨cap, alloc, heq, -⟩ := t.reserveFreeRangeIfNeeded_cases span
  rw [hrsv] at heq
  obtain rfl : reserved = _ := heq
  rfl

theorem young_release (t : SpanTable) (span : SpanId) : (t.release span).2.young = t.young := by
  rcases t.release_outcome span with ⟨e, cap, alloc, -, heq⟩ | ⟨s, reserved, -, -, hrsv, heq⟩
  · rw [heq]
    rfl
  · have hflag : ((reserved.vacate span).modifyEntry span fun ent =>
        { ent with inEdenPool := false }).young = (reserved.vacate span).young := by
      apply young_modifyEntry
      · exact fun _ => rfl
      · exact fun _ => rfl
    rw [heq]
    exact Eq.trans hflag (Eq.trans (young_vacate reserved span) (young_reserved hrsv))

theorem young_releaseUnpublishedLarge (t : SpanTable) (ref : RawHeapRef) :
    (t.releaseUnpublishedLarge ref).2.young = t.young := by
  rcases t.releaseUnpublishedLarge_outcome ref with
    ⟨e, cap, alloc, -, heq⟩ | ⟨s, reclaim, reserved, -, hrsv, heq⟩
  · rw [heq]
    rfl
  · rw [heq]
    exact Eq.trans (young_vacateRange reserved _ _) (young_reserved hrsv)

theorem young_advanceYoungCohort (t : SpanTable) (span : SpanId) (promotionAge : Nat)
    (promoteEarly : Bool) :
    (t.advanceYoungCohort span promotionAge promoteEarly).2.young = t.young := by
  simp only [advanceYoungCohort]
  split
  · rfl
  · split
    · have hlk : (if (t.setSpace span .old).dirtyOldCardCount span ≠ 0 then
          (t.setSpace span .old).linkRememberedSource span
        else t.setSpace span .old).young = t.young := by
        split
        · rw [young_linkRememberedSource]
          exact young_modifyKind ..
        · exact young_modifyKind ..
      exact hlk
    · exact young_modifyKind ..

theorem young_poolEmptyYoung (t : SpanTable) (span : SpanId) :
    (t.poolEmptyYoung span).young = t.young := by
  have he : (t.modifyEntry span fun ent =>
      { ent with
        generation := (ent.generation + 1) % 2 ^ 32
        kind := ent.kind.map (SpanKind.mapSmall fun metadata =>
          .new metadata.sizeClass .eden ((ent.generation + 1) % 2 ^ 32))
        inEdenPool := true }).young = t.young := by
    apply young_modifyEntry
    · exact fun _ => rfl
    · exact fun _ => rfl
  exact he

theorem young_rebuildOldFreeList (t : SpanTable) (span : SpanId) :
    (t.rebuildOldFreeList span).young = t.young := by
  simp only [rebuildOldFreeList]
  split
  · rfl
  · split
    · exact young_modifyKind ..
    · rfl

theorem YoungLinked.sweepStep {g : Generation} {epoch : CollectionEpoch} (h : t.YoungLinked)
    (hstep : SweepStep g epoch t t') : t'.YoungLinked := by
  cases hstep with
  | reserve => exact h.of_young rfl
  | unpublish _ _ hdrop =>
    obtain ⟨s, slot, metadata, -, -, -, rfl⟩ := unpublishSmallForDrop_eq_some hdrop
    exact h.of_young (young_modifyKind ..)
  | pool => exact h.of_young (young_poolEmptyYoung ..)
  | @release _ span _ hrel =>
    have hyoung := young_release t span
    rw [hrel] at hyoung
    exact h.of_young hyoung
  | advance => exact h.of_young (young_advanceYoungCohort ..)
  | freeList => exact h.of_young (young_rebuildOldFreeList ..)
  | unpublishLarge _ _ hdrop =>
    obtain ⟨s, -, rfl⟩ := unpublishLargeForDrop_eq_ok hdrop
    exact h.of_young (young_modifyKind ..)
  | @releaseLarge _ ref _ _ hrel =>
    have hyoung := young_releaseUnpublishedLarge t ref
    rw [hrel] at hyoung
    exact h.of_young hyoung
  | compact hcompact =>
    obtain ⟨l, hl, -⟩ := linked_compactYoungSpans h hcompact
    exact ⟨l, hl⟩

end SpanTable

end TachyonEngine.Gc
