import TachyonEngine.Gc.Slots
import TachyonEngine.Gc.Tracking

/-!
# What an allocation installs

Seen entry by entry, allocating a span either changes nothing or fills entries that were
vacant. `Installs` says so for a small span and `InstallsLarge` for the range of a large
object; both speak about contents and about the pool flag, and leave the links aside.
-/

namespace TachyonEngine.Gc

open Lib.Traversal Lib.Capacity SpanTable List

/-- What an allocation leaves of a span: its class, its cohort and its marks. -/
structure SmallSpan.Keeps (s s' : SmallSpan) : Prop where
  sizeClass : s'.metadata.sizeClass = s.metadata.sizeClass
  space : s'.metadata.space = s.metadata.space
  marks : s'.metadata.marks = s.metadata.marks

namespace SpanTable

variable {t t' t'' : SpanTable} {span i : SpanId}

/-- Whether an entry is flagged as pooled. -/
def pooled (t : SpanTable) (span : SpanId) : Bool := (t.entries[span]?).any (·.inEdenPool)

/-- Contents and pool flags are the same. -/
def SameSpans (t t' : SpanTable) : Prop := ∀ i, t'.kind i = t.kind i ∧ t'.pooled i = t.pooled i

theorem SameSpans.refl (t : SpanTable) : SameSpans t t := fun _ => ⟨rfl, rfl⟩

theorem SameSpans.trans (h : SameSpans t t') (h' : SameSpans t' t'') : SameSpans t t'' :=
  fun i => ⟨(h' i).1.trans (h i).1, (h' i).2.trans (h i).2⟩

theorem SameSpans.of_entries (h : t'.entries = t.entries) : SameSpans t t' := by
  intro i
  unfold kind pooled
  rw [h]
  exact ⟨rfl, rfl⟩

theorem pooled_modifyEntry (t : SpanTable) (span i : SpanId) (f : SpanEntry → SpanEntry) :
    (t.modifyEntry span f).pooled i =
      if span = i then (t.entries[i]?).any fun ent => (f ent).inEdenPool else t.pooled i := by
  unfold pooled
  rw [getElem?_modifyEntry]
  split
  · cases t.entries[i]? <;> rfl
  · rfl

variable {f : SpanEntry → SpanEntry}

/-- A change of links alone. -/
theorem SameSpans.modifyEntry (hk : ∀ ent : SpanEntry, (f ent).kind = ent.kind) (hpool : ∀ ent :
    SpanEntry, (f ent).inEdenPool = ent.inEdenPool) (span : SpanId) :
    SameSpans t (t.modifyEntry span f) := by
  intro i
  refine ⟨kind_modifyEntry_of_kind hk span i, ?_⟩
  rw [pooled_modifyEntry]
  split
  · simp only [hpool]
    rfl
  · rfl

theorem SameSpans.linkRememberedSource (t : SpanTable) (span : SpanId) :
    SameSpans t (t.linkRememberedSource span) := by
  have hlink : SameSpans t (t.modifyEntry span fun ent =>
      { ent with rememberedNext := t.rememberedHead, inRememberedSet := true }) := by
    apply SameSpans.modifyEntry
    · exact fun _ => rfl
    · exact fun _ => rfl
  unfold SpanTable.linkRememberedSource
  split
  · exact .refl t
  · exact hlink

theorem SameSpans.linkYoungSpan (t : SpanTable) (span : SpanId) :
    SameSpans t (t.linkYoungSpan span) := by
  have hlink : SameSpans t (t.modifyEntry span fun ent =>
      { ent with youngNext := t.youngHead, inYoungSet := true }) := by
    apply SameSpans.modifyEntry
    · exact fun _ => rfl
    · exact fun _ => rfl
  unfold SpanTable.linkYoungSpan
  split
  · exact .refl t
  · exact hlink

theorem SameSpans.publishSmall (t : SpanTable) (span : SpanId) (space : SpanSpace) :
    SameSpans t (t.publishSmall span space) := by
  unfold SpanTable.publishSmall
  split
  · exact .refl t
  · exact (SameSpans.linkYoungSpan t span).trans (.of_entries rfl)

/-- A change of contents keeps the pool flags. -/
theorem pooled_modifyKind (t : SpanTable) (span i : SpanId) (f : SpanKind → SpanKind) :
    (t.modifyKind span f).pooled i = t.pooled i := by
  unfold modifyKind
  rw [pooled_modifyEntry]
  split
  · rfl
  · rfl

/-! ## Small spans -/

/-- A new small span fills a vacant entry, and no other entry changes. -/
structure Installs (t : SpanTable) (span : SpanId) (sizeClass : SizeClass) (space : SpanSpace)
    (t' : SpanTable) : Prop where
  vacant : t.kind span = none
  kind : ∃ storage generation, t'.kind span =
    some (.small { storage := storage, metadata := .new sizeClass space generation })
  flag : t'.pooled span = false
  others : ∀ i, i ≠ span → t'.kind i = t.kind i ∧ t'.pooled i = t.pooled i

variable {sizeClass : SizeClass} {space : SpanSpace}

theorem Installs.same (h : Installs t span sizeClass space t') (hs : SameSpans t' t'') :
    Installs t span sizeClass space t'' where
  vacant := h.vacant
  kind := by
    rw [(hs span).1]
    exact h.kind
  flag := (hs span).2.trans h.flag
  others := fun i hi => ⟨(hs i).1.trans (h.others i hi).1, (hs i).2.trans (h.others i hi).2⟩

theorem Installs.head (hs : SameSpans t t') (h : Installs t' span sizeClass space t'') :
    Installs t span sizeClass space t'' where
  vacant := (hs span).1 ▸ h.vacant
  kind := h.kind
  flag := h.flag
  others := fun i hi => ⟨(h.others i hi).1.trans (hs i).1, (h.others i hi).2.trans (hs i).2⟩

variable {owner : Nat} {ranges : List FreeSpanRange}

theorem Tracked.vacant_of_take {cnt : Nat} (h : t.Tracked) (htake : TakesRange t.freeRanges owner
    cnt ranges) {i : Nat} (hi : owner ≤ i ∧ i < owner + cnt) :
    i < t.entries.length ∧ t.kind i = none := by
  obtain ⟨hlt, hshape⟩ := (h.free_iff i).mp ((htake.free_iff i).mpr (Or.inl hi))
  refine ⟨hlt, ?_⟩
  cases hk : t.kind i with
  | none => rfl
  | some kind =>
    unfold shape at hshape
    rw [hk] at hshape
    cases hshape

theorem Tracked.installs_reused (h : t.Tracked) (htake : TakesRange t.freeRanges span 1 ranges)
    (sizeClass : SizeClass) (space : SpanSpace) :
    Installs t span sizeClass space
      (({ t with freeRanges := ranges } : SpanTable).installReused span sizeClass space) := by
  obtain ⟨hlt, hvac⟩ := h.vacant_of_take htake ⟨le_refl _, Nat.lt_succ_self _⟩
  refine ⟨hvac, ⟨.new 1, t.entries[span].generation, ?_⟩, ?_, ?_⟩
  · refine (kind_modifyEntry t span span _).trans ?_
    rw [if_pos rfl, getElem?_eq_getElem hlt]
    rfl
  · refine (pooled_modifyEntry t span span _).trans ?_
    rw [if_pos rfl, getElem?_eq_getElem hlt]
    rfl
  · intro i hi
    refine ⟨(kind_modifyEntry t span i _).trans ?_, (pooled_modifyEntry t span i _).trans ?_⟩
    · rw [if_neg (Ne.symm hi)]
    · rw [if_neg (Ne.symm hi)]

theorem installs_append (t : SpanTable) (sizeClass : SizeClass) (space : SpanSpace) :
    Installs t t.entries.length sizeClass space
      { t with
        entries := t.entries ++
          [.new (.small { storage := .new 1, metadata := .new sizeClass space 0 })]
        liveSpans := t.liveSpans + 1 } := by
  refine ⟨?_, ⟨.new 1, 0, ?_⟩, ?_, ?_⟩
  · unfold kind
    rw [getElem?_eq_none (le_refl _)]
    rfl
  · unfold kind
    rw [getElem?_append_right (le_refl _), Nat.sub_self]
    rfl
  · unfold pooled
    rw [getElem?_append_right (le_refl _), Nat.sub_self]
    rfl
  · intro i hi
    have he : (t.entries ++ [SpanEntry.new (.small
        { storage := .new 1, metadata := .new sizeClass space 0 })])[i]? = t.entries[i]? := by
      rcases lt_or_ge i t.entries.length with hlt | hge
      · exact List.getElem?_append_left hlt
      · have hgt : t.entries.length < i := lt_of_le_of_ne hge (Ne.symm hi)
        rw [getElem?_eq_none hge, getElem?_eq_none]
        rw [length_append]
        exact hgt
    unfold kind pooled
    rw [he]
    exact ⟨rfl, rfl⟩

/-- Appending a small span fills the entry behind the last one, or fails without a trace. -/
theorem installNew_installs (t : SpanTable) (sizeClass : SizeClass) (space : SpanSpace) :
    (∃ e, (t.installNew sizeClass space).1 = .error e ∧
        SameSpans t (t.installNew sizeClass space).2) ∨
      ∃ span, (t.installNew sizeClass space).1 = .ok span ∧
        Installs t span sizeClass space (t.installNew sizeClass space).2 := by
  unfold SpanTable.installNew
  split
  · exact Or.inl ⟨_, rfl, .refl t⟩
  · obtain ⟨cap, alloc, hrsv⟩ := t.reserveEntries_facts 1
    generalize t.reserveEntries 1 = reserved at hrsv ⊢
    obtain ⟨_ | _, reserved⟩ := reserved
    · subst hrsv
      exact Or.inl ⟨_, rfl, .of_entries rfl⟩
    · subst hrsv
      have hs : SameSpans t
          { t with entriesCapacity := cap, allocator := alloc } := .of_entries rfl
      exact Or.inr ⟨_, rfl, Installs.head hs (installs_append _ sizeClass space)⟩

/-- Allocating a small span fills a vacant entry, or fails without a trace. -/
theorem Tracked.tryAllocateSmall_installs (h : t.Tracked) (sizeClass : SizeClass)
    (space : SpanSpace) : (∃ e, (t.tryAllocateSmall sizeClass space).1 = .error e ∧
        SameSpans t (t.tryAllocateSmall sizeClass space).2) ∨
      ∃ span, (t.tryAllocateSmall sizeClass space).1 = .ok span ∧
        Installs t span sizeClass space (t.tryAllocateSmall sizeClass space).2 := by
  unfold SpanTable.tryAllocateSmall
  rcases t.allocator.request with ⟨_ | _, alloc⟩
  · exact Or.inl ⟨_, rfl, .of_entries rfl⟩
  · simp only
    rcases alloc.request with ⟨_ | _, alloc'⟩
    · exact Or.inl ⟨_, rfl, .of_entries rfl⟩
    · rcases htake : takeFreeSpanRange 1 t.freeRanges with _ | ⟨span, ranges⟩
      · have hhead : SameSpans t { t with allocator := alloc' } := .of_entries rfl
        have hnew := installNew_installs { t with allocator := alloc' } sizeClass space
        simp only
        generalize SpanTable.installNew { t with allocator := alloc' } sizeClass space = res
          at hnew ⊢
        rcases hnew with ⟨e, heq, hs⟩ | ⟨span, heq, hinstalls⟩
        · obtain ⟨_, tbl⟩ := res
          cases heq
          exact Or.inl ⟨e, rfl, hs⟩
        · obtain ⟨_, tbl⟩ := res
          cases heq
          exact Or.inr ⟨span, rfl,
            Installs.head hhead (Installs.same hinstalls (.publishSmall _ _ _))⟩
      · have hrange := takesRange_takeFreeSpanRange one_pos h.ranges htake
        exact Or.inr ⟨span, rfl,
          Installs.same (h.installs_reused hrange sizeClass space) (.publishSmall _ _ _)⟩

/-! ## Large objects -/

/-- The range of a large object fills vacant entries, whose flags stay. -/
structure InstallsLarge (t t' : SpanTable) : Prop where
  entry : ∀ i, (t'.kind i = t.kind i ∧ t'.pooled i = t.pooled i) ∨
    (t.kind i = none ∧ (∃ kind, t'.kind i = some kind ∧ kind.markEpoch = none ∧
      ∀ s, kind ≠ .small s) ∧ (t'.pooled i = true → t.pooled i = true))

theorem InstallsLarge.of_same (h : SameSpans t t') : InstallsLarge t t' := ⟨fun i => Or.inl (h i)⟩

theorem InstallsLarge.same (h : InstallsLarge t t') (hs : SameSpans t' t'') :
    InstallsLarge t t'' := by
  constructor
  intro i
  obtain ⟨hk, hpool⟩ := hs i
  rw [hk, hpool]
  exact h.entry i

theorem InstallsLarge.head (hs : SameSpans t t') (h : InstallsLarge t' t'') :
    InstallsLarge t t'' := by
  constructor
  intro i
  obtain ⟨hk, hpool⟩ := hs i
  rw [← hk, ← hpool]
  exact h.entry i

theorem largeKind_facts (owner : SpanId) (storage : SpanStorage)
    (objectBytes spanCount generation ordinal : Nat) :
    (largeKind owner storage objectBytes spanCount generation ordinal).markEpoch = none ∧
      ∀ s, largeKind owner storage objectBytes spanCount generation ordinal ≠ .small s := by
  unfold largeKind
  split
  · exact ⟨rfl, fun s heq => by cases heq⟩
  · exact ⟨rfl, fun s heq => by cases heq⟩

theorem installsLarge_reused {spanCount : Nat} (storage : SpanStorage) (objectBytes : Nat) (hvac : ∀
    i, owner ≤ i ∧ i < owner + spanCount → t.kind i = none) :
    InstallsLarge t (t.installLargeRange (.reused owner) storage objectBytes spanCount) := by
  unfold installLargeRange
  -- One entry after the other, each of them vacant at the start.
  have hfold : ∀ ordinals : List Nat, (∀ ordinal ∈ ordinals, ordinal < spanCount) →
      ∀ s : SpanTable, InstallsLarge t s →
        InstallsLarge t (ordinals.foldl (fun (t : SpanTable) ordinal =>
          t.modifyEntry (owner + ordinal) fun ent =>
            { ent with
              kind := some (largeKind owner storage objectBytes spanCount ent.generation
                ordinal) }) s) := by
    intro ordinals
    induction ordinals with
    | nil => exact fun _ s hs => hs
    | cons ordinal ordinals ih =>
      intro hlt s hs
      refine ih (fun ordinal' hm => hlt ordinal' (mem_cons_of_mem _ hm)) _ ?_
      constructor
      intro i
      rw [kind_modifyEntry, pooled_modifyEntry]
      have hordinal := hlt ordinal (mem_cons_self ..)
      by_cases hi : owner + ordinal = i
      · rw [if_pos hi, if_pos hi]
        cases he : s.entries[i]? with
        | none =>
          have hs' := hs.entry i
          unfold kind pooled at hs'
          rw [he] at hs'
          exact hs'
        | some ent =>
          have hpool : (Option.any (fun ent : SpanEntry => ent.inEdenPool)
              (some ent)) = s.pooled i := by
            unfold pooled
            rw [he]
          refine Or.inr ⟨hvac i (by omega), ⟨_, rfl, largeKind_facts _ _ _ _ _ _⟩, ?_⟩
          intro hflag
          have hflag' : s.pooled i = true := hpool ▸ hflag
          rcases hs.entry i with ⟨-, heq⟩ | ⟨-, -, himp⟩
          · exact heq ▸ hflag'
          · exact himp hflag'
      · rw [if_neg hi, if_neg hi]
        exact hs.entry i
  exact hfold _ (fun ordinal hm => mem_range.mp hm) t (.of_same (.refl t))

theorem installsLarge_append (t : SpanTable) (storage : SpanStorage) (objectBytes spanCount : Nat) :
    InstallsLarge t
      (t.installLargeRange (.append t.entries.length) storage objectBytes spanCount) := by
  constructor
  intro i
  unfold installLargeRange kind pooled
  rcases lt_or_ge i t.entries.length with hlt | hge
  · rw [List.getElem?_append_left hlt]
    exact Or.inl ⟨rfl, rfl⟩
  · rw [getElem?_append_right hge, getElem?_eq_none hge, getElem?_map]
    cases hordinal : (range spanCount)[i - t.entries.length]? with
    | none => exact Or.inl ⟨rfl, rfl⟩
    | some ordinal =>
      exact Or.inr ⟨rfl, ⟨_, rfl, largeKind_facts _ _ _ _ _ _⟩, fun hflag => by cases hflag⟩

variable {layout : Layout} {header : GcHeader} {payload : List TraceField}

/-- Allocating a large object fills vacant entries, or fails without a trace. -/
theorem Tracked.tryAllocateLarge_installs {res : Except LargeAllocationError (RawHeapRef × Nat)}
    (h : t.Tracked) (hal : t.tryAllocateLarge layout header payload = some (res, t')) :
    InstallsLarge t t' := by
  obtain ⟨cap, alloc, rfl | ⟨storage, objectBytes, spanCount, hc,
    ⟨owner, ranges, htake, rfl⟩ | ⟨hbound, rfl⟩⟩⟩ := tryAllocateLarge_cases hal
  · exact .of_same (.of_entries rfl)
  · have hrange := takesRange_takeFreeSpanRange hc h.ranges htake
    have hhead : SameSpans t { t with allocator := alloc, freeRanges := ranges } := .of_entries rfl
    have hinstalls := InstallsLarge.head hhead (installsLarge_reused storage objectBytes
      fun i hi => (h.vacant_of_take hrange hi).2)
    exact (hinstalls.same (.linkRememberedSource _ owner)).same (.of_entries rfl)
  · have hhead : SameSpans t { t with entriesCapacity := cap, allocator := alloc } :=
      .of_entries rfl
    have hinstalls := InstallsLarge.head hhead
      (installsLarge_append _ storage objectBytes spanCount)
    exact (hinstalls.same (.linkRememberedSource _ t.entries.length)).same (.of_entries rfl)

/-! ## The chain of young spans -/

theorem young_ext (hhead : t'.youngHead = t.youngHead) (hn : ∀ i, t'.youngNext i = t.youngNext i)
    (hlk : ∀ i, t'.young.linked i = t.young.linked i) : t'.young = t.young := by
  simp only [young, Links.mk.injEq]
  exact ⟨hhead, funext hn, funext hlk⟩

/-- A change of one entry that keeps its link and its flag. -/
theorem young_modifyEntry (hn : ∀ ent : SpanEntry, (f ent).youngNext = ent.youngNext) (hflag : ∀ ent
    : SpanEntry, (f ent).inYoungSet = ent.inYoungSet) (span : SpanId) :
    (t.modifyEntry span f).young = t.young := by
  apply young_ext
  · rfl
  · intro i
    simp only [youngNext, young, getElem?_modifyEntry]
    split
    · cases t.entries[i]? with
      | none => rfl
      | some ent => exact hn ent
    · rfl
  · intro i
    simp only [young, getElem?_modifyEntry]
    split
    · cases t.entries[i]? with
      | none => rfl
      | some ent => exact hflag ent
    · rfl

theorem young_modifyKind (t : SpanTable) (span : SpanId) (f : SpanKind → SpanKind) :
    (t.modifyKind span f).young = t.young := by
  apply young_modifyEntry
  · intro ent
    rfl
  · intro ent
    rfl

theorem young_linkRememberedSource (t : SpanTable) (span : SpanId) :
    (t.linkRememberedSource span).young = t.young := by
  have hlink : (t.modifyEntry span fun ent =>
      { ent with rememberedNext := t.rememberedHead, inRememberedSet := true }).young =
        t.young := by
    apply young_modifyEntry
    · intro ent
      rfl
    · intro ent
      rfl
  simp only [linkRememberedSource]
  split
  · rfl
  · exact hlink

/-! ## Objects -/

variable {s s' : SmallSpan}

theorem keeps_bump {slot : SlotIndex} (h : (match s.metadata.takeBumpSlot with
      | none => Except.error (SmallAllocationError.spanFull span)
      | some (slot, metadata) => .ok (slot, { s with metadata := metadata })) =
        Except.ok (slot, s')) : s.Keeps s' := by
  simp only [SmallSpanMetadata.takeBumpSlot] at h
  split at h
  · cases h
  next htake =>
    split at htake
    · cases htake
      cases h
      exact ⟨rfl, rfl, rfl⟩
    · cases htake

theorem keeps_takeAllocationSlot {slot : SlotIndex}
    (h : takeAllocationSlot s span = some (.ok (slot, s'))) : s.Keeps s' := by
  simp only [takeAllocationSlot] at h
  split at h
  · cases h
  · exact keeps_bump (Option.some.inj h)
  · split at h
    · exact keeps_bump (Option.some.inj h)
    · split at h
      · cases h
      · cases h
        exact ⟨rfl, rfl, rfl⟩

theorem keeps_publishObject {slot : SlotIndex} {off : SpanOffset} {remember : Bool}
    (h : publishObject s slot layout header payload = some (off, remember, s')) : s.Keeps s' := by
  simp only [publishObject, SmallSpanMetadata.commitAllocation] at h
  split at h
  · cases h
  · split at h
    · cases h
    · split at h
      · cases h
      next metadata hcommit =>
        split_ifs at hcommit
        cases hcommit
        split at h
        · cases h
          exact ⟨rfl, rfl, rfl⟩
        · cases h
          exact ⟨rfl, rfl, rfl⟩

/-- An allocation changes one small span, and that only inside. -/
structure Allocates (t : SpanTable) (span : SpanId) (t' : SpanTable) : Prop where
  kind : t'.kind span = t.kind span ∨ ∃ s s', t.kind span = some (.small s) ∧
    t'.kind span = some (.small s') ∧ s.Keeps s'
  others : ∀ i, i ≠ span → t'.kind i = t.kind i
  flags : ∀ i, t'.pooled i = t.pooled i
  tracked : t.Tracked → t'.Tracked
  young : t'.young = t.young

theorem Allocates.refl (t : SpanTable) (span : SpanId) : Allocates t span t :=
  ⟨Or.inl rfl, fun _ _ => rfl, fun _ => rfl, fun h => h, rfl⟩

theorem Allocates.linkRememberedSource (h : Allocates t span t') :
    Allocates t span (t'.linkRememberedSource span) where
  kind := by
    rw [kind_linkRememberedSource]
    exact h.kind
  others := fun i hi => (kind_linkRememberedSource t' span i).trans (h.others i hi)
  flags := fun i => (SameSpans.linkRememberedSource t' span i).2.trans (h.flags i)
  tracked := fun htracked => (h.tracked htracked).linkRememberedSource span
  young := (young_linkRememberedSource t' span).trans h.young

theorem allocates_modifyKind (hk : t.kind span = some (.small s)) (hkeeps : s.Keeps s') :
    Allocates t span (t.modifyKind span fun _ => .small s') where
  kind := by
    refine Or.inr ⟨s, s', hk, ?_, hkeeps⟩
    rw [kind_modifyKind, if_pos rfl, hk]
    rfl
  others := by
    intro i hi
    rw [kind_modifyKind, if_neg (Ne.symm hi)]
  flags := fun i => pooled_modifyKind t span i _
  tracked := by
    intro htracked
    refine htracked.congr (length_modifyEntry ..) ?_ rfl rfl (le_refl _)
    intro i
    simp only [shape, kind_modifyKind]
    split_ifs with heq
    · rw [← heq, hk]
      rfl
    · rfl
  young := young_modifyKind ..

theorem allocates_tryAllocateInSpan {res : Except SmallAllocationError RawHeapRef}
    (h : t.tryAllocateInSpan span layout header payload = some (res, t')) :
    Allocates t span t' := by
  simp only [tryAllocateInSpan] at h
  split at h
  · cases h
    exact .refl t span
  · split at h
    · cases h
      exact .refl t span
    next ent he =>
      have hk : t.kind span = ent.kind := by
        simp only [kind, he, Option.bind_some]
      split at h
      · cases h
        exact .refl t span
      · cases h
        exact .refl t span
      · cases h
        exact .refl t span
      next s hsm =>
        split at h
        · cases h
          exact .refl t span
        · split at h
          · cases h
          · cases h
            exact .refl t span
          next slot selected htake =>
            split at h
            · cases h
            next off remember published hpublish =>
              have hselect := keeps_takeAllocationSlot htake
              have hwrite := keeps_publishObject hpublish
              have hkeeps : s.Keeps published :=
                ⟨hwrite.sizeClass.trans hselect.sizeClass, hwrite.space.trans hselect.space,
                  hwrite.marks.trans hselect.marks⟩
              have hallocates := allocates_modifyKind (hk.trans hsm) hkeeps
              cases h
              split
              · exact hallocates.linkRememberedSource
              · exact hallocates

end SpanTable

end TachyonEngine.Gc
