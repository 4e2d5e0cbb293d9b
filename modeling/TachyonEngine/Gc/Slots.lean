import TachyonEngine.Gc.SweepKeeps

/-!
# The slots of a small span

Allocated slots lie below the bump cursor and are counted, and the free list, whose links
are stored in the dead slots themselves, runs through dead slots below the cursor and ends.
`SlotsSound` says so of one span. A slot that an allocation takes comes from the cursor or
from the head of the free list, so it is dead, and publishing the object cannot fail.
-/

namespace TachyonEngine.Gc

open Lib.Traversal Lib.Capacity List

theorem SpanStorage.readFreeNext_congr {s s' : SpanStorage} {off : SpanOffset}
    (h : (s'.cells off).header.typeIdField = (s.cells off).header.typeIdField) :
    s'.readFreeNext off = s.readFreeNext off := by
  unfold readFreeNext
  simp only [h]

/-- A link reads back as it was written. -/
theorem SpanStorage.readFreeNext_writeFreeNext (s : SpanStorage) (off : SpanOffset)
    (next : Option SlotIndex) : (s.writeFreeNext off next).readFreeNext off = next := by
  cases next with
  | none => simp [readFreeNext, writeFreeNext]
  | some slot =>
    simp [readFreeNext, writeFreeNext]

namespace SmallSpan

variable {s s' : SmallSpan} {slot : SlotIndex}

/-- The link stored in a dead slot. -/
def freeNext (s : SmallSpan) (slot : SlotIndex) : Option SlotIndex :=
  s.storage.readFreeNext (s.metadata.sizeClass.slotOffset slot)

/-- Slots are partitioned, counted, and chained while they are dead. -/
structure SlotsSound (s : SmallSpan) : Prop where
  below : ∀ slot ∈ s.metadata.allocations, slot.val < s.metadata.bumpCursor
  cursor : s.metadata.bumpCursor ≤ s.metadata.sizeClass.slotCount
  slots : s.metadata.allocatedSlots = s.metadata.allocations.card
  bytes : s.metadata.allocatedBytes = s.metadata.allocatedSlots * s.metadata.sizeClass.slotSize
  free : ∃ l, Chain s.freeNext s.metadata.freeListHead l ∧
    ∀ slot ∈ l, slot ∉ s.metadata.allocations ∧ slot.val < s.metadata.bumpCursor

/-- An empty span, whatever its storage holds. -/
theorem SlotsSound.new (storage : SpanStorage) (sizeClass : SizeClass) (space : SpanSpace)
    (generation : Nat) :
    SlotsSound { storage := storage, metadata := .new sizeClass space generation } where
  below := fun _ h => absurd h (Finset.notMem_empty _)
  cursor := Nat.zero_le _
  slots := rfl
  bytes := (Nat.zero_mul _).symm
  free := ⟨[], .nil, fun _ h => absurd h not_mem_nil⟩

/-- Marks, cards, cohort and fields do not matter. -/
theorem SlotsSound.congr (h : s.SlotsSound)
    (hmetadata : ∃ space marks cards generation, s'.metadata =
      { s.metadata with
        space := space, marks := marks, cards := cards, reuseGeneration := generation })
    (hheader : ∀ off, (s'.storage.cells off).header.typeIdField =
      (s.storage.cells off).header.typeIdField) : s'.SlotsSound := by
  obtain ⟨space, marks, cards, generation, heq⟩ := hmetadata
  have hn : s'.freeNext = s.freeNext := by
    funext slot
    unfold freeNext
    rw [heq]
    exact SpanStorage.readFreeNext_congr (hheader _)
  obtain ⟨l, hchain, hdead⟩ := h.free
  refine ⟨?_, ?_, ?_, ?_, l, ?_, ?_⟩
  · rw [heq]
    exact h.below
  · rw [heq]
    exact h.cursor
  · rw [heq]
    exact h.slots
  · rw [heq]
    exact h.bytes
  · rw [hn, heq]
    exact hchain
  · rw [heq]
    exact hdead

/-- The offset of a slot below the cursor, and of no other. -/
theorem SlotsSound.offset (h : s.SlotsSound) (hsl : slot.val < s.metadata.bumpCursor) :
    s.metadata.sizeClass.slotForOffset (s.metadata.sizeClass.slotOffset slot) = some slot :=
  SizeClass.slotForOffset_slotOffset (lt_of_lt_of_le hsl h.cursor)

/-! ## Reclaiming -/

variable {metadata : SmallSpanMetadata}

theorem SlotsSound.reclaim (h : s.SlotsSound)
    (hrcl : s.metadata.reclaimAllocation slot = some metadata) :
    SlotsSound { s with metadata := metadata } := by
  obtain ⟨hm, rfl⟩ := SmallSpanMetadata.reclaimAllocation_eq_some hrcl
  obtain ⟨l, hchain, hdead⟩ := h.free
  have hcard : (s.metadata.allocations.erase slot).card = s.metadata.allocations.card - 1 :=
    Finset.card_erase_of_mem hm
  refine ⟨?_, h.cursor, ?_, ?_, l, hchain, ?_⟩
  · intro slot' hsl'
    exact h.below slot' (Finset.mem_of_mem_erase hsl')
  · rw [hcard, h.slots]
  · rw [h.bytes, Nat.sub_mul, Nat.one_mul]
  · intro slot' hsl'
    obtain ⟨hfree, hbl⟩ := hdead slot' hsl'
    exact ⟨fun hsl'' => hfree (Finset.mem_of_mem_erase hsl''), hbl⟩

variable {off : SpanOffset}

/-- A dead slot below the cursor that is not on the free list goes to its front. -/
theorem SlotsSound.push (h : s.SlotsSound) {l : List SlotIndex}
    (hchain : Chain s.freeNext s.metadata.freeListHead l)
    (hdead : ∀ slot ∈ l, slot ∉ s.metadata.allocations ∧ slot.val < s.metadata.bumpCursor)
    (hsl : s.metadata.sizeClass.slotForOffset off = some slot)
    (hfree : slot ∉ s.metadata.allocations) (hbl : slot.val < s.metadata.bumpCursor)
    (hl : slot ∉ l) :
    let s' : SmallSpan :=
      { storage := s.storage.writeFreeNext off s.metadata.freeListHead
        metadata := { s.metadata with freeListHead := some slot } }
    s'.SlotsSound ∧ Chain s'.freeNext s'.metadata.freeListHead (slot :: l) := by
  intro s'
  have hoff : s.metadata.sizeClass.slotOffset slot = off :=
    SizeClass.slotOffset_of_slotForOffset hsl
  -- The link is written at the offset of this slot, and reads back as the old head.
  have hself : s'.freeNext slot = s.metadata.freeListHead := by
    unfold freeNext
    simp only [s', hoff]
    exact SpanStorage.readFreeNext_writeFreeNext _ _ _
  have ho : ∀ slot' ∈ l, s'.freeNext slot' = s.freeNext slot' := by
    intro slot' hsl'
    have hne : s.metadata.sizeClass.slotOffset slot' ≠ off := by
      intro heq
      have hsl'' := h.offset (hdead slot' hsl').2
      rw [heq] at hsl''
      exact hl (SizeClass.slot_unique hsl hsl'' ▸ hsl')
    refine SpanStorage.readFreeNext_congr ?_
    simp only [s', SpanStorage.writeFreeNext, Function.update_of_ne hne]
  have hchain' : Chain s'.freeNext s'.metadata.freeListHead (slot :: l) := by
    refine .cons ?_
    rw [hself]
    exact hchain.congr ho
  refine ⟨⟨h.below, h.cursor, h.slots, h.bytes, slot :: l, hchain', ?_⟩, hchain'⟩
  intro slot' hsl'
  rcases mem_cons.mp hsl' with rfl | hsl'
  · exact ⟨hfree, hbl⟩
  · exact hdead slot' hsl'

/-- What `reclaimSmallAfterDrop` leaves of the span. -/
theorem SlotsSound.reclaimOld (h : s.SlotsSound)
    (hsl : s.metadata.sizeClass.slotForOffset off = some slot)
    (hrcl : s.metadata.reclaimAllocation slot = some metadata) :
    SlotsSound
      { storage := s.storage.writeFreeNext off metadata.freeListHead
        metadata := { metadata with freeListHead := some slot } } := by
  have hreclaimed := h.reclaim hrcl
  obtain ⟨hm, rfl⟩ := SmallSpanMetadata.reclaimAllocation_eq_some hrcl
  obtain ⟨l, hchain, hdead⟩ := h.free
  have hl : slot ∉ l := fun hl => (hdead slot hl).1 hm
  refine (hreclaimed.push hchain ?_ hsl (Finset.notMem_erase _ _) (h.below slot hm) hl).1
  intro slot' hsl'
  obtain ⟨hfree, hbl⟩ := hdead slot' hsl'
  exact ⟨fun hsl'' => hfree (Finset.mem_of_mem_erase hsl''), hbl⟩

/-- The state of a free-list rebuild: the list so far runs through visited slots. -/
structure Rebuilding (s : SmallSpan) (visited : List SlotIndex) : Prop where
  sound : s.SlotsSound
  chain : ∃ l, Chain s.freeNext s.metadata.freeListHead l ∧
    ∀ slot ∈ l, slot ∈ visited ∧ slot ∉ s.metadata.allocations ∧ slot.val < s.metadata.bumpCursor

theorem Rebuilding.pushFree {visited : List SlotIndex} (h : Rebuilding s visited)
    (hbl : slot.val < s.metadata.bumpCursor) (hvis : slot ∉ visited) :
    Rebuilding (s.pushFree slot) (slot :: visited) := by
  obtain ⟨l, hchain, hdead⟩ := h.chain
  unfold SmallSpan.pushFree
  split_ifs with hfree
  · exact ⟨h.sound, l, hchain, fun slot' hsl' =>
      ⟨mem_cons_of_mem _ (hdead slot' hsl').1, (hdead slot' hsl').2⟩⟩
  · have hsome := SizeClass.offsetForSlot_isSome.mpr (lt_of_lt_of_le hbl h.sound.cursor)
    obtain ⟨off, hoff⟩ := Option.isSome_iff_exists.mp hsome
    rw [hoff]
    obtain ⟨hsound, hchain'⟩ := h.sound.push hchain (fun slot' hsl' => (hdead slot' hsl').2)
      (SizeClass.offsetForSlot_iff_slotForOffset.mp hoff) hfree hbl
      (fun hl => hvis (hdead slot hl).1)
    refine ⟨hsound, slot :: l, hchain', ?_⟩
    intro slot' hsl'
    rcases mem_cons.mp hsl' with rfl | hsl'
    · exact ⟨mem_cons_self .., hfree, hbl⟩
    · exact ⟨mem_cons_of_mem _ (hdead slot' hsl').1, (hdead slot' hsl').2⟩

theorem slotsBelow_facts (cursor : Nat) :
    (slotsBelow cursor).Nodup ∧ ∀ slot ∈ slotsBelow cursor, slot.val < cursor := by
  constructor
  · apply List.Nodup.filterMap _ nodup_range
    intro i j slot hi hj
    simp only [Option.mem_def, Option.dite_none_right_eq_some, Option.some.injEq] at hi hj
    obtain ⟨_, rfl⟩ := hi
    obtain ⟨_, heq⟩ := hj
    exact (Fin.mk.inj heq).symm
  · intro slot hsl
    obtain ⟨i, hi, heq⟩ := mem_filterMap.mp hsl
    simp only [Option.dite_none_right_eq_some, Option.some.injEq] at heq
    obtain ⟨_, rfl⟩ := heq
    exact mem_range.mp hi

theorem SlotsSound.rebuildFreeList (h : s.SlotsSound) : s.rebuildFreeList.SlotsSound := by
  have hfold : ∀ (slots visited : List SlotIndex) (s : SmallSpan), Rebuilding s visited →
      slots.Nodup → (∀ slot ∈ slots, slot ∉ visited) →
      (∀ slot ∈ slots, slot.val < s.metadata.bumpCursor) →
      (slots.foldl SmallSpan.pushFree s).SlotsSound := by
    intro slots
    induction slots with
    | nil => exact fun _ s hs _ _ _ => hs.sound
    | cons slot slots ih =>
      intro visited s hs hnodup hvis hbl
      obtain ⟨hnot, hnodup⟩ := nodup_cons.mp hnodup
      obtain ⟨head, hmeta⟩ := (frees_pushFree s slot).metadata
      refine ih (slot :: visited) _ (hs.pushFree (hbl slot (mem_cons_self ..))
        (hvis slot (mem_cons_self ..))) hnodup ?_ ?_
      · intro slot' hsl' hm
        rcases mem_cons.mp hm with rfl | hm
        · exact hnot hsl'
        · exact hvis slot' (mem_cons_of_mem _ hsl') hm
      · intro slot' hsl'
        rw [hmeta]
        exact hbl slot' (mem_cons_of_mem _ hsl')
  obtain ⟨hnodup, hbl⟩ := slotsBelow_facts s.metadata.bumpCursor
  refine hfold _ [] _ ⟨⟨h.below, h.cursor, h.slots, h.bytes, [], .nil, ?_⟩, [], .nil, ?_⟩ hnodup
    (fun _ _ => not_mem_nil) hbl
  · exact fun _ h => absurd h not_mem_nil
  · exact fun _ h => absurd h not_mem_nil

/-! ## Allocating -/

/-- A slot was selected: it is dead and below the cursor, and it is no longer on the free
list. -/
structure Selects (s : SmallSpan) (slot : SlotIndex) (s' : SmallSpan) : Prop where
  metadata : ∃ cursor head, s'.metadata =
    { s.metadata with bumpCursor := cursor, freeListHead := head }
  storage : s'.storage = s.storage
  sound : s'.SlotsSound
  dead : slot ∉ s'.metadata.allocations
  below : slot.val < s'.metadata.bumpCursor
  free : ∃ l, Chain s'.freeNext s'.metadata.freeListHead l ∧ slot ∉ l ∧
    ∀ slot ∈ l, slot ∉ s'.metadata.allocations ∧ slot.val < s'.metadata.bumpCursor

theorem SlotsSound.takeBumpSlot (h : s.SlotsSound)
    (htake : s.metadata.takeBumpSlot = some (slot, metadata)) :
    Selects s slot { s with metadata := metadata } := by
  unfold SmallSpanMetadata.takeBumpSlot at htake
  split at htake
  next hlt =>
    cases htake
    obtain ⟨l, hchain, hdead⟩ := h.free
    have hdead' : ∀ slot ∈ l, slot ∉ s.metadata.allocations ∧
        slot.val < s.metadata.bumpCursor + 1 :=
      fun slot hsl => ⟨(hdead slot hsl).1, Nat.lt_succ_of_lt (hdead slot hsl).2⟩
    refine ⟨⟨_, _, rfl⟩, rfl, ⟨?_, hlt, h.slots, h.bytes, l, hchain, hdead'⟩, ?_,
      Nat.lt_succ_self _, l, hchain, ?_, hdead'⟩
    · intro slot hsl
      exact Nat.lt_succ_of_lt (h.below slot hsl)
    · intro hm
      exact lt_irrefl _ (h.below _ hm)
    · intro hm
      exact lt_irrefl _ (hdead _ hm).2
  · cases htake

theorem SlotsSound.bump (h : s.SlotsSound) (span : SpanId) (slot : SlotIndex) (s' : SmallSpan)
    (heq : (match s.metadata.takeBumpSlot with
      | none => Except.error (SmallAllocationError.spanFull span)
      | some (slot, metadata) => .ok (slot, { s with metadata := metadata })) =
        Except.ok (slot, s')) : Selects s slot s' := by
  rcases htake : s.metadata.takeBumpSlot with _ | ⟨slot', metadata⟩
  · rw [htake] at heq
    cases heq
  · rw [htake] at heq
    cases heq
    exact h.takeBumpSlot htake

theorem SlotsSound.takeAllocationSlot (h : s.SlotsSound) (span : SpanId) :
    ∃ res, SpanTable.takeAllocationSlot s span = some res ∧
      ∀ slot s', res = .ok (slot, s') → Selects s slot s' := by
  unfold SpanTable.takeAllocationSlot
  simp only
  rcases hspace : s.metadata.space with _ | age | _
  · exact ⟨_, rfl, h.bump span⟩
  · exact ⟨_, rfl, fun _ _ heq => by cases heq⟩
  · rcases hhead : s.metadata.freeListHead with _ | slot
    · exact ⟨_, rfl, h.bump span⟩
    · obtain ⟨l, hchain, hdead⟩ := h.free
      rw [hhead] at hchain
      have hnodup := hchain.nodup
      cases hchain with
      | @cons _ l tail =>
        obtain ⟨hfree, hbl⟩ := hdead slot (mem_cons_self ..)
        have hdead' : ∀ slot ∈ l, slot ∉ s.metadata.allocations ∧
            slot.val < s.metadata.bumpCursor :=
          fun slot' hsl' => hdead slot' (mem_cons_of_mem _ hsl')
        have hsome := SizeClass.offsetForSlot_isSome.mpr (lt_of_lt_of_le hbl h.cursor)
        obtain ⟨off, hoff⟩ := Option.isSome_iff_exists.mp hsome
        -- The next link is read at the offset of the head.
        have hn : s.freeNext slot = s.storage.readFreeNext off := by
          unfold freeNext SizeClass.slotOffset
          rw [hoff]
          rfl
        rw [hn] at tail
        simp only [hoff]
        refine ⟨_, rfl, ?_⟩
        rintro slot' s' ⟨⟩
        exact ⟨⟨s.metadata.bumpCursor, s.storage.readFreeNext off, by rw [← hspace]⟩, rfl,
          ⟨h.below, h.cursor, h.slots, h.bytes, l, tail, hdead'⟩, hfree,
          hbl, l, tail, (nodup_cons.mp hnodup).1, hdead'⟩

/-- A selected slot can be published, and the free list does not see the new object. -/
theorem Selects.commitAllocation {s : SmallSpan} (h : Selects s slot s') (storage : SpanStorage)
    (hsto : ∀ off, s'.metadata.sizeClass.slotForOffset off ≠ some slot →
      storage.cells off = s'.storage.cells off) :
    ∃ metadata, s'.metadata.commitAllocation slot = some metadata ∧
      ∀ cards, SlotsSound { storage := storage, metadata := { metadata with cards := cards } } := by
  unfold SmallSpanMetadata.commitAllocation
  rw [if_neg h.dead]
  refine ⟨_, rfl, ?_⟩
  intro cards
  obtain ⟨l, hchain, hsl, hdead⟩ := h.free
  refine ⟨?_, h.sound.cursor, ?_, ?_, l, ?_, ?_⟩
  · intro slot' hsl'
    rcases Finset.mem_insert.mp hsl' with rfl | hsl'
    · exact h.below
    · exact h.sound.below slot' hsl'
  · rw [Finset.card_insert_of_notMem h.dead, h.sound.slots]
  · simp only
    rw [h.sound.bytes, add_mul, one_mul]
  · apply hchain.congr
    intro slot' hsl'
    refine SpanStorage.readFreeNext_congr ?_
    rw [hsto]
    rw [h.sound.offset (hdead slot' hsl').2]
    rintro ⟨⟩
    exact hsl hsl'
  · intro slot' hsl'
    refine ⟨?_, (hdead slot' hsl').2⟩
    intro hm
    rcases Finset.mem_insert.mp hm with rfl | hm
    · exact hsl hsl'
    · exact (hdead slot' hsl').1 hm

theorem Selects.publishObject {layout : Layout} {header : GcHeader} {payload : List TraceField}
    {remember : Bool} {s s'' : SmallSpan} (h : Selects s slot s')
    (hpublish : SpanTable.publishObject s' slot layout header payload = some (off, remember, s'')) :
    s''.SlotsSound ∧ s.metadata.sizeClass.slotForOffset off = some slot := by
  unfold SpanTable.publishObject at hpublish
  rcases hoff : s'.metadata.sizeClass.offsetForSlot slot with _ | off'
  · rw [hoff] at hpublish
    cases hpublish
  · rw [hoff] at hpublish
    have hsl := SizeClass.offsetForSlot_iff_slotForOffset.mp hoff
    simp only at hpublish
    rcases hobject : s'.storage.initializeObject off' layout header payload with e | storage
    · rw [hobject] at hpublish
      cases hpublish
    · rw [hobject] at hpublish
      have hsto : ∀ off, s'.metadata.sizeClass.slotForOffset off ≠ some slot →
          storage.cells off = s'.storage.cells off := by
        intro off'' hne
        have hne' : off'' ≠ off' := by
          rintro rfl
          exact hne hsl
        unfold SpanStorage.initializeObject at hobject
        split at hobject
        · cases hobject
        · cases hobject
          exact Function.update_of_ne hne' _ _
      obtain ⟨metadata, hcommit, hsound⟩ := h.commitAllocation storage hsto
      obtain ⟨cursor, head, hmetadata⟩ := h.metadata
      have hclass : s.metadata.sizeClass = s'.metadata.sizeClass := by rw [hmetadata]
      simp only [hcommit] at hpublish
      split at hpublish
      · cases hpublish
        exact ⟨hsound _, hclass ▸ hsl⟩
      · cases hpublish
        exact ⟨hsound metadata.cards, hclass ▸ hsl⟩

end SmallSpan

namespace SpanTable

variable {t t' : SpanTable}

/-- The slots of every small span are sound. -/
def SlotsSound (t : SpanTable) : Prop := ∀ span s, t.kind span = some (.small s) → s.SlotsSound

/-- An object goes into a slot that was dead. -/
theorem SlotsSound.tryAllocateInSpan {span : SpanId} {layout : Layout} {header : GcHeader}
    {payload : List TraceField} {res : Except SmallAllocationError RawHeapRef} (h : t.SlotsSound)
    (hal : t.tryAllocateInSpan span layout header payload = some (res, t')) :
    t'.SlotsSound ∧ ∀ ref, res = .ok ref → ref.spanId = span ∧
      ∃ s slot, t.kind span = some (.small s) ∧
        s.metadata.sizeClass.slotForOffset ref.spanOffset = some slot ∧
        slot ∉ s.metadata.allocations := by
  unfold SpanTable.tryAllocateInSpan at hal
  generalize SmallObjectLayout.forType layout = small at hal
  obtain e | small := small
  · cases hal
    exact ⟨h, fun _ heq => by cases heq⟩
  · rcases he : t.entries[span]? with _ | ent
    · rw [he] at hal
      cases hal
      exact ⟨h, fun _ heq => by cases heq⟩
    · rw [he] at hal
      simp only at hal
      have hk : t.kind span = ent.kind := by
        unfold kind
        rw [he]
        rfl
      rcases hcase : ent.kind with _ | ⟨s⟩ | s | ⟨owner, ordinal⟩
      · rw [hcase] at hal
        cases hal
        exact ⟨h, fun _ heq => by cases heq⟩
      · rw [hcase] at hal
        simp only at hal
        have hs := h span s (hk.trans hcase)
        split at hal
        · cases hal
          exact ⟨h, fun _ heq => by cases heq⟩
        · obtain ⟨selected, htake, hselects⟩ := hs.takeAllocationSlot span
          rw [htake] at hal
          obtain e | ⟨slot, s'⟩ := selected
          · cases hal
            exact ⟨h, fun _ heq => by cases heq⟩
          · simp only at hal
            have hselect := hselects slot s' rfl
            rcases hpublish : publishObject s' slot layout header payload with _ |
              ⟨off, remember, s''⟩
            · rw [hpublish] at hal
              cases hal
            · rw [hpublish] at hal
              cases hal
              obtain ⟨hsound, hsl⟩ := hselect.publishObject hpublish
              obtain ⟨cursor, head, hmetadata⟩ := hselect.metadata
              have hdead : slot ∉ s.metadata.allocations := by
                have hdead := hselect.dead
                rw [hmetadata] at hdead
                exact hdead
              refine ⟨?_, ?_⟩
              · intro i s₁ hi
                have hk' : (t.modifyKind span fun _ => .small s'').kind i = some (.small s₁) := by
                  rw [← hi]
                  split
                  · rw [kind_linkRememberedSource]
                  · rfl
                rw [kind_modifyKind] at hk'
                split at hk'
                · obtain ⟨k, -, heq⟩ := Option.map_eq_some_iff.mp hk'
                  cases heq
                  exact hsound
                · exact h i s₁ hk'
              · rintro ref ⟨⟩
                exact ⟨rfl, s, slot, hk.trans hcase, hsl, hdead⟩
      · rw [hcase] at hal
        cases hal
        exact ⟨h, fun _ heq => by cases heq⟩
      · rw [hcase] at hal
        cases hal
        exact ⟨h, fun _ heq => by cases heq⟩

end SpanTable

end TachyonEngine.Gc
