import TachyonEngine.Gc.SweepKeeps

/-!
# Sweeps are steps

Both sweeps of the source, as a sequence of the steps of `SweepStep`, for every
outcome: `sweepYoung_steps` and `sweepFull_steps`. A span is pooled or released when no
object of it was counted as marked, and it is promoted early when enough of them were.
-/

namespace TachyonEngine.Gc

open SpanTable

open Lib.Traversal Lib.Capacity

namespace Sweeper

variable {g : Generation} {epoch : CollectionEpoch} {types : TypeRegistry} {s s' : Sweeper}
variable {span : SpanId} {ref : RawHeapRef}

@[simp] theorem table_abort (s : Sweeper) : s.abort.table = s.table := rfl

@[simp] theorem table_count (s : Sweeper) (f : SweepStats → SweepStats) :
    (s.count f).table = s.table := rfl

@[simp] theorem table_countMinor (s : Sweeper) (f : MinorSweepStats → MinorSweepStats) :
    (s.countMinor f).table = s.table := rfl

@[simp] theorem table_setTable (s : Sweeper) (tbl : SpanTable) : (s.setTable tbl).table = tbl :=
  rfl

@[simp] theorem table_discharge (s : Sweeper) (charged : Nat) :
    (s.discharge charged).table = s.table := rfl

@[simp] theorem table_runTable {α : Type} (s : Sweeper)
    (res : Except SpanTableError α × SpanTable) : (s.runTable res).table = res.2 := by
  obtain ⟨res, tbl⟩ := res
  cases res <;> rfl

@[simp] theorem table_countReclaimed (s : Sweeper) (slotSize : Nat) :
    (s.countReclaimed slotSize).table = s.table := by
  unfold countReclaimed
  split <;> rfl

@[simp] theorem table_accountRetained (s : Sweeper) (span : SpanId) :
    (s.accountRetained span).table = s.table := by
  unfold accountRetained
  split <;> rfl

@[simp] theorem table_countYoungSpan (s : Sweeper) (space : SpanSpace) :
    (s.countYoungSpan space).table = s.table := by
  cases space <;> rfl

@[simp] theorem table_adoptPromoted (s : Sweeper) (span : SpanId) (classIndex : Nat)
    (early : Bool) :
    (s.adoptPromoted span classIndex early).table = s.table.rebuildOldFreeList span := by
  exact (apply_ite Sweeper.table _ _ _).trans (ite_self _)

/-! ## Counting the marked objects of a span -/

variable {t : SpanTable} {pre : SmallSweepSnapshot}

theorem metadata_of_snapshot (h : t.smallSweepSnapshot span = some pre) :
    ∃ metadata, t.metadata span = some metadata ∧ pre.sizeClass = metadata.sizeClass ∧
      pre.space = metadata.space := by
  obtain ⟨metadata, hmeta, rfl⟩ := Option.map_eq_some_iff.mp h
  exact ⟨metadata, hmeta, rfl, rfl⟩

/-- The cursor of a sweep moves past the slot of a reference. -/
theorem referenceSlotSuccessor_slotReference {slot : SlotIndex}
    (hsnapshot : t.smallSweepSnapshot span = some pre) (hsl : slot ∈ t.allocatedSlots span) :
    referenceSlotSuccessor pre (t.slotReference span slot) = some (slot.val + 1) := by
  obtain ⟨metadata, hmeta, hclass, -⟩ := metadata_of_snapshot hsnapshot
  have hn := nextSlot_slotReference hsl
  have hspan : (t.slotReference span slot).spanId = span := rfl
  unfold nextSlot at hn
  rw [hspan, hmeta] at hn
  unfold referenceSlotSuccessor
  rw [hclass]
  exact hn

theorem table_countLive (epoch : CollectionEpoch) (st : Sweeper × Nat) (ref : RawHeapRef) :
    (countLive epoch st ref).1.table = st.1.table := by
  unfold countLive
  split <;> rfl

/-- The marked objects are counted over the allocated slots. -/
theorem liveSlots_eq (epoch : CollectionEpoch)
    (hsnapshot : s.table.smallSweepSnapshot span = some pre) :
    ∃ l : List SlotIndex, l.Nodup ∧ (∀ slot, slot ∈ l ↔ slot ∈ s.table.allocatedSlots span) ∧
      s.liveSlots span epoch pre = foldUntil (fun st : Sweeper × Nat => st.1.halted)
        (countLive epoch) (l.map (s.table.slotReference span)) (s, 0) := by
  have hscan : ∃ l : List SlotIndex, l.Pairwise (· < ·) ∧
      (∀ slot, slot ∈ l ↔ slot ∈ s.table.allocatedSlots span ∧ 0 ≤ slot.val) ∧
      s.liveSlots span epoch pre = foldUntil (fun st : Sweeper × Nat => st.1.halted)
        (countLive epoch) (l.map (s.table.slotReference span)) (s, 0) := by
    refine scan_eq_foldUntil (fun st : Sweeper × Nat => st.1.table = s.table)
      (fun _ => s.table.allocatedSlots span) (s.table.slotReference span) ?_ ?_ ?_ (by omega) rfl
    · intro st start h
      rw [h, nextAllocatedReference_eq]
    · intro st slot _ hsl
      exact referenceSlotSuccessor_slotReference hsnapshot hsl
    · intro st slot h _
      exact ⟨(table_countLive _ _ _).trans h, fun _ _ => Iff.rfl⟩
  obtain ⟨l, hsort, hm, heq⟩ := hscan
  refine ⟨l, hsort.imp (fun h => ne_of_lt h), ?_, heq⟩
  intro slot
  rw [hm]
  exact ⟨And.left, fun h => ⟨h, Nat.zero_le _⟩⟩

theorem table_liveSlots (epoch : CollectionEpoch)
    (hsnapshot : s.table.smallSweepSnapshot span = some pre) :
    (s.liveSlots span epoch pre).1.table = s.table := by
  obtain ⟨l, -, -, heq⟩ := liveSlots_eq epoch hsnapshot
  rw [heq]
  apply foldUntil_induction (fun st : Sweeper × Nat => st.1.table = s.table) rfl
  intro st ref _ _ h
  exact (table_countLive _ _ _).trans h

/-- No object of a span is marked when the count is zero. -/
theorem unmarked_of_liveSlots (epoch : CollectionEpoch)
    (hsnapshot : s.table.smallSweepSnapshot span = some pre)
    (hhalted : (s.liveSlots span epoch pre).1.halted = false)
    (hz : (s.liveSlots span epoch pre).2 = 0) : s.table.Unmarked epoch span := by
  obtain ⟨l, -, hm, heq⟩ := liveSlots_eq epoch hsnapshot
  rw [heq] at hhalted hz
  have hcounted : ∀ ref ∈ l.map (s.table.slotReference span), ref ∈ s.table.marked epoch →
        (foldUntil (fun st : Sweeper × Nat => st.1.halted) (countLive epoch)
          (l.map (s.table.slotReference span)) (s, 0)).2 ≠ 0 := by
    apply foldUntil_forall (fun st : Sweeper × Nat => st.1.table = s.table)
      (fun ref st => ref ∈ s.table.marked epoch → st.2 ≠ 0)
    · exact hhalted
    · rfl
    · intro st ref _ _ _ h
      exact (table_countLive _ _ _).trans h
    · intro st ref _ _ _ h hmarked
      have hlive : st.1.table.isMarked ref epoch = .ok true := h ▸ hmarked
      simp [countLive, hlive]
    · intro st ref other _ _ _ _ hkept hmarked
      unfold countLive
      split
      · exact hkept hmarked
      · exact Nat.succ_ne_zero _
      · exact hkept hmarked
  rintro ref hmarked rfl
  obtain ⟨kind, hk, hlive⟩ := valid_iff.mp (valid_of_marked hmarked)
  obtain ⟨metadata, hmeta, -⟩ := metadata_of_snapshot hsnapshot
  obtain ⟨small, hsm, rfl⟩ := metadata_eq_some hmeta
  rw [hk] at hsm
  cases hsm
  obtain ⟨slot, hsl, href, -⟩ := exists_slot hk hlive.1
  refine hcounted ref ?_ hmarked hz
  rw [← href]
  exact List.mem_map_of_mem ((hm slot).mpr hsl)

/-- Every counted object has its mark bit. -/
theorem foldUntil_countLive_le (t : SpanTable) (l : List RawHeapRef) {st : Sweeper × Nat}
    (ht : st.1.table = t) :
    (foldUntil (fun st : Sweeper × Nat => st.1.halted) (countLive epoch) l st).2 ≤
      st.2 + (l.filter fun ref => t.markBit ref epoch).length := by
  induction l generalizing st with
  | nil => exact le_refl _
  | cons ref l ih =>
    simp only [foldUntil]
    split
    · omega
    · have hrest := ih ((table_countLive epoch st ref).trans ht)
      have hfirst : (countLive epoch st ref).2 ≤ st.2 + if t.markBit ref epoch then 1 else 0 := by
        unfold countLive
        rw [ht]
        cases hmarked : t.isMarked ref epoch with
        | error e => exact Nat.le_add_right _ _
        | ok marked =>
          cases marked with
          | false => exact Nat.le_add_right _ _
          | true =>
            have hbit : t.markBit ref epoch = true := (mem_marked.mp hmarked).2
            simp [hbit]
      rw [List.filter_cons]
      split_ifs with hbit
      · simp only [hbit, if_true, List.length_cons] at hfirst ⊢
        omega
      · simp only [hbit] at hfirst
        simp only [Bool.false_eq_true, if_false] at hfirst
        omega

/-- The count of marked objects is at most the number of mark bits. -/
theorem liveSlots_le (epoch : CollectionEpoch) {metadata : SmallSpanMetadata}
    (hsnapshot : s.table.smallSweepSnapshot span = some pre)
    (hmeta : s.table.metadata span = some metadata) :
    (s.liveSlots span epoch pre).2 ≤ metadata.marks.markedCount epoch := by
  obtain ⟨l, hnodup, hm, heq⟩ := liveSlots_eq epoch hsnapshot
  rw [heq]
  refine le_trans (foldUntil_countLive_le s.table _ rfl) ?_
  obtain ⟨small, hk, rfl⟩ := metadata_eq_some hmeta
  have hbits : ∀ slot ∈ l, s.table.markBit (s.table.slotReference span slot) epoch =
      small.metadata.marks.isMarked slot epoch := by
    intro slot hsl
    have hal := (hm slot).mp hsl
    simp only [allocatedSlots, hmeta] at hal
    have hc := (SmallSpanMetadata.mem_liveSlots.mp hal).2
    have hspan : (s.table.slotReference span slot).spanId = span := rfl
    simp only [markBit, hspan, hk, Option.any_some, SpanKind.markBit]
    simp [slotReference, hmeta, SizeClass.slotForOffset_slotOffset hc]
  rw [zero_add, List.filter_map, List.length_map]
  have hfilter : l.filter ((fun ref => s.table.markBit ref epoch) ∘
      s.table.slotReference span) = l.filter fun slot => small.metadata.marks.isMarked slot
        epoch := by
    apply List.filter_congr
    intro slot hsl
    exact hbits slot hsl
  rw [hfilter]
  unfold MarkBitmap.markedCount MarkBitmap.isMarked
  split_ifs with hepoch
  · rw [← List.toFinset_card_of_nodup (hnodup.filter _)]
    apply Finset.card_le_card
    intro slot hsl
    rw [List.mem_toFinset, List.mem_filter] at hsl
    simpa [hepoch] using hsl.2
  · simp [hepoch]

/-! ## Dropping the white objects of a span -/

/-- What a sweep of objects leaves of the metadata of its span. -/
def spanFrame (t : SpanTable) (span : SpanId) : Option (SizeClass × SpanSpace × MarkBitmap) :=
  (t.metadata span).map fun metadata => (metadata.sizeClass, metadata.space, metadata.marks)

variable {t' : SpanTable}

theorem youngSpace_of_spanFrame (h : spanFrame t' span = spanFrame t span) :
    t'.youngSpace span = t.youngSpace span := by
  unfold spanFrame at h
  unfold youngSpace
  cases hmeta : t.metadata span <;> cases hmeta' : t'.metadata span <;> simp_all

theorem youngLiveOccupancy_of_spanFrame (h : spanFrame t' span = spanFrame t span) :
    t'.youngLiveOccupancy span epoch = t.youngLiveOccupancy span epoch := by
  unfold spanFrame at h
  unfold youngLiveOccupancy
  cases hmeta : t.metadata span <;> cases hmeta' : t'.metadata span <;> simp_all

/-- Objects of one span are dropped. -/
structure SweepsObjects (g : Generation) (epoch : CollectionEpoch) (span : SpanId)
    (t t' : SpanTable) : Prop where
  steps : SweepSteps g epoch t t'
  frame : spanFrame t' span = spanFrame t span

theorem SweepsObjects.refl (t : SpanTable) : SweepsObjects g epoch span t t := ⟨.refl, rfl⟩

theorem SweepsObjects.trans {t'' : SpanTable} (h : SweepsObjects g epoch span t t')
    (h' : SweepsObjects g epoch span t' t'') : SweepsObjects g epoch span t t'' :=
  ⟨h.steps.trans h'.steps, h'.frame.trans h.frame⟩

theorem SweepsObjects.unmarked (h : SweepsObjects g epoch span t t')
    (hunmarked : t.Unmarked epoch span) :
    t'.Unmarked epoch span := by
  intro ref hmarked
  have hsurvives := h.steps.sub (valid_of_marked hmarked)
  exact hunmarked ref (hsurvives.marked.mp hmarked)

theorem prepareRelease_sweeps (t : SpanTable) (i span : SpanId) :
    SweepsObjects g epoch span t (t.prepareRelease i).2 := by
  refine ⟨t.prepareRelease_steps i, ?_⟩
  obtain ⟨cap, alloc, heq, hcap⟩ := t.reserveFreeRangeIfNeeded_cases i
  unfold prepareRelease
  rw [heq]
  rfl

section

variable (types : TypeRegistry)

/-- One object: a white one is unpublished. -/
theorem sweepObject_sweeps (slotSize : Nat)
    (hyoung : g = .young → (s.table.youngSpace ref.spanId).isSome) :
    SweepsObjects g epoch ref.spanId s.table (sweepObject types epoch slotSize s ref).table := by
  unfold sweepObject
  simp only [table_count]
  cases hmarked : s.table.isMarked ref epoch with
  | error e => exact .refl _
  | ok marked =>
    cases marked with
    | true => exact .refl _
    | false =>
      simp only [table_countReclaimed]
      unfold dropSmall
      cases resolveForDrop types (s.count fun stats =>
        { stats with
          scannedObjects := stats.scannedObjects + 1
          scannedBytes := stats.scannedBytes + slotSize }) ref with
      | error e => exact .refl _
      | ok charged =>
        simp only [table_count]
        cases hdrop : s.table.unpublishSmallForDrop ref with
        | none => exact .refl _
        | some tbl =>
          exact ⟨.single (.unpublish hmarked hyoung hdrop),
            metadata_of_unpublish _ (fun _ _ _ _ => rfl) hdrop _⟩

theorem sweepObjects_sweeps (pre : SmallSweepSnapshot)
    (hyoung : g = .young → (s.table.youngSpace span).isSome) :
    SweepsObjects g epoch span s.table (s.sweepObjects types epoch span pre).table := by
  apply scan_induction (fun s' : Sweeper => SweepsObjects g epoch span s.table s'.table)
  · exact .refl _
  · intro s' start ref h _ hn
    have hspan := spanId_of_nextAllocatedReference hn
    refine h.trans ?_
    rw [← hspan] at h ⊢
    apply sweepObject_sweeps
    intro hg
    rw [youngSpace_of_spanFrame h.frame, hspan]
    exact hyoung hg

/-! ## Minor sweep -/

theorem shouldPromoteEarly_mono {live live' total : Nat} (h : live ≤ live')
    (hearly : shouldPromoteEarly live total = true) : shouldPromoteEarly live' total = true := by
  unfold shouldPromoteEarly at hearly ⊢
  simp only [Bool.and_eq_true, decide_eq_true_eq] at hearly ⊢
  omega

/-- A span without a marked object is pooled or released. -/
theorem retireYoungSpan_steps {classIndex : Nat} (hyoung : (s.table.youngSpace span).isSome)
    (hunmarked : s.table.Unmarked epoch span) :
    SweepSteps .young epoch s.table (s.retireYoungSpan span classIndex).table := by
  unfold retireYoungSpan
  rcases s.edenPool.retain classIndex span with ⟨_ | _, pool⟩
  · simp only
    have hrel : SweepSteps .young epoch s.table (s.table.release span).2 :=
      release_steps fun _ => ⟨hyoung, hunmarked⟩
    split
    · simpa using hrel
    · simpa [countReleased] using hrel
  · exact .single (.pool rfl hyoung hunmarked)

/-- A span with survivors ages or is promoted. -/
theorem advanceYoungSpan_steps {classIndex live : Nat} (hyoung : (s.table.youngSpace span).isSome)
    (hearly : shouldPromoteEarly live pre.sizeClass.slotCount = true →
      (s.table.youngLiveOccupancy span epoch).any
        (fun occupancy => shouldPromoteEarly occupancy.1 occupancy.2) = true) :
    SweepSteps .young epoch s.table (s.advanceYoungSpan span classIndex live pre).table := by
  unfold advanceYoungSpan
  simp only [table_accountRetained]
  generalize hpromote : (!promotionDueToAge pre.space youngPromotionAge &&
    shouldPromoteEarly live pre.sizeClass.slotCount) = early
  have hstep : SweepStep .young epoch s.table
      (s.table.advanceYoungCohort span youngPromotionAge early).2 := by
    refine .advance rfl hyoung fun h => hearly ?_
    rw [h, Bool.and_eq_true] at hpromote
    exact hpromote.2
  generalize s.table.advanceYoungCohort span youngPromotionAge early = advanced at hstep ⊢
  obtain ⟨transition, tbl⟩ := advanced
  cases transition with
  | edenToSurvivor | survivorAged => exact .single hstep
  | promoted =>
    have hlist : SweepSteps .young epoch tbl (tbl.rebuildOldFreeList span) :=
      .single (.freeList tbl span)
    simp only [table_adoptPromoted]
    exact .head hstep hlist

theorem sweepYoungSpan_steps (epoch : CollectionEpoch) (hyoung : (s.table.youngSpace span).isSome) :
    SweepSteps .young epoch s.table (sweepYoungSpan types epoch s span).table := by
  unfold sweepYoungSpan
  cases hsnapshot : s.table.smallSweepSnapshot span with
  | none => exact .refl
  | some pre =>
    simp only
    have ht := table_liveSlots epoch hsnapshot
    have hz := unmarked_of_liveSlots epoch hsnapshot
    obtain ⟨metadata, hmeta, hclass, hspace⟩ := metadata_of_snapshot hsnapshot
    have hle := liveSlots_le epoch hsnapshot hmeta
    revert ht hz hle
    rcases s.liveSlots span epoch pre with ⟨s₁, live⟩
    intro ht hz hle
    split
    · rw [ht]
    next hhalted =>
      cases smallSizeClasses.findIdx? (· == pre.sizeClass.slotSize) with
      | none =>
        simp only [table_abort]
        rw [ht]
      | some classIndex =>
        simp only
        -- Room for a release, then the objects of the span.
        have hprep : SweepsObjects .young epoch span s.table
            (s₁.prepareRetirement span classIndex live).table := by
          rw [← ht]
          unfold prepareRetirement
          split
          · rw [table_runTable]
            exact prepareRelease_sweeps _ _ _
          · exact .refl _
        split
        · exact hprep.steps
        · have hswept := hprep.trans (sweepObjects_sweeps types pre
            (fun _ => by rw [youngSpace_of_spanFrame hprep.frame]; exact hyoung))
          have hyoung' : ((Sweeper.sweepObjects types epoch
              (s₁.prepareRetirement span classIndex live) span pre).table.youngSpace
                span).isSome := by
            rw [youngSpace_of_spanFrame hswept.frame]
            exact hyoung
          split
          · exact hswept.steps
          · split_ifs with hlive
            · refine hswept.steps.trans (retireYoungSpan_steps hyoung' (hswept.unmarked ?_))
              exact hz (by simpa using hhalted) hlive
            · refine hswept.steps.trans (advanceYoungSpan_steps hyoung' fun hearly => ?_)
              rw [youngLiveOccupancy_of_spanFrame hswept.frame]
              obtain ⟨small, hk, hisYoung⟩ := youngSpace_isSome hyoung
              have hsm := metadata_of_kind hk
              rw [hmeta] at hsm
              cases hsm
              simp only [youngLiveOccupancy, hmeta, hisYoung, if_true, Option.any_some]
              rw [hclass] at hearly
              exact shouldPromoteEarly_mono hle hearly

theorem sweepYoung_steps (h : s.sweepYoung types epoch = some s') :
    SweepSteps .young epoch s.table s'.table := by
  unfold sweepYoung at h
  cases hwalk : walk (fun (s : Sweeper) span => s.table.youngNext span) halted
      (sweepYoungNode types epoch) (s.table.entries.length + 1) s.table.youngHead s with
  | none =>
    rw [hwalk] at h
    cases h
  | some swept =>
    rw [hwalk] at h
    simp only at h
    have hrun : SweepSteps .young epoch s.table swept.table := by
      apply walk_induction (fun s' : Sweeper => SweepSteps .young epoch s.table s'.table)
        hwalk .refl
      intro s' span hs _
      refine hs.trans ?_
      unfold sweepYoungNode
      cases hspace : s'.table.youngSpace span with
      | none => exact .refl
      | some space =>
        have hyoung : ((s'.countYoungSpan space).table.youngSpace span).isSome := by
          simp [hspace]
        simpa using sweepYoungSpan_steps types epoch hyoung
    split at h
    · cases h
      exact hrun
    · obtain ⟨tbl, hcompact, rfl⟩ := Option.map_eq_some_iff.mp h
      exact hrun.tail (.compact hcompact)

/-! ## Major sweep -/

theorem sweepSmall_steps (epoch : CollectionEpoch) (s : Sweeper) (span : SpanId) :
    SweepSteps .full epoch s.table (sweepSmall types epoch s span).table := by
  unfold sweepSmall
  cases hsnapshot : s.table.smallSweepSnapshot span with
  | none => exact .refl
  | some pre =>
    simp only
    have ht := table_liveSlots epoch hsnapshot
    revert ht
    rcases s.liveSlots span epoch pre with ⟨s₁, live⟩
    intro ht
    rw [← ht]
    split
    · exact .refl
    · have hprep : SweepsObjects .full epoch span s₁.table
          (if live = 0 then s₁.runTable (s₁.table.prepareRelease span) else s₁).table := by
        split
        · rw [table_runTable]
          exact prepareRelease_sweeps _ _ _
        · exact .refl _
      generalize (if live = 0 then s₁.runTable (s₁.table.prepareRelease span) else s₁) = s₂ at *
      split
      · exact hprep.steps
      · have hswept := hprep.trans (sweepObjects_sweeps (s := s₂) types pre
          fun hg => by cases hg)
        generalize s₂.sweepObjects types epoch span pre = s₃ at *
        split
        · exact hswept.steps
        · split
          · exact hswept.steps
          · split
            · have hrel : SweepSteps .full epoch s₃.table (s₃.table.release span).2 :=
                release_steps fun hg => by cases hg
              refine hswept.steps.trans ?_
              split
              · simpa using hrel
              · simpa [countReleased] using hrel
            · exact hswept.steps.tail (.freeList s₃.table span)

theorem table_releaseLarge (s : Sweeper) (ref : RawHeapRef) :
    (s.releaseLarge ref).table = (s.table.releaseUnpublishedLarge ref).2 := by
  unfold releaseLarge
  rcases s.table.releaseUnpublishedLarge ref with ⟨_ | _, tbl⟩ <;> rfl

theorem dropLarge_steps (hmarked : s.table.isMarked ref epoch = .ok false) :
    SweepSteps .full epoch s.table (s.dropLarge types ref).table := by
  unfold dropLarge
  cases s.resolveForDrop types ref with
  | error e => exact .refl
  | ok charged =>
    cases hdrop : s.table.unpublishLargeForDrop ref with
    | error e => exact .refl
    | ok tbl =>
      simp only [table_releaseLarge]
      exact .head (.unpublishLarge rfl hmarked hdrop) (releaseUnpublishedLarge_steps ref)

/-- Asking for room changes no mark. -/
theorem isMarked_prepareRelease (t : SpanTable) (span : SpanId) (ref : RawHeapRef)
    (epoch : CollectionEpoch) :
    (t.prepareRelease span).2.isMarked ref epoch = t.isMarked ref epoch := by
  obtain ⟨cap, alloc, heq, hcap⟩ := t.reserveFreeRangeIfNeeded_cases span
  unfold prepareRelease
  rw [heq]
  rfl

theorem sweepWhiteLarge_steps (objectBytes : Nat)
    (hmarked : s.table.isMarked ref epoch = .ok false) :
    SweepSteps .full epoch s.table (s.sweepWhiteLarge types ref objectBytes).table := by
  have hprep : SweepSteps .full epoch s.table (s.table.prepareRelease ref.spanId).2 :=
    s.table.prepareRelease_steps ref.spanId
  have ht : (s.runTable (s.table.prepareRelease ref.spanId)).table =
      (s.table.prepareRelease ref.spanId).2 := table_runTable _ _
  unfold sweepWhiteLarge
  simp only
  rw [← ht] at hprep
  split
  · exact hprep
  · rw [table_countReclaimed]
    refine hprep.trans (dropLarge_steps types ?_)
    rw [ht, isMarked_prepareRelease]
    exact hmarked

theorem sweepLarge_steps (epoch : CollectionEpoch) (s : Sweeper) (span : SpanId) :
    SweepSteps .full epoch s.table (sweepLarge types epoch s span).table := by
  unfold sweepLarge
  cases s.table.largeMetadata span with
  | none => exact .refl
  | some metadata =>
    simp only
    split
    · have hprep : SweepSteps .full epoch s.table
          (s.runTable (s.table.prepareRelease span)).table := by
        rw [table_runTable]
        exact s.table.prepareRelease_steps span
      split
      · exact hprep
      · refine hprep.trans ?_
        rw [table_releaseLarge]
        exact releaseUnpublishedLarge_steps _
    · generalize hs : (s.count fun stats =>
        { stats with
          scannedObjects := stats.scannedObjects + 1
          scannedBytes := stats.scannedBytes + metadata.objectBytes }) = counted
      have ht : s.table = counted.table := by
        rw [← hs]
        rfl
      rw [ht]
      cases hmarked : counted.table.isMarked ⟨span, firstOffset⟩ epoch with
      | error e => exact .refl
      | ok marked =>
        cases marked with
        | true => exact .refl
        | false => exact sweepWhiteLarge_steps types metadata.objectBytes hmarked

theorem table_queueOwners (s : Sweeper) : s.queueOwners.table = s.table := by
  apply foldUntil_induction (fun s' : Sweeper => s'.table = s.table)
  · rfl
  · intro s' span _ _ h
    split
    · rcases s'.worklist.tryPush initialSweepWorklistCapacity span with ⟨_ | _, worklist⟩
        <;> exact h
    · exact h

theorem sweepOwner_steps (epoch : CollectionEpoch) (s : Sweeper) (span : SpanId) :
    SweepSteps .full epoch s.table (sweepOwner types epoch s span).table := by
  unfold sweepOwner
  generalize hs : (s.popOwner.count fun stats =>
    { stats with spansProcessed := stats.spansProcessed + 1 }) = counted
  have ht : s.table = counted.table := by
    rw [← hs]
    rfl
  rw [ht]
  simp only
  cases counted.table.sweepTarget span with
  | none => exact .refl
  | some tgt =>
    cases tgt with
    | small => exact sweepSmall_steps types epoch counted span
    | largeOwner => exact sweepLarge_steps types epoch counted span

theorem sweepFull_steps (epoch : CollectionEpoch) (s : Sweeper) :
    SweepSteps .full epoch s.table (s.sweepFull types epoch).table := by
  apply foldUntil_induction (fun s' : Sweeper => SweepSteps .full epoch s.table s'.table)
  · rw [table_queueOwners]
  · intro s' span _ _ h
    exact h.trans (sweepOwner_steps types epoch s' span)

end

end Sweeper

end TachyonEngine.Gc
