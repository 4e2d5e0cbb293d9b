import TachyonEngine.Gc.PoolKeeps

/-!
# The Eden pool over runs

The pool stays sound in every run in which no minor collection starts while a pooled span is
still linked in the young chain. A minor sweep that fails leaves such spans behind: it has
pooled some spans and has not compacted the chain. The next minor sweep visits them again,
finds the place of their class taken by themselves, and releases them although the pool still
holds them; `poolRun` is a run in which this happens.
-/

namespace TachyonEngine.Gc

open SpanTable Option

open Lib.Traversal Lib.Capacity

/-! ## One span of a minor sweep -/

/-- One entry changes, and its links stay. -/
structure Touches (span : SpanId) (t t' : SpanTable) : Prop where
  others : ∀ i, i ≠ span → t'.kind i = t.kind i ∧ t'.pooled i = t.pooled i
  young : t'.young = t.young

theorem Touches.refl (span : SpanId) (t : SpanTable) : Touches span t t :=
  ⟨fun _ _ => ⟨rfl, rfl⟩, rfl⟩

variable {span : SpanId} {t : SpanTable}

theorem Touches.trans {t' t'' : SpanTable} (h : Touches span t t') (h' : Touches span t' t'') :
    Touches span t t'' where
  others := fun i hi =>
    ⟨(h'.others i hi).1.trans (h.others i hi).1, (h'.others i hi).2.trans (h.others i hi).2⟩
  young := h'.young.trans h.young

section

variable (t : SpanTable)

section

variable (span : SpanId)

theorem touches_modifyKind (f : SpanKind → SpanKind) : Touches span t (t.modifyKind span f) where
  others := by
    intro i hi
    rw [kind_modifyKind, if_neg (Ne.symm hi), pooled_modifyKind]
    exact ⟨rfl, rfl⟩
  young := young_modifyKind t span f

theorem Touches.of_same {span : SpanId} {t t' : SpanTable} (h : SpanTable.SameSpans t t')
    (hyoung : t'.young = t.young) : Touches span t t' := ⟨fun i _ => h i, hyoung⟩

theorem touches_prepareRelease (i span : SpanId) : Touches span t (t.prepareRelease i).2 := by
  refine .of_same (.prepareRelease t i) ?_
  obtain ⟨cap, alloc, hrsv, -⟩ := t.reserveFreeRangeIfNeeded_cases i
  simp only [prepareRelease]
  rw [hrsv]
  rfl

theorem touches_release : Touches span t (t.release span).2 where
  others := by
    intro i hi
    rcases t.release_cases span with ⟨e, -, hs⟩ | ⟨-, -, hos⟩
    · exact hs i
    · exact hos i hi
  young := young_release t span

theorem touches_poolEmptyYoung : Touches span t (t.poolEmptyYoung span) where
  others := by
    intro i hi
    refine ⟨Eq.trans (kind_modifyEntry t span i _) ?_, Eq.trans (pooled_modifyEntry t span i _) ?_⟩
    · rw [if_neg (Ne.symm hi)]
    · rw [if_neg (Ne.symm hi)]
  young := young_poolEmptyYoung t span

theorem touches_setSpace (space : SpanSpace) :
    Touches span t (t.setSpace span space) ∧ (t.setSpace span space).pooled span = t.pooled span :=
  ⟨touches_modifyKind .., pooled_modifyKind ..⟩

/-- A cohort advances in its own entry, and is old when it says that it was promoted. -/
theorem touches_advanceYoungCohort (promotionAge : Nat) (promoteEarly : Bool) :
    Touches span t (t.advanceYoungCohort span promotionAge promoteEarly).2 ∧
      (t.advanceYoungCohort span promotionAge promoteEarly).2.pooled span = t.pooled span ∧
      (t.OldSmall span ∨ (t.advanceYoungCohort span promotionAge promoteEarly).1 = .promoted →
        (t.advanceYoungCohort span promotionAge promoteEarly).2.OldSmall span) := by
  simp only [advanceYoungCohort]
  cases hmeta : t.metadata span with
  | none =>
    refine ⟨.refl span t, rfl, ?_⟩
    rintro (hold | hpromoted)
    · exact hold
    · cases hpromoted
  | some metadata =>
    obtain ⟨s, hk, rfl⟩ := metadata_eq_some hmeta
    have hset : ∀ space, (t.setSpace span space).kind span =
        some (.small { s with metadata := { s.metadata with space := space } }) := by
      intro space
      simp only [setSpace]
      rw [kind_modifyKind, if_pos rfl, hk]
      rfl
    simp only
    split
    · obtain ⟨htouches, hflag⟩ := touches_setSpace t span .old
      have hlk : SpanTable.SameSpans (t.setSpace span .old)
          (if (t.setSpace span .old).dirtyOldCardCount span ≠ 0 then
            (t.setSpace span .old).linkRememberedSource span else t.setSpace span .old) ∧
          (if (t.setSpace span .old).dirtyOldCardCount span ≠ 0 then
            (t.setSpace span .old).linkRememberedSource span else t.setSpace span .old).young =
              (t.setSpace span .old).young := by
        split
        · exact ⟨.linkRememberedSource _ span, young_linkRememberedSource ..⟩
        · exact ⟨.refl _, rfl⟩
      obtain ⟨hs, hyoung⟩ := hlk
      generalize (if (t.setSpace span .old).dirtyOldCardCount span ≠ 0 then
        (t.setSpace span .old).linkRememberedSource span else t.setSpace span .old) = linked
        at hs hyoung ⊢
      refine ⟨htouches.trans (.of_same hs hyoung), (hs span).2.trans hflag, fun _ => ?_⟩
      exact ⟨_, (hs span).1.trans (hset .old), rfl⟩
    · obtain ⟨htouches, hflag⟩ := touches_setSpace t span (SpanSpace.aged s.metadata.space).2
      refine ⟨htouches, hflag, fun hold => ⟨_, hset _, ?_⟩⟩
      have hspace : s.metadata.space = .old := by
        rcases hold with ⟨s', hk', hold⟩ | hpromoted
        · rw [hk] at hk'
          cases hk'
          exact hold
        · cases hspace : s.metadata.space with
          | old => rfl
          | eden | survivor age =>
            rw [hspace] at hpromoted
            cases hpromoted
      rw [hspace]
      rfl

theorem touches_rebuildOldFreeList : Touches span t (t.rebuildOldFreeList span) ∧
      (t.rebuildOldFreeList span).pooled span = t.pooled span ∧
      (t.OldSmall span → (t.rebuildOldFreeList span).OldSmall span) := by
  simp only [rebuildOldFreeList]
  split
  · exact ⟨.refl span t, rfl, fun hold => hold⟩
  · split
    · refine ⟨touches_modifyKind .., pooled_modifyKind .., ?_⟩
      rintro ⟨s, hk, hold⟩
      obtain ⟨head, hmeta⟩ := (SmallSpan.frees_rebuildFreeList s).metadata
      refine ⟨s.rebuildFreeList, ?_, ?_⟩
      · rw [kind_modifyKind, if_pos rfl, hk]
        rfl
      · rw [hmeta]
        exact hold
    · exact ⟨.refl span t, rfl, fun hold => hold⟩

end

end

namespace Sweeper

variable {s s' s'' : Sweeper} {span : SpanId} {epoch : CollectionEpoch} {classIndex live : Nat}

theorem edenPool_of_pools (h : s'.pools = s.pools) : s'.edenPool = s.edenPool := congrArg Prod.fst h

theorem promoted_of_pools (h : s'.pools = s.pools) : s'.promotedActiveOld = s.promotedActiveOld :=
  congrArg Prod.snd h

/-- Objects of one span are dropped; the span stays what it is. -/
structure Clears (span : SpanId) (s s' : Sweeper) : Prop where
  touches : Touches span s.table s'.table
  flag : s'.table.pooled span = s.table.pooled span
  pools : s'.pools = s.pools
  small : ∀ small, s.table.kind span = some (.small small) →
    ∃ small', s'.table.kind span = some (.small small') ∧
      small'.metadata.sizeClass = small.metadata.sizeClass ∧
      small'.metadata.space = small.metadata.space

theorem Clears.of_same (hs : SpanTable.SameSpans s.table s'.table)
    (hyoung : s'.table.young = s.table.young) (hpools : s'.pools = s.pools) : Clears span s s' :=
  ⟨.of_same hs hyoung, (hs span).2, hpools,
    fun small hk => ⟨small, (hs span).1.trans hk, rfl, rfl⟩⟩

theorem Clears.of_table (ht : s'.table = s.table) (hpools : s'.pools = s.pools) :
    Clears span s s' := by
  refine .of_same ?_ ?_ hpools
  · rw [ht]
    exact .refl s.table
  · rw [ht]

theorem Clears.trans (h : Clears span s s') (h' : Clears span s' s'') : Clears span s s'' where
  touches := h.touches.trans h'.touches
  flag := h'.flag.trans h.flag
  pools := h'.pools.trans h.pools
  small := by
    intro small hk
    obtain ⟨small', hk', hclass, hspace⟩ := h.small small hk
    obtain ⟨small'', hk'', hclass', hspace'⟩ := h'.small small' hk'
    exact ⟨small'', hk'', hclass'.trans hclass, hspace'.trans hspace⟩

/-- What happens to the pool and to the promoted spans at one node of the young chain. -/
structure Node (span : SpanId) (s s' : Sweeper) : Prop where
  touches : Touches span s.table s'.table
  old : s.table.OldSmall span → s'.table.OldSmall span
  promoted : ∀ (c : Nat) (i : SpanId), (s'.promotedActiveOld[c]?).join = some i →
    (s.promotedActiveOld[c]?).join = some i ∨ (i = span ∧ s'.table.OldSmall span)
  pool : s.edenPool.Sound s.table → s.table.pooled span = false → s'.edenPool.Sound s'.table

theorem Clears.node (h : Clears span s s') : Node span s s' where
  touches := h.touches
  old := by
    rintro ⟨small, hk, hold⟩
    obtain ⟨small', hk', -, hspace⟩ := h.small small hk
    exact ⟨small', hk', hspace.trans hold⟩
  promoted := by
    intro c i hi
    rw [promoted_of_pools h.pools] at hi
    exact Or.inl hi
  pool := by
    intro hpool hflag
    rw [edenPool_of_pools h.pools]
    exact hpool.frame hflag (h.flag.trans hflag) h.touches.others

theorem Clears.then_node (h : Clears span s s') (h' : Node span s' s'') : Node span s s'' where
  touches := h.touches.trans h'.touches
  old := fun hold => h'.old (h.node.old hold)
  promoted := by
    intro c i hi
    rw [← promoted_of_pools h.pools]
    exact h'.promoted c i hi
  pool := fun hpool hflag => h'.pool (h.node.pool hpool hflag) (h.flag.trans hflag)

theorem clears_sweepObjects (types : TypeRegistry) (epoch : CollectionEpoch) (s : Sweeper)
    (span : SpanId) (pre : SmallSweepSnapshot) :
    Clears span s (s.sweepObjects types epoch span pre) := by
  apply scan_induction (fun s' : Sweeper => Clears span s s')
  · exact .of_table rfl rfl
  · intro s' start ref hs _ hn
    have hspan := spanId_of_nextAllocatedReference hn
    refine hs.trans ?_
    have hpools := pools_sweepObject types epoch pre.sizeClass.slotSize s' ref
    simp only [sweepObject] at hpools ⊢
    split at hpools
    · exact .of_table rfl rfl
    · exact .of_table rfl rfl
    · have hcounted : ∀ dropped : Sweeper, Clears span s' dropped →
          Clears span s' (dropped.countReclaimed pre.sizeClass.slotSize) :=
        fun dropped h => h.trans (.of_table (table_countReclaimed ..) (pools_countReclaimed ..))
      apply hcounted
      simp only [dropSmall]
      split
      · exact .of_table rfl rfl
      · split
        · exact .of_table rfl rfl
        next tbl hunpublish =>
          obtain ⟨small, slot, metadata, hk, -, hrcl, rfl⟩ :=
            unpublishSmallForDrop_eq_some hunpublish
          obtain ⟨-, hmetadata⟩ := SmallSpanMetadata.reclaimAllocation_eq_some hrcl
          rw [hspan] at hk ⊢
          have hb : s'.table.kind span = some (.small small) := hk
          refine ⟨touches_modifyKind .., pooled_modifyKind .., rfl, ?_⟩
          intro small' hk'
          rw [hb] at hk'
          cases hk'
          refine ⟨{ small with metadata := metadata }, Eq.trans (kind_modifyKind ..) ?_, ?_⟩
          · rw [if_pos rfl, hk]
            rfl
          · rw [hmetadata]
            exact ⟨rfl, rfl⟩

theorem clears_prepareRetirement (s : Sweeper) (span : SpanId) (classIndex live : Nat) :
    Clears span s (s.prepareRetirement span classIndex live) := by
  refine .of_same ?_ ?_ (pools_prepareRetirement ..)
  · simp only [prepareRetirement]
    split
    · rw [table_runTable]
      exact SpanTable.SameSpans.prepareRelease s.table span
    · exact .refl s.table
  · simp only [prepareRetirement]
    split
    · rw [table_runTable]
      exact (touches_prepareRelease s.table span span).young
    · rfl

variable {small : SmallSpan}

/-- An empty span goes to the pool, or it is released. -/
theorem node_retireYoungSpan (hk : s.table.kind span = some (.small small)) (hclass :
    smallSizeClasses[classIndex]? = some small.metadata.sizeClass.slotSize) (hyoung :
    small.metadata.space ≠ .old) : Node span s (s.retireYoungSpan span classIndex) := by
  have hnotold : ¬s.table.OldSmall span := by
    rintro ⟨small', hk', hold⟩
    rw [hk] at hk'
    cases hk'
    exact hyoung hold
  simp only [retireYoungSpan]
  rcases hretain : s.edenPool.retain classIndex span with ⟨retained, pool⟩
  have hcases := s.edenPool.retain_cases classIndex span
  rw [hretain] at hcases
  rcases hcases with ⟨rfl, hheld⟩ | ⟨rfl, place, hn, hsets⟩
  · have hpools := pools_runTable { s with edenPool := pool } (s.table.release span)
    have hrel : Node span s ({ s with edenPool := pool }.runTable (s.table.release span)) := by
      refine ⟨?_, fun hold => absurd hold hnotold, ?_, ?_⟩
      · rw [table_runTable]
        exact touches_release s.table span
      · intro c i hi
        rw [promoted_of_pools hpools] at hi
        exact Or.inl hi
      · intro hpool hflag
        rw [edenPool_of_pools hpools, table_runTable]
        have hs : pool.Sound s.table := hpool.congr hheld (fun _ => Iff.rfl) (fun _ _ _ he => he)
        rcases s.table.release_cases span with ⟨e, -, hes⟩ | ⟨-, hflag', hos⟩
        · exact hs.same hes
        · exact hs.frame hflag hflag' hos
    simp only
    split
    · exact hrel
    · exact ⟨hrel.touches, hrel.old, hrel.promoted, hrel.pool⟩
  · have htouches := touches_poolEmptyYoung s.table span
    refine ⟨htouches, fun hold => absurd hold hnotold, fun c i hi => Or.inl hi, ?_⟩
    intro hpool hflag
    obtain ⟨ent, he, hentryKind⟩ := bind_eq_some_iff.mp hk
    refine hpool.retain hflag hsets hn ?_ ?_ htouches.others
    · refine ⟨{ small with
        metadata := .new small.metadata.sizeClass .eden ((ent.generation + 1) % 2 ^ 32) }, ?_,
        hclass, rfl, rfl⟩
      refine Eq.trans (kind_modifyEntry s.table span span _) ?_
      rw [he]
      simp only [bind_some, hentryKind]
      rfl
    · refine Eq.trans (pooled_modifyEntry s.table span span _) ?_
      rw [if_pos rfl, he]
      rfl

/-- A span with survivors stays out of the pool. -/
theorem node_advanceYoungSpan (s : Sweeper) (span : SpanId) (classIndex live : Nat)
    (pre : SmallSweepSnapshot) : Node span s (s.advanceYoungSpan span classIndex live pre) := by
  simp only [advanceYoungSpan]
  generalize (!promotionDueToAge pre.space youngPromotionAge &&
    shouldPromoteEarly live pre.sizeClass.slotCount) = early
  obtain ⟨htouches, hflag, hold⟩ := touches_advanceYoungCohort s.table span youngPromotionAge early
  generalize s.table.advanceYoungCohort span youngPromotionAge early = advanced
    at htouches hflag hold ⊢
  obtain ⟨transition, tbl⟩ := advanced
  have hstays : Node span s (s.setTable tbl) :=
    ⟨htouches, fun h => hold (Or.inl h), fun c i hi => Or.inl hi,
      fun hpool hspan => hpool.frame hspan (hflag.trans hspan) htouches.others⟩
  have haccount : ∀ s' : Sweeper, Node span s s' → Node span s (s'.accountRetained span) := by
    intro s' h
    have ht := table_accountRetained s' span
    have hpools := pools_accountRetained s' span
    refine ⟨ht ▸ h.touches, ht ▸ h.old, ?_, ?_⟩
    · intro c i hi
      rw [promoted_of_pools hpools] at hi
      rw [ht]
      exact h.promoted c i hi
    · rw [ht, edenPool_of_pools hpools]
      exact h.pool
  apply haccount
  cases transition with
  | edenToSurvivor | survivorAged =>
    exact ⟨hstays.touches, hstays.old, hstays.promoted, hstays.pool⟩
  | promoted =>
    obtain ⟨htouches', hflag', hold'⟩ := touches_rebuildOldFreeList tbl span
    have hkept := hold' (hold (Or.inr rfl))
    simp only [adoptPromoted]
    generalize (if early = true then 1 else 0) = promotions
    split
    · refine ⟨htouches.trans htouches', fun _ => hkept, ?_, ?_⟩
      · intro c i hi
        simp only [List.getElem?_set] at hi
        split at hi
        · split at hi
          · exact Or.inr ⟨(some.inj hi).symm, hkept⟩
          · cases hi
        · exact Or.inl hi
      · intro hpool hspan
        exact hpool.frame hspan ((hflag'.trans hflag).trans hspan) (htouches.trans htouches').others
    · refine ⟨htouches.trans htouches', fun _ => hkept, fun c i hi => Or.inl hi, ?_⟩
      intro hpool hspan
      exact hpool.frame hspan ((hflag'.trans hflag).trans hspan) (htouches.trans htouches').others

theorem node_sweepYoungSpan (types : TypeRegistry) (epoch : CollectionEpoch) (hk : s.table.kind span
    = some (.small small)) (hyoung : small.metadata.space ≠ .old) :
    Node span s (sweepYoungSpan types epoch s span) := by
  have habort : ∀ s : Sweeper, Clears span s s.abort := fun s => .of_table rfl rfl
  simp only [sweepYoungSpan]
  split
  · exact (habort s).node
  next pre hb =>
    have hclass : pre.sizeClass = small.metadata.sizeClass := by
      simp only [smallSweepSnapshot] at hb
      rw [metadata_of_kind hk] at hb
      cases hb
      rfl
    have hlive : Clears span s (s.liveSlots span epoch pre).1 :=
      .of_table (table_liveSlots epoch hb) (pools_liveSlots ..)
    generalize s.liveSlots span epoch pre = counted at hlive ⊢
    obtain ⟨s₁, live⟩ := counted
    split
    · exact hlive.node
    · split
      · exact (hlive.trans (habort s₁)).node
      next classIndex hfind =>
        have hprep := hlive.trans (clears_prepareRetirement s₁ span classIndex live)
        generalize s₁.prepareRetirement span classIndex live = s₂ at hprep ⊢
        split
        · exact hprep.node
        · have hswept := hprep.trans (clears_sweepObjects types epoch s₂ span pre)
          split
          · exact hswept.node
          · split
            · obtain ⟨small₃, hk₃, hclass₃, hspace₃⟩ := hswept.small small hk
              refine hswept.then_node (node_retireYoungSpan hk₃ ?_ ?_)
              · obtain ⟨hlt, heq, -⟩ := List.findIdx?_eq_some_iff_getElem.mp hfind
                rw [List.getElem?_eq_getElem hlt, hclass₃, ← hclass]
                exact congrArg some (eq_of_beq heq)
              · rw [hspace₃]
                exact hyoung
            · exact hswept.then_node (node_advanceYoungSpan ..)

theorem node_sweepYoungNode (types : TypeRegistry) (epoch : CollectionEpoch) (s : Sweeper)
    (span : SpanId) : Node span s (sweepYoungNode types epoch s span) := by
  simp only [sweepYoungNode]
  cases hspace : s.table.youngSpace span with
  | none => exact (Clears.of_table rfl rfl).node
  | some space =>
    obtain ⟨small, hk, hyoung⟩ := youngSpace_isSome (by rw [hspace]; rfl)
    have hc : Clears span s (s.countYoungSpan space) :=
      .of_table (table_countYoungSpan ..) (pools_countYoungSpan ..)
    obtain ⟨small', hk', -, hspace'⟩ := hc.small small hk
    refine hc.then_node (node_sweepYoungSpan types epoch hk' ?_)
    rw [hspace']
    intro hold
    rw [hold] at hyoung
    cases hyoung

/-! ## The young chain -/

/-- The state of a minor sweep between two spans: `remaining` are the spans still to visit,
`t₀` is the table before the sweep. -/
structure YoungSweep (t₀ : SpanTable) (remaining : List SpanId) (s : Sweeper) : Prop where
  young : s.table.young = t₀.young
  pool : s.edenPool.Sound s.table
  fresh : ∀ span ∈ remaining, s.table.pooled span = false
  old : ∀ i, t₀.OldSmall i → s.table.OldSmall i
  promoted : ∀ (c : Nat) (i : SpanId), (s.promotedActiveOld[c]?).join = some i → s.table.OldSmall i

theorem Node.old_all (h : Node span s s') {i : SpanId} (hold : s.table.OldSmall i) :
    s'.table.OldSmall i := by
  by_cases hi : i = span
  · subst hi
    exact h.old hold
  · obtain ⟨small, hk, hspace⟩ := hold
    exact ⟨small, (h.touches.others i hi).1.trans hk, hspace⟩

variable {t₀ : SpanTable}

theorem YoungSweep.node {remaining : List SpanId} (hs : YoungSweep t₀ (span :: remaining) s) (hspan
    : span ∉ remaining) (h : Node span s s') : YoungSweep t₀ remaining s' where
  young := h.touches.young.trans hs.young
  pool := h.pool hs.pool (hs.fresh span List.mem_cons_self)
  fresh := by
    intro i hi
    have hne : i ≠ span := by
      rintro rfl
      exact hspan hi
    exact (h.touches.others i hne).2.trans (hs.fresh i (List.mem_cons_of_mem _ hi))
  old := fun i hold => h.old_all (hs.old i hold)
  promoted := by
    intro c i hi
    rcases h.promoted c i hi with hb | ⟨rfl, hold⟩
    · exact h.old_all (hs.promoted c i hb)
    · exact hold

/-- A chain without pooled spans is swept without harm to the pool. The spans that remain
when the sweep halts are those behind the span that halted it. -/
theorem YoungSweep.nodes (types : TypeRegistry) (epoch : CollectionEpoch) (l : List SpanId) {s :
    Sweeper} (hs : YoungSweep t₀ l s) (hnodup : l.Nodup) :
    ∃ remaining, YoungSweep t₀ remaining (foldUntil halted (sweepYoungNode types epoch) l s) := by
  induction l generalizing s with
  | nil => exact ⟨[], hs⟩
  | cons span l ih =>
    obtain ⟨hspan, hnodup⟩ := List.nodup_cons.mp hnodup
    simp only [foldUntil]
    split
    · exact ⟨span :: l, hs⟩
    · exact ih (hs.node hspan (node_sweepYoungNode types epoch s span)) hnodup

/-- A minor sweep of a chain without pooled spans. -/
theorem sweepYoung_pool {types : TypeRegistry} {epoch : CollectionEpoch}
    (hlk : s.table.YoungLinked) (hpool : s.edenPool.Sound s.table)
    (hfr : ∀ span, s.table.young.linked span = true → s.table.pooled span = false)
    (hpromoted : ∀ (c : Nat), (s.promotedActiveOld[c]?).join = none)
    (hsweep : s.sweepYoung types epoch = some s') :
    s'.edenPool.Sound s'.table ∧ (∀ i, s.table.OldSmall i → s'.table.OldSmall i) ∧
      ∀ (c : Nat) (i : SpanId), (s'.promotedActiveOld[c]?).join = some i → s'.table.OldSmall i := by
  obtain ⟨l, hl⟩ := hlk
  have hwalk : walk (fun (s : Sweeper) span => s.table.youngNext span) halted
      (sweepYoungNode types epoch) (s.table.entries.length + 1) s.table.youngHead s =
        some (foldUntil halted (sweepYoungNode types epoch) l s) := by
    apply walk_eq_foldUntil
    · intro s a b _
      have hyoung := (node_sweepYoungNode types epoch s a).touches.young
      exact congrFun (congrArg Links.next hyoung) b
    · exact hl.chain
    · exact Nat.le_succ_of_le (SpanTable.Linked.length_le hl)
  have hst : YoungSweep s.table l s := by
    refine ⟨rfl, hpool, ?_, fun _ hold => hold, ?_⟩
    · exact fun span hspan => hfr span ((hl.mem_iff span).mpr hspan)
    · intro c i hi
      rw [hpromoted] at hi
      cases hi
  obtain ⟨remaining, hswept⟩ := YoungSweep.nodes types epoch l hst hl.chain.nodup
  simp only [Sweeper.sweepYoung] at hsweep
  rw [hwalk] at hsweep
  simp only at hsweep
  split at hsweep
  · cases hsweep
    exact ⟨hswept.pool, hswept.old, hswept.promoted⟩
  · obtain ⟨tbl, hcompact, rfl⟩ := map_eq_some_iff.mp hsweep
    have hs := SpanTable.SameSpans.compactYoungSpans hcompact
    have hold : ∀ i, (foldUntil halted (sweepYoungNode types epoch) l s).table.OldSmall i →
        tbl.OldSmall i := by
      rintro i ⟨small, hk, hspace⟩
      exact ⟨small, (hs i).1.trans hk, hspace⟩
    exact ⟨hswept.pool.same hs, fun i h => hold i (hswept.old i h),
      fun c i h => hold i (hswept.promoted c i h)⟩

end Sweeper

/-! ## Minor collections -/

/-- No pooled span is linked in the young chain. A minor sweep leaves this behind when it
reaches its end. -/
def SpanTable.PoolUnlinked (t : SpanTable) : Prop :=
  ∀ entry ∈ t.entries, ¬(entry.inYoungSet = true ∧ entry.inEdenPool = true)

instance (t : SpanTable) : Decidable t.PoolUnlinked :=
  inferInstanceAs (Decidable (∀ entry ∈ t.entries, _))

theorem SpanTable.PoolUnlinked.not_pooled (h : t.PoolUnlinked) (hlk : t.young.linked span = true) :
    t.pooled span = false := by
  simp only [young] at hlk
  simp only [pooled]
  cases he : t.entries[span]? with
  | none => rfl
  | some ent =>
    rw [he] at hlk
    cases hflag : ent.inEdenPool with
    | false => exact hflag
    | true => exact absurd ⟨hlk, hflag⟩ (h ent (List.mem_of_getElem? he))

namespace Heap

variable {h h' : Heap}

variable {roots : List TraceField} {res : Except MarkError (MarkStats × YoungMarkStats)}

theorem markYoung_frame (hmark : h.markYoung roots = some (res, h')) :
    h'.edenPool = h.edenPool ∧ ∀ space c, h'.active space c = h.active space c := by
  obtain ⟨⟨res', m⟩, -, heq⟩ := map_eq_some_iff.mp hmark
  obtain rfl := (Prod.mk.inj heq).2
  refine ⟨rfl, ?_⟩
  intro space c
  cases space with
  | young | old => rfl

theorem Pooled.markYoung (hp : h.Pooled) (hmark : h.markYoung roots = some (res, h')) :
    h'.Pooled := by
  obtain ⟨hbare, hyoung, -⟩ := markYoung_bare hp.sound.marks hmark
  obtain ⟨hpool, hact⟩ := markYoung_frame hmark
  exact hp.relabel (hp.sound.markYoung hmark) hbare hyoung hpool hact

theorem Pooled.collectMinor {verifier : Bool} {res : Except MinorCollectionError
    MinorCollectionStats} (hp : h.Pooled) (hunlinked : h.table.PoolUnlinked) (hcoll : h.collectMinor
    verifier roots = some (res, h')) : h'.Pooled := by
  have hsound := hp.sound.collectMinor hcoll
  rcases collectMinor_cases hcoll with ⟨e, -, rfl⟩ | hcycle
  · exact hp
  · rcases minorCycle_cases hcycle with
      ⟨e, hmark, -⟩ | ⟨stats, marked, s, hmark, hsweep, habsorb, -, -, hyoungActive⟩
    · exact hp.markYoung hmark
    · have hmarked := hp.markYoung hmark
      obtain ⟨hbare, hyoung, -⟩ := markYoung_bare hp.sound.marks hmark
      have hfr : ∀ span, marked.table.young.linked span = true →
          marked.table.pooled span = false := by
        intro span hlk
        rw [hyoung] at hlk
        rw [pooled_of_bare hbare]
        exact hunlinked.not_pooled hlk
      have hn : ∀ (c : Nat), (marked.sweeper.promotedActiveOld[c]?).join = none := by
        intro c
        simp only [sweeper, List.getElem?_replicate]
        split
        · rfl
        · rfl
      have hsteps := Sweeper.sweepYoung_steps _ hsweep
      obtain ⟨hpool, hold, hpromoted⟩ :=
        Sweeper.sweepYoung_pool hmarked.young hmarked.pool hfr hn hsweep
      refine ⟨hsound, ?_, ?_, ?_⟩
      · rw [habsorb.table]
        exact hmarked.young.sweepSteps hsteps
      · rw [habsorb.table, habsorb.pool]
        exact hpool
      · intro space c i hact
        cases space with
        | young =>
          rw [hyoungActive] at hact
          cases hact
        | old =>
          have he : s.table.OldSmall i := by
            rcases habsorb.active .old c i hact with ⟨hb, -⟩ | ⟨-, hnew⟩
            · obtain ⟨small, hk, hspace, -⟩ := hmarked.active .old c i hb
              exact hold i ⟨small, hk, hspace rfl⟩
            · exact hpromoted c i hnew
          have hflag := hpool.not_pooled_of_old he
          obtain ⟨small, hk, hspace⟩ := he
          rw [habsorb.table]
          exact ⟨small, hk, fun _ => hspace, hflag⟩

/-! ## Runs -/

/-- The operation is none that a failed minor sweep has spoiled. -/
def Admits (h : Heap) : HeapOp → Prop
  | .minor _ _ => h.table.PoolUnlinked
  | _ => True

theorem Pooled.storeFields (hp : h.Pooled) (source : RawHeapRef) (fields : List TraceField) :
    (h.storeFields source fields).Pooled := by
  have hskel := skeleton_setPayload h.table source fields
  refine hp.relabel (hp.sound.storeFields source fields) (bare_congr hskel)
    (young_of_skeleton hskel) rfl ?_
  intro space c
  cases space with
  | young | old => rfl

theorem Pooled.writeBarrier {source tgt : RawHeapRef} {remembered : Bool} (hp : h.Pooled)
    (hbarrier : h.writeBarrier source tgt = .ok (remembered, h')) : h'.Pooled := by
  have hsound := hp.sound.writeBarrier hbarrier
  simp only [Heap.writeBarrier] at hbarrier
  split at hbarrier
  · cases hbarrier
  next ht =>
    cases hbarrier
    have huncarded := uncarded_rememberOldToYoung ht
    refine hp.relabel hsound (bare_of_uncarded huncarded) (young_of_uncarded huncarded) rfl ?_
    intro space c
    cases space with
    | young | old => rfl

theorem Pooled.heapStep {op : HeapOp} (hp : h.Pooled) (hadmits : h.Admits op)
    (hstep : h.heapStep op = some h') : h'.Pooled := by
  cases op with
  | allocate req =>
    obtain ⟨⟨res, heap⟩, hrun, rfl⟩ := map_eq_some_iff.mp hstep
    exact hp.tryAllocateAccounted hrun
  | store source fields =>
    simp only [Heap.heapStep] at hstep
    split at hstep
    · cases hstep
      exact hp
    · cases hstep
      exact hp.storeFields source fields
  | barrier source tgt =>
    simp only [Heap.heapStep] at hstep
    split at hstep
    · cases hstep
      exact hp
    next hbarrier =>
      cases hstep
      exact hp.writeBarrier hbarrier
  | reclaim ref =>
    cases hstep
    exact hp.reclaim ref
  | minor verifier roots =>
    obtain ⟨⟨res, heap⟩, hrun, rfl⟩ := map_eq_some_iff.mp hstep
    exact hp.collectMinor hadmits hrun
  | major roots =>
    obtain ⟨⟨res, heap⟩, hrun, rfl⟩ := map_eq_some_iff.mp hstep
    exact hp.collectMajor hrun
  | trim =>
    cases hstep
    exact hp.trim

/-- Every minor collection of the run starts with no pooled span in the young chain. -/
def AdmitsAll : List HeapOp → Heap → Prop
  | [], _ => True
  | op :: ops, h => h.Admits op ∧ ∀ next, h.heapStep op = some next → AdmitsAll ops next

theorem Pooled.runHeap {ops : List HeapOp} (hp : h.Pooled) (hadmits : AdmitsAll ops h)
    (hrun : Heap.runHeap ops h = some h') : h'.Pooled := by
  induction ops generalizing h with
  | nil =>
    cases hrun
    exact hp
  | cons op ops ih =>
    obtain ⟨next, hn, hrest⟩ := bind_eq_some_iff.mp hrun
    obtain ⟨hop, hops⟩ := hadmits
    exact ih (hp.heapStep hop hn) (hops next hn) hrest

end Heap

/-- The pool of a heap that such a run reaches. A span that it holds is an empty Eden span of
its class with the flag set and is held once, a flagged span is held, and the span that is
taken for reuse passes the assertions of `activatePooledEden`. -/
theorem runHeap_edenPool {maxHeapBytes : Nat} {types : TypeRegistry} {allocators : Allocators}
    {ops : List HeapOp} {h : Heap}
    (hadmits : Heap.AdmitsAll ops (.new maxHeapBytes types allocators))
    (hrun : Heap.runHeap ops (.new maxHeapBytes types allocators) = some h) :
    (∀ classIndex place span, h.edenPool.heldAt classIndex place = some span →
      h.table.EmptyEden classIndex span ∧ h.table.pooled span = true) ∧
    (∀ classIndex place classIndex' place' span, h.edenPool.heldAt classIndex place = some span →
      h.edenPool.heldAt classIndex' place' = some span →
        classIndex = classIndex' ∧ place = place') ∧
    (∀ span, (h.table.kind span).isSome → h.table.pooled span = true →
      ∃ classIndex place, h.edenPool.heldAt classIndex place = some span) ∧
    ∀ classIndex span pool, h.edenPool.takeForReuse classIndex = some (span, pool) →
      h.table.EmptyEden classIndex span ∧ h.table.pooled span = true := by
  have hpooled := (Heap.Pooled.new maxHeapBytes types allocators).runHeap hadmits hrun
  refine ⟨hpooled.pool.held, hpooled.pool.once, fun span _ => hpooled.pool.flagged span, ?_⟩
  intro classIndex span pool htake
  obtain ⟨place, hheld, -⟩ := EdenPool.takeForReuse_eq_some htake
  exact hpooled.pool.held classIndex place span hheld

/-- A young type of the last size class, fifteen to a span. -/
def poolTypes : TypeRegistry :=
  { entries :=
      [{ rustTypeId := 0
         descriptor :=
           { typeId := ⟨1, Nat.one_pos⟩
             layout := { size := 4000, align := 8 }
             allocationPolicy := .youngEligible } }] }

def poolRequest : AllocationRequest :=
  { objectType := ⟨0, poolTypes.entries[0].descriptor⟩
    flags := 0
    aux := 0
    value := []
    space := .young
    externalBytes := 0 }

/-- An empty heap whose table is refused its sixth request for memory. -/
def poolHeap : Heap := .new 1000000 poolTypes
    ⟨{ refuses := fun request => request == 5, requests := 0 }, .granting, .granting, .granting,
      .granting⟩

theorem runHeap_edenPool_poolHeap :
    ∃ h, Heap.runHeap [.allocate poolRequest, .minor true []] poolHeap = some h ∧
      h.edenPool.heldAt 27 0 = some 0 ∧ h.table.EmptyEden 27 0 ∧ h.table.pooled 0 = true := by
  have hheld : ((Heap.runHeap [.allocate poolRequest, .minor true []] poolHeap).map fun h =>
      h.edenPool.heldAt 27 0) = some (some 0) := rfl
  have hunlinked : ((poolHeap.heapStep (.allocate poolRequest)).map fun h =>
      decide h.table.PoolUnlinked) = some true := rfl
  have hadmits : Heap.AdmitsAll [.allocate poolRequest, .minor true []] poolHeap := by
    refine ⟨trivial, fun next hnx => ⟨?_, fun _ _ => trivial⟩⟩
    rw [hnx] at hunlinked
    have hn : next.table.PoolUnlinked := of_decide_eq_true (some.inj hunlinked)
    exact hn
  rcases hrun : Heap.runHeap [.allocate poolRequest, .minor true []] poolHeap with _ | h
  · rw [hrun] at hheld
    cases hheld
  · rw [hrun] at hheld
    have hplace := some.inj hheld
    obtain ⟨hempty, hflag⟩ := (runHeap_edenPool hadmits hrun).1 27 0 0 hplace
    exact ⟨h, rfl, hplace, hempty, hflag⟩

/-- Two spans of garbage. The first minor collection pools one of them and fails at the other,
where it may not reserve a free range; the second one releases both. -/
def poolRun : List HeapOp :=
  List.replicate 16 (.allocate poolRequest) ++ [.minor true [], .minor true []]

/-- The pool holds a span that is not there. -/
theorem poolRun_not_edenPool :
    ∃ h, Heap.runHeap poolRun poolHeap = some h ∧ h.edenPool.heldAt 27 0 = some 1 ∧
      h.table.kind 1 = none ∧ ¬h.table.EmptyEden 27 1 := by
  have hst : ((Heap.runHeap poolRun poolHeap).map fun h =>
      (h.edenPool.heldAt 27 0, (h.table.kind 1).isNone)) = some (some 1, true) := rfl
  rcases hrun : Heap.runHeap poolRun poolHeap with _ | h
  · rw [hrun] at hst
    cases hst
  · rw [hrun] at hst
    obtain ⟨hheld, hn⟩ := Prod.mk.inj (some.inj hst)
    have hk := isNone_iff_eq_none.mp hn
    refine ⟨h, rfl, hheld, hk, ?_⟩
    rintro ⟨s, hsm, -⟩
    rw [hk] at hsm
    cases hsm

end TachyonEngine.Gc
