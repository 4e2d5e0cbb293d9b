import TachyonEngine.Lib.Scheduling

/-!
# Steps of a schedule

A ready job starts; a started one is done, or fails and lets its parents fail one after the other. A
walk over the requests registers the jobs in a postorder, and the invariant says of a job that is
not yet registered that it is about to be.
-/

namespace TachyonEngine.Lib.Scheduling

open Stage List Function

open Lib.Components (Path)
open Lib.Postorder

universe u v

variable {V : Type u} {α : Type v} {succs : V → List V} {root : V → V} {part : V → Prop}
  {Threw : V → α → Prop} {sched : Schedule V α} {rest doomed : List V}

theorem Stage.not_isDone_waiting : ¬ (waiting : Stage α).IsDone := by
  rintro ⟨val, h⟩
  cases h

theorem Stage.not_isDone_fresh : ¬ (fresh : Stage α).IsDone := by
  rintro ⟨val, h⟩
  cases h

theorem Stage.not_isDone_started : ¬ (started : Stage α).IsDone := by
  rintro ⟨val, h⟩
  cases h

theorem Stage.not_isFailed_waiting : ¬ (waiting : Stage α).IsFailed := by
  rintro ⟨err, h⟩
  cases h

theorem Stage.not_isFailed_fresh : ¬ (fresh : Stage α).IsFailed := by
  rintro ⟨err, h⟩
  cases h

theorem Stage.not_isFailed_started : ¬ (started : Stage α).IsFailed := by
  rintro ⟨err, h⟩
  cases h

theorem Stage.not_isDone_of_open {stage : Stage α} (h : stage = .fresh ∨ stage = .waiting) :
    ¬ stage.IsDone := by
  rcases h with rfl | rfl
  · exact not_isDone_fresh
  · exact not_isDone_waiting

theorem Stage.not_isFailed_of_open {stage : Stage α} (h : stage = .fresh ∨ stage = .waiting) :
    ¬ stage.IsFailed := by
  rcases h with rfl | rfl
  · exact not_isFailed_fresh
  · exact not_isFailed_waiting

/-! ## Changes that a schedule does not notice -/

/-- Requests may be added to jobs that are not registered yet. -/
theorem Scheduled.transport (h : Scheduled succs root part Threw [] [] sched)
    {succs' : V → List V} {root' : V → V} {part' : V → Prop} {Threw' : V → α → Prop}
    (hsuccessors : ∀ job, sched.Touched job → succs' job = succs job)
    (hroot : ∀ job, sched.Touched job → root' job = root job)
    (hpart : ∀ job, sched.Touched job → part' job)
    (hthrew : ∀ job err, Threw job err → Threw' job err) :
    Scheduled succs' root' part' Threw' [] [] sched := by
  have hpath : ∀ {job reached : V}, sched.Touched job → Path succs job reached →
      Path succs' job reached := by
    intro job reached hjob hpath
    induction hpath with
    | refl => exact .refl
    | tail hpath hedge ih =>
      refine ih.tail ?_
      rw [hsuccessors _ (h.touched_of_path hjob hpath)]
      exact hedge
  have hback : ∀ {job reached : V}, sched.Touched job → Path succs' job reached →
      Path succs job reached := by
    intro job reached hjob hpath
    induction hpath with
    | refl => exact .refl
    | tail _ hedge ih =>
      rw [hsuccessors _ (h.touched_of_path hjob ih)] at hedge
      exact ih.tail hedge
  have hreq : ∀ {job req : V}, sched.Touched job → req ∈ succs' job →
      req ∈ succs job ∧ root' req = root req ∧ root' job = root job := by
    intro job req hjob hm
    rw [hsuccessors job hjob] at hm
    exact ⟨hm, hroot req (h.touched_of_path hjob (.single hm)), hroot job hjob⟩
  refine
    { h with
      entered := ?_
      closed := ?_
      unregistered := ?_
      mem_part := hpart
      parent := ?_
      outer := ?_
      inner := ?_
      young := ?_
      cause := ?_ }
  · intro job k hk hne
    have hjob : sched.Touched job := .inl (by rw [hk]; exact Option.some_ne_none k)
    rw [hroot job hjob] at hne ⊢
    obtain ⟨parent, hp, hedge, hcases⟩ := h.entered job k hk hne
    have htou : sched.Touched parent := by
      rcases hcases with ⟨l, hl, -⟩ | ⟨-, hfl⟩ | ⟨hm, -⟩
      · exact .inl (by rw [hl]; exact Option.some_ne_none l)
      · exact .inr hfl
      · cases hm
    refine ⟨parent, (hroot parent htou).trans hp, ?_, hcases⟩
    rw [hsuccessors parent htou]
    exact hedge
  · intro job hjob req hm
    exact h.closed job hjob req (hreq hjob hm).1
  · intro job hfl hn
    rw [hroot job (.inr hfl)]
    exact h.unregistered job hfl hn
  · intro dep job hm
    obtain ⟨hsg, hreach, hdone, hfl, k, l, hk, hl, hlt⟩ := h.parent dep job hm
    have hjob : sched.Touched job := .inl (by rw [hl]; exact Option.some_ne_none l)
    exact ⟨hsg, hpath hjob hreach, hdone, hfl, k, l, hk, hl, hlt⟩
  · intro job hsome hnot hdoomed req hm hout
    obtain ⟨hm, hrequestRoot, hjobRoot⟩ := hreq (.inl hsome) hm
    rw [hrequestRoot, hjobRoot] at hout
    rw [hrequestRoot]
    exact h.outer job hsome hnot hdoomed req hm hout
  · intro job k hk hnot hdoomed req hm hins
    have hjob : sched.Touched job := .inl (by rw [hk]; exact Option.some_ne_none k)
    obtain ⟨hm, hrequestRoot, hjobRoot⟩ := hreq hjob hm
    rw [hrequestRoot, hjobRoot] at hins
    exact h.inner job k hk hnot hdoomed req hm hins
  · intro job hsome reached hreach hnot
    exact absurd (h.touched_of_path (.inl hsome) (hback (.inl hsome) hreach)) hnot
  · intro job err herr
    obtain ⟨reached, hreach, hthrown⟩ := h.cause job err herr
    exact ⟨reached, hpath (.inr ⟨err, herr⟩) hreach, hthrew reached err hthrown⟩

/-- The orders are as before, and only what was registered has failed meanwhile. -/
theorem Walked.congr {next : Schedule V α} (h : Walked succs root part rest sched)
    (horder : next.order = sched.order)
    (hgrown : ∀ job, (sched.stage job).IsFailed → (next.stage job).IsFailed)
    (hfl : ∀ job, (next.stage job).IsFailed → (sched.stage job).IsFailed ∨ sched.order job ≠ none) :
    Walked succs root part rest next := by
  have htou : ∀ job, next.Touched job ↔ sched.Touched job := by
    intro job
    rw [Schedule.Touched, horder]
    exact ⟨fun ho => ho.elim .inl fun hin => (hfl job hin).symm, Or.imp_right (hgrown job)⟩
  refine ⟨?_, ?_, ?_, fun job ho => h.mem_part job ((htou job).mp ho)⟩
  · intro job k hk hroot
    rw [horder] at hk
    obtain ⟨parent, hp, hedge, hcases⟩ := h.entered job k hk hroot
    refine ⟨parent, hp, hedge, ?_⟩
    rw [htou, horder]
    exact hcases.imp_right (Or.imp_left (And.imp_right (hgrown parent)))
  · intro job ho req hreq
    rw [htou]
    exact h.closed job ((htou job).mp ho) req hreq
  · intro job ho hn
    rw [horder] at hn
    exact h.unregistered job ((hfl job ho).resolve_right fun hsome => hsome hn) hn

/-- Where nothing is left to be registered, nothing is untouched that a registered job reaches. -/
theorem Walked.young_of_nil {job : V} (h : Walked succs root part [] sched)
    (hsome : sched.order job ≠ none) (reached : V) (hpath : Path succs job reached)
    (hnot : ¬ sched.Touched reached) : sched.stage job = .fresh ∨ sched.stage job = .waiting :=
  absurd (h.touched_of_path (.inl hsome) hpath) hnot

/-- What is said of every job is said of those that are not about to fail. -/
theorem Scheduled.doom (h : Scheduled succs root part Threw rest [] sched) (doomed : List V) :
    Scheduled succs root part Threw rest doomed sched :=
  { h with
    blockers := fun job hwait _ => h.blockers job hwait fun hm => nomatch hm
    outer := fun job hsome hnot _ => h.outer job hsome hnot fun hm => nomatch hm
    inner := fun job k hk hnot _ => h.inner job k hk hnot fun hm => nomatch hm }

/-! ## Execution -/

/-- Of the stages only that of one job has changed. -/
theorem stage_iff_of_ne {P : Stage α → Prop} {before after : V → Stage α} {job : V}
    (hoff : ∀ other, other ≠ job → after other = before other)
    (hjob : P (after job) ↔ P (before job)) (other : V) : P (after other) ↔ P (before other) := by
  by_cases heq : other = job
  · exact heq ▸ hjob
  · rw [hoff other heq]

/-- A stage that the job has not come to is that of another one, as it was. -/
theorem stage_of_ne {before after : V → Stage α} {stage : Stage α} {job other : V}
    (hoff : ∀ other, other ≠ job → after other = before other) (heq : after other = stage)
    (hjob : after job ≠ stage) : before other = stage ∧ other ≠ job := by
  have hne : other ≠ job := by
    rintro rfl
    exact hjob heq
  exact ⟨(hoff other hne).symm.trans heq, hne⟩

variable [DecidableEq V] {job other dep : V} {stage : Stage α}

theorem nodup_update_nil {parents : V → List V} (h : ∀ dep, (parents dep).Nodup) (dep : V) :
    (update parents job [] dep).Nodup := by
  rw [update_apply]
  split
  · exact nodup_nil
  · exact h dep

section Start

variable {queue : List V}

theorem stage_start_self : (sched.start job queue).stage job = .started :=
  update_self _ _ _

theorem stage_start_of_ne (other : V) (hne : other ≠ job) :
    (sched.start job queue).stage other = sched.stage other :=
  update_of_ne hne _ _

theorem stage_of_start (heq : (sched.start job queue).stage other = stage)
    (hne : stage ≠ .started) :
    sched.stage other = stage ∧ other ≠ job :=
  stage_of_ne stage_start_of_ne heq fun h => hne (h.symm.trans stage_start_self)

variable (h : Scheduled succs root part Threw [] [] sched)
  (hready : sched.ready.Perm (job :: queue))

include h hready

theorem Scheduled.isDone_start (other : V) :
    ((sched.start job queue).stage other).IsDone ↔ (sched.stage other).IsDone := by
  refine stage_iff_of_ne stage_start_of_ne ?_ other
  rw [stage_start_self]
  have hm : job ∈ sched.ready := hready.mem_iff.mpr mem_cons_self
  exact iff_of_false not_isDone_started (not_isDone_of_open (h.ready_stage job hm).1)

theorem Scheduled.isFailed_start (other : V) :
    ((sched.start job queue).stage other).IsFailed ↔ (sched.stage other).IsFailed := by
  refine stage_iff_of_ne stage_start_of_ne ?_ other
  rw [stage_start_self]
  exact iff_of_false not_isFailed_started (h.not_failed_of_ready (hready.mem_iff.mpr mem_cons_self))

theorem Scheduled.walked_start : Walked succs root part [] (sched.start job queue) :=
  h.toWalked.congr rfl (fun other => (h.isFailed_start hready other).mpr)
    fun other ho => .inl ((h.isFailed_start hready other).mp ho)

/-- A job that is queued starts. -/
theorem Scheduled.start : Scheduled succs root part Threw [] [] (sched.start job queue) where
  toWalked := h.walked_start hready
  ready_nodup := (nodup_cons.mp (hready.nodup_iff.mp h.ready_nodup)).2
  ready_stage := by
    intro other hin
    have hne : other ≠ job := by
      rintro rfl
      exact (nodup_cons.mp (hready.nodup_iff.mp h.ready_nodup)).1 hin
    rw [stage_start_of_ne other hne]
    exact h.ready_stage other (hready.mem_iff.mpr (mem_cons_of_mem _ hin))
  ready_of_fresh := by
    intro other hfr hsome
    obtain ⟨hb, hne⟩ := stage_of_start hfr (by rintro ⟨⟩)
    exact (mem_cons.mp (hready.mem_iff.mp (h.ready_of_fresh other hb hsome))).resolve_left hne
  ready_of_waiting := by
    intro other hwait hz
    obtain ⟨hb, hne⟩ := stage_of_start hwait (by rintro ⟨⟩)
    exact (mem_cons.mp (hready.mem_iff.mp (h.ready_of_waiting other hb hz))).resolve_left hne
  order_lt := h.order_lt
  order_of_stage := by
    intro other
    by_cases heq : other = job
    · subst heq
      exact .inr (.inr (h.ready_stage other (hready.mem_iff.mpr mem_cons_self)).2.1)
    · rw [stage_start_of_ne other heq]
      exact h.order_of_stage other
  parents_nodup := h.parents_nodup
  parent := by
    intro dep other hin
    have hne : other ≠ job := by
      rintro rfl
      exact (h.ready_stage other (hready.mem_iff.mpr mem_cons_self)).2.2 dep hin
    rw [h.isDone_start hready, h.isFailed_start hready dep, stage_start_of_ne other hne]
    exact h.parent dep other hin
  blockers := by
    intro other hwait hdoomed
    exact h.blockers other (stage_of_start hwait (by rintro ⟨⟩)).1 hdoomed
  outer := by
    intro other hsome hnot hdoomed req hreq hout
    rw [h.isDone_start hready]
    rw [h.isFailed_start hready] at hnot
    exact h.outer other hsome hnot hdoomed req hreq hout
  inner := by
    intro other k hk hnot hdoomed req hreq hins j hj hlt
    rw [h.isDone_start hready]
    rw [h.isFailed_start hready] at hnot
    exact h.inner other k hk hnot hdoomed req hreq hins j hj hlt
  young := fun _ => (h.walked_start hready).young_of_nil
  cause := fun other err herr => h.cause other err (stage_of_start herr (by rintro ⟨⟩)).1

end Start

/-! ### Fulfilment -/

theorem stage_fulfil_self (val : α) : (sched.fulfil job val).stage job = .done val :=
  update_self _ _ _

theorem stage_fulfil_of_ne (val : α) (hne : other ≠ job) :
    (sched.fulfil job val).stage other = sched.stage other :=
  update_of_ne hne _ _

variable {val : α}

theorem mem_parents_fulfil : other ∈ (sched.fulfil job val).parents dep ↔
      dep ≠ job ∧ other ∈ sched.parents dep := by
  by_cases heq : dep = job
  · subst heq
    rw [show (sched.fulfil dep val).parents dep = [] from update_self _ _ _]
    exact iff_of_false (fun h => nomatch h) (fun h => h.1 rfl)
  · rw [show (sched.fulfil job val).parents dep = sched.parents dep from
      update_of_ne heq _ _]
    exact (and_iff_right heq).symm

theorem pending_fulfil (val : α) (hm : other ∈ sched.parents job)
    (hwait : sched.stage other = .waiting) :
    (sched.fulfil job val).pending other = sched.pending other - 1 :=
  if_pos ⟨hm, isWaiting_iff.mpr hwait⟩

theorem pending_fulfil_of_notMem (val : α) (hm : other ∉ sched.parents job) :
    (sched.fulfil job val).pending other = sched.pending other :=
  if_neg fun h => hm h.1

theorem mem_ready_fulfil : other ∈ (sched.fulfil job val).ready ↔ other ∈ sched.ready ∨
      other ∈ sched.parents job ∧ sched.stage other = .waiting ∧ sched.pending other = 1 := by
  refine mem_append.trans (or_congr Iff.rfl (mem_filter.trans (and_congr Iff.rfl ?_)))
  rw [Bool.and_eq_true, isWaiting_iff, decide_eq_true_iff]

theorem isDone_fulfil (ho : (sched.stage other).IsDone) :
    ((sched.fulfil job val).stage other).IsDone := by
  by_cases heq : other = job
  · subst heq
    rw [stage_fulfil_self]
    exact ⟨val, rfl⟩
  · rw [stage_fulfil_of_ne val heq]
    exact ho

theorem stage_of_fulfil (heq : (sched.fulfil job val).stage other = stage) (hne : ¬ stage.IsDone) :
    sched.stage other = stage :=
  (stage_of_ne (fun _ => stage_fulfil_of_ne val) heq fun h => hne ⟨val,
    h.symm.trans (stage_fulfil_self val)⟩).1

/-- A job that waits for another one goes on to do so, unless that is done. -/
theorem done_or_parent_fulfil (h : (sched.stage dep).IsDone ∨ other ∈ sched.parents dep) :
    ((sched.fulfil job val).stage dep).IsDone ∨ other ∈ (sched.fulfil job val).parents dep := by
  rcases h with hin | hin
  · exact .inl (isDone_fulfil hin)
  · by_cases heq : dep = job
    · subst heq
      rw [stage_fulfil_self]
      exact .inl ⟨val, rfl⟩
    · exact .inr (mem_parents_fulfil.mpr ⟨heq, hin⟩)

/-- What a parent waits for besides the job. -/
theorem Scheduled.blockers_fulfil (h : Scheduled succs root part Threw [] [] sched) (val : α)
    (hm : other ∈ sched.parents job) (hwait : sched.stage other = .waiting) :
    ∃ blockers : List V, blockers.Nodup ∧ blockers.length + 1 = sched.pending other ∧
      ∀ dep, other ∈ (sched.fulfil job val).parents dep ↔ dep ∈ blockers := by
  obtain ⟨blockers, hnodup, hlen, hiff⟩ := h.blockers other hwait (fun hm => nomatch hm)
  have hin : job ∈ blockers := (hiff job).mp hm
  refine ⟨blockers.erase job, hnodup.erase job, ?_, fun dep => ?_⟩
  · have hpos := length_pos_of_mem hin
    rw [length_erase_of_mem hin]
    omega
  · rw [mem_parents_fulfil, hiff, hnodup.mem_erase_iff]

theorem Stage.not_open_of_begun (h : stage = .started ∨ stage.IsDone) :
    stage ≠ .fresh ∧ stage ≠ .waiting ∧ ¬ stage.IsFailed := by
  rcases h with rfl | hdone
  · exact ⟨by rintro ⟨⟩, by rintro ⟨⟩, not_isFailed_started⟩
  · refine ⟨?_, hdone.not_waiting, hdone.not_failed⟩
    rintro rfl
    exact not_isDone_fresh hdone

section Fulfil

variable (hsg : sched.stage job = .started ∨ (sched.stage job).IsDone)

include hsg

theorem isFailed_fulfil (other : V) :
    ((sched.fulfil job val).stage other).IsFailed ↔ (sched.stage other).IsFailed := by
  refine stage_iff_of_ne (fun _ => stage_fulfil_of_ne val) ?_ other
  rw [stage_fulfil_self]
  exact iff_of_false (IsDone.not_failed ⟨val, rfl⟩) (not_open_of_begun hsg).2.2

variable (h : Scheduled succs root part Threw [] [] sched)

include h

theorem Scheduled.walked_fulfil : Walked succs root part [] (sched.fulfil job val) :=
  h.toWalked.congr rfl (fun other => (isFailed_fulfil hsg other).mpr)
    fun other ho => .inl ((isFailed_fulfil hsg other).mp ho)

/-- A parent that waited for the job alone is ready. -/
theorem Scheduled.ready_stage_fulfil (hin : other ∈ (sched.fulfil job val).ready) :
    ((sched.fulfil job val).stage other = .fresh ∨ (sched.fulfil job val).stage other = .waiting) ∧
      sched.order other ≠ none ∧ ∀ dep, other ∉ (sched.fulfil job val).parents dep := by
  obtain ⟨hnotFresh, hnotWaiting, -⟩ := not_open_of_begun hsg
  rcases mem_ready_fulfil.mp hin with hin | ⟨hm, hwait, hone⟩
  · obtain ⟨hready, hord, hfree⟩ := h.ready_stage other hin
    have hne : other ≠ job := by
      rintro rfl
      exact hready.elim hnotFresh hnotWaiting
    rw [stage_fulfil_of_ne val hne]
    exact ⟨hready, hord, fun dep hm => hfree dep (mem_parents_fulfil.mp hm).2⟩
  · obtain ⟨-, -, -, -, k, l, -, hl, -⟩ := h.parent job other hm
    have hne : other ≠ job := by
      rintro rfl
      exact hnotWaiting hwait
    rw [stage_fulfil_of_ne val hne]
    refine ⟨.inr hwait, fun hn => Option.some_ne_none l (hl.symm.trans hn), fun dep hin => ?_⟩
    obtain ⟨blockers, -, hlen, hiff⟩ := h.blockers_fulfil val hm hwait
    have hnil : blockers = [] := eq_nil_of_length_eq_zero (by omega)
    rw [hiff, hnil] at hin
    cases hin

/-- A job that runs, or that ran before, is done. -/
theorem Scheduled.fulfil (val : α) : Scheduled succs root part Threw [] []
    (sched.fulfil job val) where
  toWalked := h.walked_fulfil hsg
  ready_nodup := by
    refine h.ready_nodup.append ((h.parents_nodup job).filter _) fun other hin hfilter => ?_
    exact (h.ready_stage other hin).2.2 job (mem_filter.mp hfilter).1
  ready_stage := fun _ => h.ready_stage_fulfil hsg
  ready_of_fresh := by
    intro other hfr hsome
    have hb := stage_of_fulfil hfr not_isDone_fresh
    exact mem_ready_fulfil.mpr (.inl (h.ready_of_fresh other hb hsome))
  ready_of_waiting := by
    intro other hwait hz
    have hb := stage_of_fulfil hwait not_isDone_waiting
    by_cases hm : other ∈ sched.parents job
    · rw [pending_fulfil val hm hb] at hz
      obtain ⟨blockers, -, hlen, -⟩ := h.blockers_fulfil val hm hb
      exact mem_ready_fulfil.mpr (.inr ⟨hm, hb, by omega⟩)
    · rw [pending_fulfil_of_notMem val hm] at hz
      exact mem_ready_fulfil.mpr (.inl (h.ready_of_waiting other hb hz))
  order_lt := h.order_lt
  order_of_stage := by
    intro other
    rw [isFailed_fulfil hsg]
    by_cases heq : other = job
    · subst heq
      exact .inr ((h.order_of_stage other).resolve_left (not_open_of_begun hsg).1)
    · rw [stage_fulfil_of_ne val heq]
      exact h.order_of_stage other
  parents_nodup := nodup_update_nil h.parents_nodup
  parent := by
    intro dep other hin
    obtain ⟨hdep, hin⟩ := mem_parents_fulfil.mp hin
    obtain ⟨ho, hpath, hopen, hnot, horders⟩ := h.parent dep other hin
    have hne : other ≠ job := by
      rintro rfl
      exact ho.elim (not_open_of_begun hsg).2.1 (not_open_of_begun hsg).2.2
    rw [stage_fulfil_of_ne val hne, stage_fulfil_of_ne val hdep]
    exact ⟨ho, hpath, hopen, hnot, horders⟩
  blockers := by
    intro other hwait _
    have hb := stage_of_fulfil hwait not_isDone_waiting
    by_cases hm : other ∈ sched.parents job
    · obtain ⟨blockers, hnodup, hlen, hiff⟩ := h.blockers_fulfil val hm hb
      refine ⟨blockers, hnodup, ?_, hiff⟩
      rw [pending_fulfil val hm hb]
      omega
    · obtain ⟨blockers, hnodup, hlen, hiff⟩ := h.blockers other hb (fun hm => nomatch hm)
      refine ⟨blockers, hnodup, ?_, fun dep => ?_⟩
      · rw [pending_fulfil_of_notMem val hm, hlen]
      · rw [← hiff, mem_parents_fulfil, and_iff_right_iff_imp]
        rintro hin rfl
        exact hm hin
  outer := by
    intro other hsome hnot hdoomed req hreq hout
    rw [isFailed_fulfil hsg] at hnot
    exact done_or_parent_fulfil (h.outer other hsome hnot hdoomed req hreq hout)
  inner := by
    intro other k hk hnot hdoomed req hreq hins j hj hlt
    rw [isFailed_fulfil hsg] at hnot
    exact done_or_parent_fulfil (h.inner other k hk hnot hdoomed req hreq hins j hj hlt)
  young := fun _ => (h.walked_fulfil hsg).young_of_nil
  cause := by
    intro other err herr
    have hnot : ¬ (failed err).IsDone := fun hdone => hdone.not_failed ⟨err, rfl⟩
    exact h.cause other err (stage_of_fulfil herr hnot)

end Fulfil

/-! ### Failure -/

theorem stage_fail_self (err : α) : (sched.fail job err).stage job = .failed err :=
  update_self _ _ _

theorem stage_fail_of_ne (err : α) (hne : other ≠ job) :
    (sched.fail job err).stage other = sched.stage other :=
  update_of_ne hne _ _

variable {err : α}

theorem mem_parents_fail : other ∈ (sched.fail job err).parents dep ↔
      dep ≠ job ∧ other ∈ sched.parents dep :=
  (mem_parents_fulfil : other ∈ (sched.fulfil job err).parents dep ↔ _)

theorem isDone_fail (hnot : ¬ (sched.stage job).IsDone) (other : V) :
    ((sched.fail job err).stage other).IsDone ↔ (sched.stage other).IsDone := by
  refine stage_iff_of_ne (fun _ => stage_fail_of_ne err) (iff_of_false ?_ hnot) other
  rw [stage_fail_self]
  exact fun h => h.not_failed ⟨err, rfl⟩

theorem isFailed_fail (ho : (sched.stage other).IsFailed) :
    ((sched.fail job err).stage other).IsFailed := by
  by_cases heq : other = job
  · subst heq
    rw [stage_fail_self]
    exact ⟨err, rfl⟩
  · rw [stage_fail_of_ne err heq]
    exact ho

theorem stage_of_fail (heq : (sched.fail job err).stage other = stage) (hne : ¬ stage.IsFailed) :
    sched.stage other = stage ∧ other ≠ job :=
  stage_of_ne (fun _ => stage_fail_of_ne err) heq fun h => hne ⟨err,
    h.symm.trans (stage_fail_self err)⟩

/-- The jobs that are about to fail: none is ready, and each reaches the one that threw. -/
structure Doomed (succs : V → List V) (Threw : V → α → Prop) (sched : Schedule V α) (error : α)
    (doomed : List V) : Prop where
  order : ∀ job ∈ doomed, sched.order job ≠ none
  not_ready : ∀ job ∈ doomed, job ∉ sched.ready
  not_done : ∀ job ∈ doomed, ¬ (sched.stage job).IsDone
  cause : ∀ job ∈ doomed, ∃ reached, Path succs job reached ∧ Threw reached error

/-- A job that has failed already need not fail again. -/
theorem Scheduled.skip (h : Scheduled succs root part Threw rest (job :: doomed) sched)
    (hfl : (sched.stage job).IsFailed) : Scheduled succs root part Threw rest doomed sched where
  __ := h
  blockers := by
    intro other hwait hnot
    refine h.blockers other hwait fun hm => ?_
    rcases mem_cons.mp hm with rfl | hm
    · rw [hwait] at hfl
      exact not_isFailed_waiting hfl
    · exact hnot hm
  outer := by
    intro other hsome hopen hnot
    refine h.outer other hsome hopen fun hm => ?_
    rcases mem_cons.mp hm with rfl | hm
    · exact hopen hfl
    · exact hnot hm
  inner := by
    intro other k hk hopen hnot
    refine h.inner other k hk hopen fun hm => ?_
    rcases mem_cons.mp hm with rfl | hm
    · exact hopen hfl
    · exact hnot hm

theorem Doomed.tail (h : Doomed succs Threw sched err (job :: doomed)) :
    Doomed succs Threw sched err doomed where
  order := fun other ho => h.order other (mem_cons_of_mem _ ho)
  not_ready := fun other ho => h.not_ready other (mem_cons_of_mem _ ho)
  not_done := fun other ho => h.not_done other (mem_cons_of_mem _ ho)
  cause := fun other ho => h.cause other (mem_cons_of_mem _ ho)

variable {later : List V}

/-- The failing job passes its fate on to its parents. -/
theorem Doomed.fail (h : Scheduled succs root part Threw [] (job :: doomed) sched) (hdoomed : Doomed
    succs Threw sched err (job :: doomed)) (hlat : ∀ other, other ∈ later → other ∈ doomed ∨ other ∈
    sched.parents job) : Doomed succs Threw (sched.fail job err) err later where
  order := by
    intro other ho
    rcases hlat other ho with hin | hin
    · exact hdoomed.order other (mem_cons_of_mem _ hin)
    · obtain ⟨-, -, -, -, k, l, -, hl, -⟩ := h.parent job other hin
      exact fun hn => Option.some_ne_none l (hl.symm.trans hn)
  not_ready := by
    intro other ho
    rcases hlat other ho with hin | hin
    · exact hdoomed.not_ready other (mem_cons_of_mem _ hin)
    · exact fun hready => (h.ready_stage other hready).2.2 job hin
  not_done := by
    intro other ho
    by_cases heq : other = job
    · subst heq
      rw [stage_fail_self]
      rintro ⟨val, hv⟩
      cases hv
    · rw [stage_fail_of_ne err heq]
      rcases hlat other ho with hin | hin
      · exact hdoomed.not_done other (mem_cons_of_mem _ hin)
      · rcases (h.parent job other hin).1 with hwait | hfl
        · rw [hwait]
          exact not_isDone_waiting
        · exact fun hdone => hdone.not_failed hfl
  cause := by
    intro other ho
    rcases hlat other ho with hin | hin
    · exact hdoomed.cause other (mem_cons_of_mem _ hin)
    · obtain ⟨reached, hpath, hthrew⟩ := hdoomed.cause job mem_cons_self
      exact ⟨reached, (h.parent job other hin).2.1.trans hpath, hthrew⟩

section Fail

variable (h : Scheduled succs root part Threw [] (job :: doomed) sched) (hdoomed :
    Doomed succs Threw sched err (job :: doomed))

include h hdoomed

theorem Scheduled.walked_fail : Walked succs root part [] (sched.fail job err) := by
  refine h.toWalked.congr rfl (fun other => isFailed_fail) fun other ho => ?_
  by_cases heq : other = job
  · exact .inr (heq ▸ hdoomed.order job mem_cons_self)
  · rw [stage_fail_of_ne err heq] at ho
    exact .inl ho

variable (hkept : ∀ other ∈ doomed, other ∈ later)
  (hparents : ∀ other ∈ sched.parents job, other ≠ job → other ∉ later →
    (sched.stage other).IsFailed)

include hkept hparents

omit h hdoomed in
/-- A job that is neither failing nor failed was neither before, and did not wait for the job. -/
theorem spared_of_fail (hnot : ¬ ((sched.fail job err).stage other).IsFailed)
    (hlat : other ∉ later) :
    ¬ (sched.stage other).IsFailed ∧ other ∉ job :: doomed ∧ other ∉ sched.parents job := by
  have hne : other ≠ job := by
    rintro rfl
    rw [stage_fail_self] at hnot
    exact hnot ⟨err, rfl⟩
  refine ⟨fun hin => hnot (isFailed_fail hin), ?_, fun hin => hnot (isFailed_fail ?_)⟩
  · rintro (_ | ⟨_, hin⟩)
    · exact hne rfl
    · exact hlat (hkept other hin)
  · exact hparents other hin hne hlat

/-- The job at the head fails; those that wait for it are among those that are about to. -/
theorem Scheduled.fail : Scheduled succs root part Threw [] later (sched.fail job err) where
  toWalked := h.walked_fail hdoomed
  ready_nodup := h.ready_nodup
  ready_stage := by
    intro other hready
    have hne : other ≠ job := by
      rintro rfl
      exact hdoomed.not_ready other mem_cons_self hready
    rw [stage_fail_of_ne err hne]
    obtain ⟨hsg, hord, hfree⟩ := h.ready_stage other hready
    exact ⟨hsg, hord, fun dep hm => hfree dep (mem_parents_fail.mp hm).2⟩
  ready_of_fresh := fun other hfr => h.ready_of_fresh other (stage_of_fail hfr not_isFailed_fresh).1
  ready_of_waiting := fun other hwait =>
    h.ready_of_waiting other (stage_of_fail hwait not_isFailed_waiting).1
  order_lt := h.order_lt
  order_of_stage := by
    intro other
    by_cases heq : other = job
    · exact .inr (.inr (heq ▸ hdoomed.order job mem_cons_self))
    · rw [stage_fail_of_ne err heq]
      exact h.order_of_stage other
  parents_nodup := nodup_update_nil h.parents_nodup
  parent := by
    intro dep other hin
    obtain ⟨hdep, hin⟩ := mem_parents_fail.mp hin
    obtain ⟨ho, hpath, hopen, hnot, horders⟩ := h.parent dep other hin
    rw [stage_fail_of_ne err hdep]
    refine ⟨?_, hpath, hopen, hnot, horders⟩
    by_cases heq : other = job
    · subst heq
      rw [stage_fail_self]
      exact .inr ⟨err, rfl⟩
    · rw [stage_fail_of_ne err heq]
      exact ho
  blockers := by
    intro other hwait hlat
    have hnotFailed : ¬ ((sched.fail job err).stage other).IsFailed := by
      rw [hwait]
      exact not_isFailed_waiting
    obtain ⟨-, hnot, hp⟩ := spared_of_fail hkept hparents hnotFailed hlat
    obtain ⟨blockers, hnodup, hlen, hiff⟩ :=
      h.blockers other (stage_of_fail hwait not_isFailed_waiting).1 hnot
    refine ⟨blockers, hnodup, hlen, fun dep => ?_⟩
    rw [← hiff, mem_parents_fail, and_iff_right_iff_imp]
    rintro hin rfl
    exact hp hin
  outer := by
    intro other hsome hnot hlat req hreq hout
    obtain ⟨hb, hfree, hp⟩ := spared_of_fail hkept hparents hnot hlat
    rw [isDone_fail (hdoomed.not_done job mem_cons_self), mem_parents_fail]
    refine (h.outer other hsome hb hfree req hreq hout).imp_right fun hin => ⟨?_, hin⟩
    intro heq
    rw [heq] at hin
    exact hp hin
  inner := by
    intro other k hk hnot hlat req hreq hins j hj hlt
    obtain ⟨hb, hfree, hp⟩ := spared_of_fail hkept hparents hnot hlat
    rw [isDone_fail (hdoomed.not_done job mem_cons_self), mem_parents_fail]
    refine (h.inner other k hk hb hfree req hreq hins j hj hlt).imp_right fun hin => ⟨?_, hin⟩
    rintro rfl
    exact hp hin
  young := fun _ => (h.walked_fail hdoomed).young_of_nil
  cause := by
    intro other err' herr
    by_cases heq : other = job
    · subst heq
      rw [stage_fail_self] at herr
      cases herr
      exact hdoomed.cause other mem_cons_self
    · rw [stage_fail_of_ne err heq] at herr
      exact h.cause other err' herr

end Fail

end TachyonEngine.Lib.Scheduling
