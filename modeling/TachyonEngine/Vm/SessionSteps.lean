import TachyonEngine.Vm.SessionInvariant

/-!
# The steps of a careful session

Every step of a careful session keeps what holds of it. Loading does not show, a call that returns
is accounted for, and a body that runs finds done what it requests.
-/

namespace TachyonEngine.Vm

open Lib.Scheduling ModuleGraph List

/-- The stage of a module that came to an outcome. -/
def RunOutcome.stage : RunOutcome → Stage Value
  | .completed value => .done value
  | .thrown error => .failed error

theorem ModuleRecord.outcome_eq_some {rec : ModuleRecord} {outcome : RunOutcome} :
    rec.outcome = some outcome ↔ rec.evaluation.stage = outcome.stage := by
  cases outcome with
  | completed val =>
    rw [RunOutcome.stage, ModuleEvaluationState.stage_eq_done, ModuleRecord.outcome]
    cases rec.evaluation <;> simp
  | thrown err =>
    rw [RunOutcome.stage, ModuleEvaluationState.stage_eq_failed, ModuleRecord.outcome]
    cases rec.evaluation <;> simp

/-- A call finds the outcome of the root of the component. -/
theorem ModuleGraph.evaluationOutcome_eq_some {g : ModuleGraph} (hg : Linkable g) {root : ModuleId}
    {outcome : RunOutcome} : g.evaluationOutcome root = .ok (some outcome) ↔
      g.IsLinked root ∧ g.schedule.stage (g.rootOf root) = outcome.stage := by
  constructor
  · intro h
    rw [evaluationOutcome] at h
    split at h
    · cases h
    next cycleRoot hcycle =>
      rw [ModuleGraph.cycleRoot] at hcycle
      split at hcycle
      · cases hcycle
      next rec hrec =>
        split at hcycle
        next cycleRoot' hstat =>
          cases hcycle
          have hlk : g.CycleRoot root cycleRoot := ⟨rec, hrec, hstat⟩
          refine ⟨hlk.isLinked, ?_⟩
          rw [rootOf_of_cycleRoot hlk]
          split at h
          · cases h
          next rootRecord hrootRecord =>
            rw [stage_eq hrootRecord]
            exact ModuleRecord.outcome_eq_some.mp (Except.ok.inj h)
        · cases hcycle
  · rintro ⟨hlk, hsg⟩
    obtain ⟨rootRecord, hrootRecord, -⟩ := (hg.rooted.mem_root root hlk).record
    rw [evaluationOutcome, cycleRoot_eq hlk.cycleRoot]
    dsimp only
    rw [hrootRecord]
    rw [stage_eq hrootRecord] at hsg
    exact congrArg Except.ok (ModuleRecord.outcome_eq_some.mpr hsg)

namespace EvaluationSession

variable {sess : EvaluationSession}

/-! ## Loading -/

/-- A new session. -/
theorem sane_new (limits : ModuleLimits) : (new limits).Sane where
  linkable := linkable_new limits
  small := Nat.zero_le _
  epochs :=
    { divides := dvd_refl 4
      positive := (by decide : 0 < 4)
      below := fun mdl rec hrec => nomatch hrec }
  resting := fun mdl rec hrec => nomatch hrec
  scheduled :=
    { ready_nodup := nodup_nil
      ready_stage := fun _ hm => nomatch hm
      ready_of_fresh := fun _ _ hsome => absurd rfl hsome
      ready_of_waiting := fun _ hwait => nomatch hwait
      order_lt := fun _ _ hsome => nomatch hsome
      order_of_stage := fun _ => .inl rfl
      parents_nodup := fun _ => nodup_nil
      parent := fun _ _ hm => nomatch hm
      blockers := fun _ hwait => nomatch hwait
      outer := fun _ hsome => absurd rfl hsome
      inner := fun _ _ hsome => nomatch hsome
      entered := fun _ _ hsome => nomatch hsome
      closed := by
        rintro job (hsome | ⟨err, hfl⟩)
        · exact absurd rfl hsome
        · cases hfl
      young := fun _ hsome => absurd rfl hsome
      unregistered := by
        rintro job ⟨err, hfl⟩
        cases hfl
      cause := fun _ _ hfl => nomatch hfl
      mem_part := by
        rintro job (hsome | ⟨err, hfl⟩)
        · exact absurd rfl hsome
        · cases hfl }
  suspended_nodup := nodup_nil
  suspended_iff := fun _ => iff_of_false (fun hm => nomatch hm) (fun hsg => nomatch hsg)
  completed_iff := by
    refine fun _ => iff_of_false (fun hm => nomatch hm) ?_
    rintro ⟨val, hdone⟩
    cases hdone
  failed_of_threw := fun _ _ hm => nomatch hm
  stage_of_started := fun _ _ hm => nomatch hm
  started_of_stage := fun _ hsg => nomatch hsg
  not_busy := fun hphase => nomatch hphase
  evaluating := fun _ hphase => nomatch hphase
  called := fun _ _ hm => nomatch hm
  stored := fun _ _ hm => nomatch hm
  history := history_nil _

variable {post : ModuleGraph}

/-- A module is inserted, or modules are linked. -/
theorem Sane.load (h : sess.Sane) (hextends : sess.graph.Extends post)
    (hlinkable : Linkable post) (hfree : sess.Free) : ({ sess with graph := post }).Sane := by
  have hsched := hextends.schedule
  have hlk : ∀ {mdl : ModuleId}, sess.graph.IsLinked mdl →
      post.IsLinked mdl ∧ post.rootOf mdl = sess.graph.rootOf mdl := by
    intro mdl hmod
    have hcycle := (hextends.linked mdl _ hmod.cycleRoot).1
    exact ⟨hcycle.isLinked, rootOf_of_cycleRoot hcycle⟩
  refine
    { linkable := hlinkable
      small := hextends.small h.small
      epochs := hextends.epochs h.epochs
      resting := ?_
      scheduled := ?_
      suspended_nodup := h.suspended_nodup
      suspended_iff := ?_
      completed_iff := ?_
      failed_of_threw := ?_
      stage_of_started := ?_
      started_of_stage := ?_
      not_busy := h.not_busy
      evaluating := fun root hphase => absurd hphase (hfree root)
      called := fun root res hm => (hlk (h.called root res hm)).1
      stored := ?_
      history := ?_ }
  · intro mdl rec' hrec'
    rcases hextends.record mdl with ⟨rec, rec'', hrec, hrec'', hs⟩ | ⟨-, hnew⟩
    · rw [hrec'] at hrec''
      cases hrec''
      rw [hs.evaluation]
      exact h.resting mdl rec hrec
    · obtain ⟨init, rfl⟩ := hnew rec' hrec'
      exact fun heval => nomatch heval
  · rw [hsched]
    refine h.scheduled.transport ?_ ?_ ?_ fun _ _ hthrew => hthrew
    · exact fun mdl hmod =>
        (hextends.linked mdl _ (h.scheduled.mem_part mdl hmod).cycleRoot).2
    · exact fun mdl hmod => (hlk (h.scheduled.mem_part mdl hmod)).2
    · exact fun mdl hmod => (hlk (h.scheduled.mem_part mdl hmod)).1
  · rw [hsched]
    exact h.suspended_iff
  · rw [hsched]
    exact h.completed_iff
  · rw [hsched]
    exact h.failed_of_threw
  · rw [hsched]
    exact fun root mdl hm => (h.stage_of_started root mdl hm).imp_left fun hroot => (hlk hroot).1
  · rw [hsched]
    exact h.started_of_stage
  · intro root outcome hm
    obtain ⟨hroot, hsg⟩ := (evaluationOutcome_eq_some h.linkable).mp (h.stored root outcome hm)
    refine (evaluationOutcome_eq_some hlinkable).mpr ⟨(hlk hroot).1, ?_⟩
    rw [hsched, (hlk hroot).2]
    exact hsg
  · exact h.history.transport (fun root mdl hm => (h.stage_of_started root mdl hm).1) h.called
      fun mdl other hmod => hextends.leads_iff h.linkable hmod

/-! ## Calls -/

variable {root : ModuleId}

/-- A call returns, and an evaluation may end. -/
theorem Sane.answer (h : sess.Sane) {phase : SessionPhase}
    {res : Except EvaluationError RunOutcome} (hphase : phase = sess.phase ∨ phase = .idle)
    (hroot : sess.graph.IsLinked root) (haccounts : Accounts sess.graph root sess.trace res)
    (hs : ∀ outcome, .returned root (.ok outcome) ∈ sess.trace → res = .ok outcome)
    (hsto : ∀ outcome, res = .ok outcome → sess.graph.evaluationOutcome root = .ok (some outcome)) :
    ({ sess with
        phase := phase
        trace := .returned root res :: sess.trace }).Sane where
  linkable := h.linkable
  small := h.small
  epochs := h.epochs
  resting := h.resting
  scheduled := h.scheduled.transport (fun _ _ => rfl) (fun _ _ => rfl) h.scheduled.mem_part
    fun _ _ hthrew => mem_cons_of_mem _ hthrew
  suspended_nodup := h.suspended_nodup
  suspended_iff := h.suspended_iff
  completed_iff := by
    intro mdl
    rw [← h.completed_iff, mem_cons]
    exact or_iff_right fun heq => nomatch heq
  failed_of_threw := by
    intro mdl err hm
    rcases mem_cons.mp hm with heq | hm
    · cases heq
    · exact h.failed_of_threw mdl err hm
  stage_of_started := by
    intro other mdl hm
    rcases mem_cons.mp hm with heq | hm
    · cases heq
    · exact h.stage_of_started other mdl hm
  started_of_stage := by
    intro mdl hsg
    obtain ⟨other, hm⟩ := h.started_of_stage mdl hsg
    exact ⟨other, mem_cons_of_mem _ hm⟩
  not_busy := by
    rcases hphase with rfl | rfl
    · exact h.not_busy
    · exact fun hbusy => nomatch hbusy
  evaluating := by
    intro other ho
    rcases hphase with rfl | rfl
    · exact h.evaluating other ho
    · cases ho
  called := by
    intro other res' hm
    rcases mem_cons.mp hm with heq | hm
    · cases heq
      exact hroot
    · exact h.called other res' hm
  stored := by
    intro other outcome hm
    rcases mem_cons.mp hm with heq | hm
    · cases heq
      exact hsto outcome rfl
    · exact h.stored other outcome hm
  history := h.history.returned haccounts hs

variable {outcome : RunOutcome}

section

variable (h : sess.Sane)

include h

/-- What is stored about a root accounts for what it leads to. -/
theorem Sane.accounts (hout : sess.graph.evaluationOutcome root = .ok (some outcome)) :
    Accounts sess.graph root sess.trace (.ok outcome) := by
  obtain ⟨hroot, hsg⟩ := (evaluationOutcome_eq_some h.linkable).mp hout
  have hrooted := h.linkable.rooted
  cases outcome with
  | completed val =>
    intro mdl hmod
    rw [h.completed_iff]
    exact h.scheduled.reached_done hrooted (hrooted.root_root hroot) ⟨val, hsg⟩
      ((hrooted.from_root root hroot).trans hmod)
  | thrown err =>
    obtain ⟨reached, hreached, hthrew⟩ := h.scheduled.cause _ err hsg
    exact ⟨reached, (hrooted.to_root root hroot).trans hreached, hthrew⟩

theorem Sane.returns (hout : sess.graph.evaluationOutcome root = .ok (some outcome)) :
    (sess.returns root (.ok outcome)).Sane := by
  refine h.answer (.inl rfl) ((evaluationOutcome_eq_some h.linkable).mp hout).1
    (h.accounts hout) ?_ ?_
  · intro other hm
    have ho := h.stored root other hm
    rw [hout] at ho
    cases ho
    rfl
  · intro other heq
    cases heq
    exact hout

section

variable (hphase : sess.phase = .evaluating root)

include hphase

/-- The root of an evaluation is the root of its component. -/
theorem Sane.rootOutcome_eq : sess.graph.evaluationOutcome root = .ok (sess.rootOutcome root) := by
  have hcycle := (h.evaluating root hphase).1
  obtain ⟨rec, hrec, -⟩ := id hcycle
  rw [evaluationOutcome, cycleRoot_eq hcycle, rootOutcome]
  dsimp only
  rw [hrec]

theorem Sane.done (hout : sess.rootOutcome root = some outcome) :
    (sess.ends root (.ok outcome)).Sane := by
  have hsto := h.rootOutcome_eq hphase
  rw [hout] at hsto
  refine h.answer (.inr rfl) (h.evaluating root hphase).1.isLinked (h.accounts hsto) ?_ ?_
  · intro other hm
    have ho := h.stored root other hm
    rw [hsto] at ho
    cases ho
    rfl
  · intro other heq
    cases heq
    exact hsto

/-- An evaluation that has nothing to run waits for a body that it leads to. -/
theorem Sane.pends (hopen : sess.rootOutcome root = none)
    (hidle : sess.graph.takeReadyModule = none) :
    (sess.ends root (.error (.asyncEvaluationPending root))).Sane := by
  have hsto := h.rootOutcome_eq hphase
  rw [hopen] at hsto
  obtain ⟨hcycle, htou, -⟩ := h.evaluating root hphase
  have hnot : ∀ outcome : RunOutcome, sess.graph.schedule.stage root ≠ outcome.stage := by
    intro outcome hsg
    rw [← rootOf_of_cycleRoot hcycle] at hsg
    rw [(evaluationOutcome_eq_some h.linkable).mpr ⟨hcycle.isLinked, hsg⟩] at hsto
    cases hsto
  have hdone : ¬ (sess.graph.schedule.stage root).IsDone := fun ⟨val, hv⟩ =>
    hnot (.completed val) hv
  have hfl : ¬ (sess.graph.schedule.stage root).IsFailed := fun ⟨err, herr⟩ =>
    hnot (.thrown err) herr
  obtain ⟨reached, hreached, hstd⟩ := h.scheduled.exists_started (takeReadyModule_eq_none.mp hidle)
    htou hdone hfl
  refine h.answer (.inr rfl) hcycle.isLinked ⟨rfl, reached, hreached,
    h.started_of_stage reached hstd, ?_, ?_⟩
    ?_ ?_
  · rw [h.completed_iff, hstd]
    exact Stage.not_isDone_started
  · intro err hthrew
    have hfl := h.failed_of_threw reached err hthrew
    rw [hstd] at hfl
    exact Stage.not_isFailed_started hfl
  · intro outcome hm
    have ho := h.stored root outcome hm
    rw [hsto] at ho
    cases ho
  · intro outcome heq
    cases heq

end

/-! ## The start of an evaluation -/

theorem Sane.starts {run : StartRun} (hbegins : sess.graph.MayBegin root)
    (hrun : sess.graph.beginEvaluationStart root = .ok run) (hstarts : Starts run (.ok (), post)) :
    ({ sess with graph := post, phase := .evaluating root }).Sane := by
  obtain ⟨run', order, walked, post', hrun', hpost, hremarks, hkeeps, hepochs, hsched, hreg,
    htou, -, hunique⟩ := starts_eq h.linkable h.epochs h.small h.scheduled hbegins
  rw [hrun] at hrun'
  cases hrun'
  cases hunique _ hstarts
  have hlinks := hremarks.keepsLinks.trans hkeeps.links
  have hrequested := hlinks.alike.requested
  have hroots := hlinks.rootOf
  have hparts := hlinks.isLinked
  have hlinkable := h.linkable.keepsLinks hlinks
  -- a module that was registered is neither started nor done
  have hkept : ∀ {mdl : ModuleId} {stage : Stage Value}, sess.graph.schedule.stage mdl = stage →
      stage ≠ .fresh → post.schedule.stage mdl = stage := by
    rintro mdl stage rfl hne
    exact (hreg.stage mdl).resolve_right fun h => hne h.2.1
  have hback : ∀ {mdl : ModuleId} {stage : Stage Value}, post.schedule.stage mdl = stage →
      stage ≠ .waiting → ¬ stage.IsFailed → sess.graph.schedule.stage mdl = stage := by
    rintro mdl stage rfl hwait hfl
    rcases hreg.stage mdl with hs | ⟨-, -, hcases⟩
    · exact hs.symm
    · exact absurd hcases (not_or.mpr ⟨hwait, hfl⟩)
  refine
    { linkable := hlinkable
      small := ?_
      epochs := hepochs
      resting := ?_
      scheduled := ?_
      suspended_nodup := h.suspended_nodup
      suspended_iff := ?_
      completed_iff := ?_
      failed_of_threw := ?_
      stage_of_started := ?_
      started_of_stage := ?_
      not_busy := fun hphase => nomatch hphase
      evaluating := ?_
      called := ?_
      stored := ?_
      history := ?_ }
  · rw [hlinks.alike.length, hkeeps.limits, hremarks.limits]
    exact h.small
  · refine hkeeps.resting fun mdl rec hrec => ?_
    obtain ⟨pre, hb, -⟩ := hremarks.keepsLinks.record hrec
    rcases hremarks.record mdl with ⟨rec', rec'', hrec', hrec'', hs⟩ | ⟨hn, -⟩
    · rw [hrec] at hrec''
      cases hrec''
      rw [field_eq hs ModuleRecord.evaluation fun _ => rfl]
      exact h.resting mdl rec' hrec'
    · rw [hb] at hn
      cases hn
  · rw [hrequested, hroots, hparts]
    exact hsched
  · intro mdl
    rw [h.suspended_iff]
    exact ⟨fun hsg => hkept hsg fun heq => (nomatch heq),
      fun hsg => hback hsg (fun heq => nomatch heq) Stage.not_isFailed_started⟩
  · intro mdl
    rw [h.completed_iff]
    constructor
    · rintro ⟨val, hv⟩
      exact ⟨val, hkept hv fun heq => (nomatch heq)⟩
    · rintro ⟨val, hv⟩
      refine ⟨val, hback hv (fun heq => nomatch heq) ?_⟩
      rintro ⟨err, herr⟩
      cases herr
  · intro mdl err hm
    obtain ⟨val, hv⟩ := h.failed_of_threw mdl err hm
    exact ⟨val, hkept hv fun heq => (nomatch heq)⟩
  · intro other mdl hm
    obtain ⟨ho, hfr, hwait⟩ := h.stage_of_started other mdl hm
    have hs := hkept (rfl : sess.graph.schedule.stage mdl = _) hfr
    rw [hparts, hs]
    exact ⟨ho, hfr, hwait⟩
  · intro mdl hsg
    exact h.started_of_stage mdl (hback hsg (fun heq => nomatch heq) Stage.not_isFailed_started)
  · intro other ho
    cases ho
    refine ⟨hlinks.cycleRoot_iff.mpr hbegins.cycleRoot, htou, fun mdl hmod => ?_⟩
    rw [hlinks.leads]
    rcases hmod with hready | hwait
    · rcases hreg.ready mdl hready with hb | hm
      · exact hbegins.reached mdl (.inl hb)
      · exact (hpost.mem_iff mdl).mp hm
    · rcases hreg.stage mdl with hs | ⟨hm, -⟩
      · exact hbegins.reached mdl (.inr (hs.symm.trans hwait))
      · exact (hpost.mem_iff mdl).mp hm
  · rw [hparts]
    exact h.called
  · intro other outcome hm
    obtain ⟨ho, hsg⟩ := (evaluationOutcome_eq_some h.linkable).mp (h.stored other outcome hm)
    refine (evaluationOutcome_eq_some hlinkable).mpr ⟨hparts ▸ ho, ?_⟩
    rw [hroots]
    refine hkept hsg ?_
    cases outcome with
    | completed val | thrown err => exact fun heq => nomatch heq
  · refine h.history.transport (fun other mdl hm => (h.stage_of_started other mdl hm).1) h.called
      fun mdl other _ => ?_
    rw [hlinks.leads]

/-! ## Bodies -/

/-- A body goes on, and the events say how it came to its stage. -/
theorem Sane.progress {mdl : ModuleId} {stage : Stage Value}
    (events : List EvaluationEvent) {suspended : List ModuleId}
    (hkeeps : sess.graph.KeepsMarks post) (hresting : post.Resting)
    (hsched : Scheduled sess.graph.requested sess.graph.rootOf sess.graph.IsLinked
      (fun mdl err => .threw mdl err ∈ events ++ sess.trace) [] [] post.schedule)
    (hended : Ended mdl stage sess.graph.schedule post.schedule)
    (hdone : ¬ (sess.graph.schedule.stage mdl).IsDone)
    (hfl : ¬ (sess.graph.schedule.stage mdl).IsFailed) (hfr : stage ≠ .fresh)
    (hwait : stage ≠ .waiting)
    (hcompleted : ∀ other, .completed other ∈ events ↔ other = mdl ∧ stage.IsDone)
    (hthrew : ∀ other err, .threw other err ∈ events → other = mdl ∧ stage.IsFailed)
    (hstd : ∀ root other, .started root other ∈ events →
      sess.graph.IsLinked root ∧ other = mdl)
    (hruns : stage = .started → ∃ root, .started root mdl ∈ events ++ sess.trace)
    (hret : ∀ root res, .returned root res ∉ events) (hnodup : suspended.Nodup)
    (hsuspended : ∀ other, other ∈ suspended ↔
      other ≠ mdl ∧ other ∈ sess.suspended ∨ other = mdl ∧ stage = .started)
    (hhistory : History sess.graph (events ++ sess.trace)) :
    ({ sess with
        graph := post
        suspended := suspended
        trace := events ++ sess.trace }).Sane := by
  have hlinks := hkeeps.links
  have hrequested := hlinks.alike.requested
  have hroots := hlinks.rootOf
  have hparts := hlinks.isLinked
  have hlinkable := h.linkable.keepsLinks hlinks
  have hself := hended.self
  have hkept : ∀ {other : ModuleId} {old : Stage Value}, other ≠ mdl →
      sess.graph.schedule.stage other = old → old ≠ .waiting → post.schedule.stage other = old := by
    rintro other old hne rfl hold
    exact (hended.stage other hne).resolve_right fun hboth => hold hboth.1
  have hback : ∀ {other : ModuleId} {new : Stage Value}, other ≠ mdl →
      post.schedule.stage other = new → ¬ new.IsFailed → sess.graph.schedule.stage other = new := by
    rintro other new hne rfl hnew
    rcases hended.stage other hne with hs | ⟨-, hboth⟩
    · exact hs.symm
    · exact absurd hboth hnew
  -- what the trace says of the module before is that it started
  have hopen : ∀ {other : ModuleId}, (sess.graph.schedule.stage other).IsDone → other ≠ mdl := by
    rintro other ho rfl
    exact hdone ho
  have hlive : ∀ {other : ModuleId}, (sess.graph.schedule.stage other).IsFailed → other ≠ mdl := by
    rintro other ho rfl
    exact hfl ho
  refine
    { linkable := hlinkable
      small := ?_
      epochs := ?_
      resting := hresting
      scheduled := ?_
      suspended_nodup := hnodup
      suspended_iff := ?_
      completed_iff := ?_
      failed_of_threw := ?_
      stage_of_started := ?_
      started_of_stage := ?_
      not_busy := h.not_busy
      evaluating := ?_
      called := ?_
      stored := ?_
      history := ?_ }
  · rw [hlinks.alike.length, hkeeps.limits]
    exact h.small
  · refine ⟨?_, ?_, ?_⟩
    · rw [hkeeps.epoch]
      exact h.epochs.divides
    · rw [hkeeps.epoch]
      exact h.epochs.positive
    · intro other rec' hrec'
      obtain ⟨rec, hrec, -⟩ := hlinks.record hrec'
      rw [hkeeps.epoch, (hkeeps.record other rec rec' hrec hrec').1]
      exact h.epochs.below other rec hrec
  · rw [hrequested, hroots, hparts]
    exact hsched
  · intro other
    rw [hsuspended]
    by_cases heq : other = mdl
    · subst heq
      rw [hself]
      exact ⟨fun hcases => (hcases.resolve_left fun hboth => hboth.1 rfl).2,
        fun hsg => .inr ⟨rfl, hsg⟩⟩
    · rw [h.suspended_iff]
      constructor
      · rintro (⟨-, hsg⟩ | ⟨hmod, -⟩)
        · exact hkept heq hsg fun h => (nomatch h)
        · exact absurd hmod heq
      · exact fun hsg => .inl ⟨heq, hback heq hsg Stage.not_isFailed_started⟩
  · intro other
    rw [mem_append, hcompleted, h.completed_iff]
    by_cases heq : other = mdl
    · subst heq
      rw [hself]
      exact ⟨fun hcases => (hcases.resolve_right hdone).2, fun hsg => .inl ⟨rfl, hsg⟩⟩
    · constructor
      · rintro (⟨hmod, -⟩ | ⟨val, hv⟩)
        · exact absurd hmod heq
        · exact ⟨val, hkept heq hv fun h => (nomatch h)⟩
      · rintro ⟨val, hv⟩
        refine .inr ⟨val, hback heq hv ?_⟩
        rintro ⟨err, herr⟩
        cases herr
  · intro other err hm
    rcases mem_append.mp hm with hm | hm
    · obtain ⟨rfl, hsg⟩ := hthrew other err hm
      rw [hself]
      exact hsg
    · have hb := h.failed_of_threw other err hm
      obtain ⟨val, hv⟩ := id hb
      exact ⟨val, hkept (hlive hb) hv fun h => (nomatch h)⟩
  · intro root other hm
    rw [hparts]
    by_cases heq : other = mdl
    · subst heq
      rw [hself]
      refine ⟨?_, hfr, hwait⟩
      rcases mem_append.mp hm with hm | hm
      · exact (hstd root other hm).1
      · exact (h.stage_of_started root other hm).1
    · rcases mem_append.mp hm with hm | hm
      · exact absurd (hstd root other hm).2 heq
      · obtain ⟨hroot, hotherFresh, hotherWaiting⟩ := h.stage_of_started root other hm
        rw [hkept heq rfl hotherWaiting]
        exact ⟨hroot, hotherFresh, hotherWaiting⟩
  · intro other hsg
    by_cases heq : other = mdl
    · subst heq
      exact hruns (hself.symm.trans hsg)
    · obtain ⟨root, hm⟩ := h.started_of_stage other (hback heq hsg Stage.not_isFailed_started)
      exact ⟨root, mem_append_right _ hm⟩
  · intro root hphase
    obtain ⟨hcycle, htou, hall⟩ := h.evaluating root hphase
    refine ⟨hlinks.cycleRoot_iff.mpr hcycle, ?_, fun other ho => ?_⟩
    · have hord : sess.graph.schedule.order root ≠ none ∨
          (sess.graph.schedule.stage root).IsFailed := htou
      refine hord.imp (fun hsome => ?_) fun hroot => ?_
      · rw [hended.order]
        exact hsome
      · obtain ⟨err, herr⟩ := id hroot
        exact ⟨err, hkept (hlive hroot) herr fun h => (nomatch h)⟩
    · rw [hlinks.leads]
      rcases ho with hready | hsg
      · exact hall other (hended.ready other hready)
      · refine hall other (.inr (hback ?_ hsg Stage.not_isFailed_waiting))
        rintro rfl
        exact hwait (hself.symm.trans hsg)
  · intro root res hm
    rw [hparts]
    exact h.called root res ((mem_append.mp hm).resolve_left (hret root res))
  · intro root outcome hm
    have hb := (mem_append.mp hm).resolve_left (hret root (.ok outcome))
    obtain ⟨hroot, hsg⟩ := (evaluationOutcome_eq_some h.linkable).mp (h.stored root outcome hb)
    refine (evaluationOutcome_eq_some hlinkable).mpr ⟨hparts ▸ hroot, ?_⟩
    rw [hroots]
    cases outcome with
    | completed val => exact hkept (hopen ⟨val, hsg⟩) hsg fun h => (nomatch h)
    | thrown err => exact hkept (hlive ⟨err, hsg⟩) hsg fun h => (nomatch h)
  · have hstartedLinked : ∀ root other, .started root other ∈ events ++ sess.trace →
        sess.graph.IsLinked root := by
      intro root other hm
      rcases mem_append.mp hm with hm | hm
      · exact (hstd root other hm).1
      · exact (h.stage_of_started root other hm).1
    have hcalled : ∀ root res, .returned root res ∈ events ++ sess.trace →
        sess.graph.IsLinked root := fun root res hm =>
      h.called root res ((mem_append.mp hm).resolve_left (hret root res))
    refine hhistory.transport hstartedLinked hcalled fun other reached _ => ?_
    rw [hlinks.leads]

end

end EvaluationSession

end TachyonEngine.Vm
