import TachyonEngine.Vm.SessionPerform
import TachyonEngine.Vm.SessionSteps

/-!
# What careful sessions come to

In every session that is careful a body runs at most once and on request.
-/

namespace TachyonEngine.Vm

open Lib.Scheduling ModuleGraph List

/-- The events of a body that has run say how it ended. -/
theorem BodyOutcome.mem_events {outcome : BodyOutcome} {root mdl : ModuleId}
    {event : EvaluationEvent} (h : event ∈ outcome.events mdl ++ [.started root mdl]) :
    (∃ val, outcome = .completed val ∧ event = .completed mdl) ∨
      (∃ err, outcome = .thrown err ∧ event = .threw mdl err) ∨ event = .started root mdl := by
  rcases mem_append.mp h with h | h
  · cases outcome with
    | completed val => exact .inl ⟨val, rfl, mem_singleton.mp h⟩
    | thrown err => exact .inr (.inl ⟨err, rfl, mem_singleton.mp h⟩)
    | suspended | failed => cases h
  · exact .inr (.inr (mem_singleton.mp h))

namespace EvaluationSession

variable {sess : EvaluationSession}

variable {mdl : ModuleId}

/-- A ready module starts, and its body ends or is suspended. -/
theorem Sane.execute (h : sess.Sane) {root : ModuleId} {taken : ModuleGraph} {st : Value} {outcome :
    BodyOutcome} (hph : sess.phase = .evaluating root) (htake : sess.graph.takeReadyModule = some
    (mdl, taken)) (hcareful : sess.Careful (.run st outcome)) :
    ∃ started post, taken.startReadyModule mdl = .ok started ∧
      started.executeReadyModule mdl st outcome = .ok post ∧
      ({ sess with
          graph := post
          suspended :=
            if outcome = BodyOutcome.suspended then mdl :: sess.suspended else sess.suspended
          trace :=
            outcome.events mdl ++ EvaluationEvent.started root mdl :: sess.trace }).Sane := by
  have hrooted := h.linkable.rooted
  obtain ⟨started, rec, queue, hst, hkeeps, hrec, heval, hos, hperm, hschedule⟩ :=
    startReadyModule_eq htake h.scheduled
  have hready : mdl ∈ sess.graph.schedule.ready := hperm.mem_iff.mpr mem_cons_self
  obtain ⟨hsg, hord, -⟩ := h.scheduled.ready_stage mdl hready
  have hdone : ¬ (sess.graph.schedule.stage mdl).IsDone := by
    rcases hsg with hsg | hsg
    · rw [hsg]
      exact Stage.not_isDone_fresh
    · rw [hsg]
      exact Stage.not_isDone_waiting
  have hfl := h.scheduled.not_failed_of_ready hready
  obtain ⟨hcycle, -, hall⟩ := h.evaluating root hph
  obtain ⟨pre, hb⟩ := exists_record_of_order hord
  have hfits : outcome.Fits rec.hasTopLevelAwait := by
    rw [(hkeeps.record mdl pre rec hb hrec).2]
    exact hcareful mdl taken pre htake hb
  -- the trace in which the body has run
  have hresting : ∀ other rec, started.record other = .ok rec → rec.evaluation = .evaluating →
      other = mdl := by
    intro other rec' hrec' ho
    by_contra hne
    rw [hos other hne] at hrec'
    exact h.resting other rec' hrec' ho
  have hstartScheduled : Scheduled sess.graph.requested sess.graph.rootOf sess.graph.IsLinked
      (fun other err => .threw other err ∈
        (outcome.events mdl ++ [.started root mdl]) ++ sess.trace) [] [] started.schedule := by
    rw [hschedule]
    exact (h.scheduled.start hperm).transport (fun _ _ => rfl) (fun _ _ => rfl)
      (h.scheduled.start hperm).mem_part fun _ _ hthrew => mem_append_right _ hthrew
  obtain ⟨post, stage, ha, hkeepsAfter, hsched, hrests, hbrings, hended⟩ :=
    executeReadyModule_eq hrec heval hstartScheduled hresting st outcome hfits fun err heq => by
      subst heq
      exact mem_append_left _ mem_cons_self
  have hmoved : Ended mdl stage sess.graph.schedule post.schedule := by
    rw [hschedule] at hended
    refine ⟨hended.self, fun other hne => ?_, fun other hm => ?_, hended.order⟩
    · have hcases := hended.stage other hne
      rw [show (sess.graph.schedule.start mdl queue).stage other = sess.graph.schedule.stage
        other from
        Function.update_of_ne hne _ _] at hcases
      exact hcases
    · rcases hended.ready other hm with hqueue | hwait
      · exact .inl (hperm.mem_iff.mpr (mem_cons_of_mem _ hqueue))
      · by_cases heq : other = mdl
        · subst heq
          exact .inl hready
        · rw [show (sess.graph.schedule.start mdl queue).stage other =
            sess.graph.schedule.stage other from Function.update_of_ne heq _ _] at hwait
          exact .inr hwait
  -- the body had not started
  have hnotSuspended : mdl ∉ sess.suspended := by
    rw [h.suspended_iff]
    intro hrunning
    rw [hrunning] at hsg
    exact hsg.elim (fun heq => nomatch heq) (fun heq => nomatch heq)
  have hnew : ∀ other, .started other mdl ∉ sess.trace := by
    intro other hm
    obtain ⟨-, hfr, hwait⟩ := h.stage_of_started other mdl hm
    exact hsg.elim hfr hwait
  have hleads := hall mdl (.inl hready)
  have hstd : History sess.graph (.started root mdl :: sess.trace) := h.history.started hnew hleads
  have hhistory : History sess.graph (outcome.events mdl ++ .started root mdl :: sess.trace) := by
    cases outcome with
    | completed val | thrown err => exact hstd.ended rfl fun root res heq => nomatch heq
    | suspended | failed => exact hstd
  have happend : outcome.events mdl ++ .started root mdl :: sess.trace =
      (outcome.events mdl ++ [.started root mdl]) ++ sess.trace := by
    rw [append_assoc, singleton_append]
  refine ⟨started, post, hst, ha, ?_⟩
  rw [happend]
  refine h.progress (outcome.events mdl ++ [.started root mdl])
    (hkeeps.trans hkeepsAfter) hrests hsched hmoved hdone hfl ?_ ?_ ?_ ?_ ?_ ?_ ?_ ?_ ?_
    (happend ▸ hhistory)
  · rintro rfl
    cases outcome with
    | completed val => exact Stage.not_isDone_fresh hbrings
    | thrown err | suspended => cases hbrings
    | failed => exact hbrings
  · rintro rfl
    cases outcome with
    | completed val => exact Stage.not_isDone_waiting hbrings
    | thrown err | suspended => cases hbrings
    | failed => exact hbrings
  · intro other
    constructor
    · intro hm
      rcases BodyOutcome.mem_events hm with ⟨val, rfl, heq⟩ | ⟨err, -, heq⟩ | heq
      · cases heq
        exact ⟨rfl, hbrings⟩
      · cases heq
      · cases heq
    · rintro ⟨rfl, hstageDone⟩
      cases outcome with
      | completed val => exact mem_cons_self
      | thrown err => exact absurd ⟨err, hbrings⟩ hstageDone.not_failed
      | suspended =>
        rw [show stage = .started from hbrings] at hstageDone
        exact absurd hstageDone Stage.not_isDone_started
      | failed => exact absurd hbrings id
  · intro other err hm
    rcases BodyOutcome.mem_events hm with ⟨val, -, heq⟩ | ⟨err', rfl, heq⟩ | heq
    · cases heq
    · cases heq
      exact ⟨rfl, err, hbrings⟩
    · cases heq
  · intro other run hm
    rcases BodyOutcome.mem_events hm with ⟨val, -, heq⟩ | ⟨err, -, heq⟩ | heq
    · cases heq
    · cases heq
    · cases heq
      exact ⟨hcycle.isLinked, rfl⟩
  · exact fun _ => ⟨root, mem_append_left _ (mem_append_right _ mem_cons_self)⟩
  · intro other res hm
    rcases BodyOutcome.mem_events hm with ⟨val, -, heq⟩ | ⟨err, -, heq⟩ | heq
    · cases heq
    · cases heq
    · cases heq
  · split
    · exact nodup_cons.mpr ⟨hnotSuspended, h.suspended_nodup⟩
    · exact h.suspended_nodup
  · intro other
    have hold : ∀ {other : ModuleId}, other ∈ sess.suspended → other ≠ mdl := by
      rintro other hm rfl
      exact hnotSuspended hm
    cases outcome with
    | suspended =>
      rw [if_pos rfl, mem_cons]
      constructor
      · rintro (rfl | hm)
        · exact .inr ⟨rfl, hbrings⟩
        · exact .inl ⟨hold hm, hm⟩
      · rintro (⟨-, hm⟩ | ⟨rfl, -⟩)
        · exact .inr hm
        · exact .inl rfl
    | completed val =>
      refine ⟨fun hm => .inl ⟨hold hm, hm⟩, ?_⟩
      rintro (⟨-, hm⟩ | ⟨-, rfl⟩)
      · exact hm
      · exact absurd hbrings Stage.not_isDone_started
    | thrown err =>
      refine ⟨fun hm => .inl ⟨hold hm, hm⟩, ?_⟩
      rintro (⟨-, hm⟩ | ⟨-, rfl⟩)
      · exact hm
      · cases hbrings
    | failed => exact absurd hbrings id

/-- A suspended body comes to its result. -/
theorem Sane.settle (h : sess.Sane) (res : Except Value Value) (hsuspended : mdl ∈ sess.suspended) :
    ∃ post, sess.graph.finishAsyncEvaluation mdl res = .ok post ∧ ({ sess with
          graph := post
          suspended := sess.suspended.erase mdl
          trace := settledEvent mdl res :: sess.trace }).Sane := by
  have hstd := (h.suspended_iff mdl).mp hsuspended
  have heval : ∃ rec st, sess.graph.record mdl = .ok rec ∧
      rec.evaluation = .asyncEvaluating st := by
    have hsome : sess.graph.schedule.order mdl ≠ none := by
      rcases h.scheduled.order_of_stage mdl with hsg | hsg | hsome
      · rw [hstd] at hsg
        cases hsg
      · rw [hstd] at hsg
        exact absurd hsg Stage.not_isFailed_started
      · exact hsome
    obtain ⟨rec, hrec⟩ := exists_record_of_order hsome
    rw [stage_eq hrec] at hstd
    cases hcase : rec.evaluation with
    | asyncEvaluating st => exact ⟨rec, st, hrec, hcase⟩
    | evaluating => exact absurd hcase (h.resting mdl rec hrec)
    | unevaluated | waiting | evaluated val | errored err =>
      rw [hcase] at hstd
      cases hstd
  obtain ⟨rec, st, hrec, hst⟩ := heval
  have hsched : Scheduled sess.graph.requested sess.graph.rootOf sess.graph.IsLinked
      (fun other err => .threw other err ∈ [settledEvent mdl res] ++ sess.trace) [] []
      sess.graph.schedule :=
    h.scheduled.transport (fun _ _ => rfl) (fun _ _ => rfl) h.scheduled.mem_part
      fun _ _ hthrew => mem_append_right _ hthrew
  obtain ⟨post, ha, hkeeps, hscheduledAfter, hended⟩ :=
    completeEvaluation_eq hrec hsched hstd res fun err heq => by
      subst heq
      exact mem_cons_self
  have hdone : ¬ (sess.graph.schedule.stage mdl).IsDone := by
    rw [hstd]
    exact Stage.not_isDone_started
  have hfl : ¬ (sess.graph.schedule.stage mdl).IsFailed := by
    rw [hstd]
    exact Stage.not_isFailed_started
  have hhistory : History sess.graph (settledEvent mdl res :: sess.trace) := by
    cases res with
    | ok val | error err => exact h.history.ended rfl fun root res heq => by cases heq
  refine ⟨post, ?_, ?_⟩
  · rw [finishAsyncEvaluation, hrec]
    dsimp only
    rw [hst]
    exact ha
  · refine h.progress [settledEvent mdl res] hkeeps.toKeepsMarks (hkeeps.resting h.resting)
      hscheduledAfter hended hdone hfl ?_ ?_ ?_ ?_ ?_ ?_ ?_
        (h.suspended_nodup.erase mdl) ?_ hhistory
    · cases res with
      | ok val | error err => exact fun heq => by cases heq
    · cases res with
      | ok val | error err => exact fun heq => by cases heq
    · intro other
      rw [mem_singleton]
      cases res with
      | ok val =>
        constructor
        · intro heq
          cases heq
          exact ⟨rfl, val, rfl⟩
        · rintro ⟨rfl, -⟩
          rfl
      | error err =>
        refine iff_of_false (fun heq => by cases heq) ?_
        rintro ⟨-, val, hv⟩
        cases hv
    · intro other err hm
      cases res with
      | ok val => cases mem_singleton.mp hm
      | error err' =>
        cases mem_singleton.mp hm
        exact ⟨rfl, err, rfl⟩
    · intro root other hm
      cases res with
      | ok val | error err => cases mem_singleton.mp hm
    · intro hrunning
      cases res with
      | ok val | error err => cases hrunning
    · intro root res' hm
      cases res with
      | ok val | error err => cases mem_singleton.mp hm
    · intro other
      rw [h.suspended_nodup.mem_erase_iff]
      refine ⟨.inl, ?_⟩
      rintro (hboth | ⟨-, hrunning⟩)
      · exact hboth
      · cases res with
        | ok val | error err => cases hrunning

/-! ## Runs -/

variable {action : SessionAction}

/-- Every step of a careful session keeps what holds of it. -/
theorem Sane.step (h : sess.Sane) {next : EvaluationSession} (hcareful : sess.Careful action) (hstep
    : SessionStep sess action next) : next.Sane := by
  have hbegins : ∀ {root : ModuleId}, sess.Careful (.call root) →
      sess.graph.evaluationOutcome root = .ok none → sess.graph.MayBegin root :=
    fun hcall => hcall.2
  cases hstep with
  | insert hfree hinsert hunresolved =>
    exact h.load (h.linkable.extends_insert hinsert) (h.linkable.insert hinsert hunresolved) hfree
  | link hfree hlinks =>
    exact h.load (h.linkable.extends_link hlinks) (h.linkable.link hlinks) hfree
  | stored hfree hout => exact h.returns hout
  | unlinked hfree hout =>
    obtain ⟨⟨cycleRoot, hcycle⟩, -⟩ := hcareful
    have hroot := h.linkable.rooted.mem_root _ hcycle.isLinked
    rw [rootOf_of_cycleRoot hcycle] at hroot
    obtain ⟨rec, hrec, -⟩ := hroot.record
    rw [evaluationOutcome, cycleRoot_eq hcycle] at hout
    dsimp only at hout
    rw [hrec] at hout
    cases hout
  | busy hph hout => exact absurd hph h.not_busy
  | refused hph hout hbegin =>
    obtain ⟨run, order, walked, post, hrun, -⟩ :=
      starts_eq h.linkable h.epochs h.small h.scheduled (hbegins hcareful hout)
    rw [hbegin] at hrun
    cases hrun
  | interrupted hph hout hbegin hstarts =>
    obtain ⟨run, order, walked, post, hrun, -, -, -, -, -, -, -, -, hunique⟩ :=
      starts_eq h.linkable h.epochs h.small h.scheduled (hbegins hcareful hout)
    rw [hbegin] at hrun
    cases hrun
    cases hunique _ hstarts
  | starts hph hout hbegin hstarts => exact h.starts (hbegins hcareful hout) hbegin hstarts
  | misfires hph hopen htake hst =>
    obtain ⟨started, post, hstd, -⟩ := h.execute hph htake hcareful
    rw [hst] at hstd
    cases hstd
  | runs hph hopen htake hst hexec =>
    obtain ⟨started, post, hstd, ha, hsane⟩ := h.execute hph htake hcareful
    rw [hst] at hstd
    cases hstd
    rw [hexec] at ha
    cases ha
    exact hsane
  | fails hph hopen htake hst hexec =>
    obtain ⟨started, post, hstd, ha, -⟩ := h.execute hph htake hcareful
    rw [hst] at hstd
    cases hstd
    rw [hexec] at ha
    cases ha
  | @settles mdl res post hsuspended hturn hfin =>
    obtain ⟨post', ha, hsane⟩ := h.settle res hsuspended
    rw [hfin] at ha
    cases ha
    exact hsane
  | @strays mdl res err hsuspended hfree hfin =>
    obtain ⟨post, ha, -⟩ := h.settle res hsuspended
    rw [hfin] at ha
    cases ha
  | @straysInside root mdl res err hsuspended hph hturn hfin =>
    obtain ⟨post, ha, -⟩ := h.settle res hsuspended
    rw [hfin] at ha
    cases ha
  | done hph hout => exact h.done hph hout
  | pends hph hopen hidle => exact h.pends hph hopen hidle

theorem sane_of_run (h : SessionRun Careful sess) : sess.Sane := by
  induction h with
  | new limits => exact sane_new limits
  | step _ hcareful hstep ih => exact ih.step hcareful hstep

theorem Sane.runsOnce (h : sess.Sane) : sess.RunsOnce where
  once := h.history.once
  queued := h.scheduled.ready_nodup
  requested := h.history.requested
  accounts := h.history.accounts
  same := h.history.same

/-! ## Careful runs -/

/-- What is no harm in any session. -/
def Harmless : SessionAction → Prop
  | .call _ => False
  | .run _ outcome => ∃ value, outcome = .completed value
  | _ => True

theorem careful_of_harmless (h : Harmless action) (sess : EvaluationSession) :
    sess.Careful action := by
  cases action with
  | insert init | link root | settle mdl res | finish => trivial
  | call root => cases h
  | run st outcome =>
    obtain ⟨val, rfl⟩ := h
    exact fun mdl taken rec htake hrec => trivial

/-- A module that requests another, and both are linked. -/
def pairSession : EvaluationSession := (performs 20 (new generousLimits)
    [.insert (reexporting 0 [1] []), .insert (reexporting 1 [] []), .link ⟨0⟩]).get
      (by decide +kernel)

/-- An evaluation of the first module has begun. -/
def begunPair : EvaluationSession := (pairSession.perform 20 (.call ⟨0⟩)).get (by decide +kernel)

/-- The evaluation has come to its end. -/
def evaluatedPair : EvaluationSession := (performs 20 begunPair
    [.run .undefined (.completed .undefined), .run .undefined (.completed .undefined), .finish]).get
      (by decide +kernel)

theorem run_begunPair : SessionRun Careful begunPair := by
  have hpair : SessionRun Careful pairSession := by
    refine run_of_performs (.new generousLimits) (fun action hm => careful_of_harmless ?_)
      (Option.some_get _).symm
    simp only [mem_cons, not_mem_nil, or_false] at hm
    rcases hm with rfl | rfl | rfl
    · trivial
    · trivial
    · trivial
  have hbegins : pairSession.graph.MayBegin ⟨0⟩ :=
    mayBegin_of_fresh (sane_of_run hpair).linkable.startable.indexed (by decide +kernel)
      (by decide +kernel)
      (by decide +kernel) (by decide +kernel) (by decide +kernel) (by decide +kernel)
  have hstep : SessionStep pairSession (.call ⟨0⟩) begunPair := step_of_perform
    (Option.some_get _).symm
  have hcareful : Careful pairSession (.call ⟨0⟩) := ⟨⟨⟨0⟩, hbegins.cycleRoot⟩, fun _ => hbegins⟩
  exact hpair.step hcareful hstep

theorem run_evaluatedPair : SessionRun Careful evaluatedPair := by
  refine run_of_performs run_begunPair (fun action hm => careful_of_harmless ?_)
    (Option.some_get _).symm
  simp only [mem_cons, not_mem_nil, or_false] at hm
  rcases hm with rfl | rfl | rfl
  · exact ⟨_, rfl⟩
  · exact ⟨_, rfl⟩
  · trivial

/-- In a careful session every body runs at most once and on request, and every call returns what
the bodies came to. -/
theorem runs_once (h : SessionRun Careful sess) : sess.RunsOnce := (sane_of_run h).runsOnce

theorem runs_once_pair : SessionRun Careful evaluatedPair ∧ evaluatedPair.RunsOnce ∧
    evaluatedPair.trace = [.returned ⟨0⟩ (.ok (.completed .undefined)), .completed ⟨0⟩,
    .started ⟨0⟩ ⟨0⟩,
      .completed ⟨1⟩, .started ⟨0⟩ ⟨1⟩] :=
  ⟨run_evaluatedPair, runs_once run_evaluatedPair, by decide +kernel⟩

/-- Two modules that request each other are linked by way of the first, and the second is
evaluated. -/
def memberSession : EvaluationSession := (performs 20 (new generousLimits)
    [.insert (reexporting 0 [1] []), .insert (reexporting 1 [0] []), .link ⟨0⟩, .call ⟨1⟩,
      .run .undefined (.completed .undefined), .finish]).get (by decide +kernel)

/-- The evaluation of a module comes to its end before that of another in its cycle has begun. -/
theorem returns_early : ¬ ∀ sess, SessionRun (fun _ _ => True) sess → sess.RunsOnce := by
  intro h
  have hrun : SessionRun (fun _ _ => True) memberSession :=
    run_of_performs (.new generousLimits) (fun _ _ _ => trivial) (Option.some_get _).symm
  have htr : memberSession.trace = [] ++ .returned ⟨1⟩ (.ok (.completed .undefined)) ::
      [.completed ⟨1⟩, .started ⟨1⟩ ⟨1⟩] := by decide +kernel
  have hedge : (⟨0⟩ : ModuleId) ∈ memberSession.graph.requested ⟨1⟩ := by decide +kernel
  have hm := (h memberSession hrun).accounts _ _ _ _ htr ⟨0⟩ (.single hedge)
  simp only [mem_cons, not_mem_nil, or_false] at hm
  rcases hm with heq | heq
  · cases heq
  · cases heq

end EvaluationSession

end TachyonEngine.Vm
