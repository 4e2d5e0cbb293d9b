import TachyonEngine.Vm.GraphExtension
import TachyonEngine.Vm.ReadyModule

/-!
# What holds of a session

The trace of a session is compared with its graph: a module is done when the trace says that its
body came to an end. The steps of a session that is careful keep this, and what holds of a schedule.
-/

namespace TachyonEngine.Vm

open Lib.Scheduling ModuleGraph

/-! ## Histories -/

def EvaluationEvent.startedModule : EvaluationEvent → Option ModuleId
  | .started _ mdl => some mdl
  | _ => none

/-- A body started and did not come to an end. -/
def Hangs (trace : List EvaluationEvent) (mdl : ModuleId) : Prop :=
  (∃ root, .started root mdl ∈ trace) ∧ .completed mdl ∉ trace ∧ ∀ error, .threw mdl error ∉ trace

/-- The result of a call is that of the bodies that the root leads to, by the events before it. -/
def Accounts (g : ModuleGraph) (root : ModuleId) (earlier : List EvaluationEvent) :
    Except EvaluationError RunOutcome → Prop
  | .ok (.completed _) => ∀ mdl, g.Leads root mdl → .completed mdl ∈ earlier
  | .ok (.thrown error) => ∃ mdl, g.Leads root mdl ∧ .threw mdl error ∈ earlier
  | .error error => error = .asyncEvaluationPending root ∧
      ∃ mdl, g.Leads root mdl ∧ Hangs earlier mdl

/-- A body runs at most once, on request of a root, and a root that came to a result keeps it. -/
structure EvaluationSession.RunsOnce (session : EvaluationSession) : Prop where
  once : (session.trace.filterMap EvaluationEvent.startedModule).Nodup
  queued : session.graph.readyAsyncModules.Nodup
  requested : ∀ root mdl, .started root mdl ∈ session.trace → session.graph.Leads root mdl
  accounts : ∀ later earlier root result, session.trace = later ++ .returned root result ::
    earlier →
    Accounts session.graph root earlier result
  same : ∀ later earlier root outcome result,
    session.trace = later ++ .returned root (.ok outcome) :: earlier →
      .returned root result ∈ later → result = .ok outcome

/-- What a trace says, one event after the other. -/
structure History (g : ModuleGraph) (trace : List EvaluationEvent) : Prop where
  once : (trace.filterMap EvaluationEvent.startedModule).Nodup
  requested : ∀ root mdl, .started root mdl ∈ trace → g.Leads root mdl
  accounts : ∀ later earlier root result, trace = later ++ .returned root result :: earlier →
    Accounts g root earlier result
  same : ∀ later earlier root outcome result, trace = later ++ .returned root
    (.ok outcome) :: earlier →
    .returned root result ∈ later → result = .ok outcome

section History

variable {g post : ModuleGraph} {trace later earlier : List EvaluationEvent}
  {event new : EvaluationEvent} {root mdl : ModuleId}

/-- An event of a longer trace is the new one, or it was there before. -/
theorem split_cons (h : new :: trace = later ++ event :: earlier) :
    (event = new ∧ later = [] ∧ earlier = trace) ∨
      ∃ later', later = new :: later' ∧ trace = later' ++ event :: earlier := by
  cases later with
  | nil =>
    cases h
    exact .inl ⟨rfl, rfl, rfl⟩
  | cons first rest =>
    cases h
    exact .inr ⟨rest, rfl, rfl⟩

theorem mem_of_split (h : trace = later ++ event :: earlier) : event ∈ trace := by
  rw [h]
  exact List.mem_append_right _ List.mem_cons_self

theorem history_nil (g : ModuleGraph) : History g [] where
  once := List.nodup_nil
  requested := fun _ _ hm => nomatch hm
  accounts := fun _ _ _ _ h => nomatch mem_of_split h
  same := fun _ _ _ _ _ h => nomatch mem_of_split h

/-- What an event has to say for a history to go on with it. -/
theorem History.cons (h : History g trace)
    (honce : ∀ mdl, new.startedModule = some mdl → ∀ root, .started root mdl ∉ trace)
    (hstarted : ∀ root mdl, new = .started root mdl → g.Leads root mdl)
    (hreturned : ∀ root res, new = .returned root res → Accounts g root trace res ∧
      ∀ outcome, .returned root (.ok outcome) ∈ trace → res = .ok outcome) :
    History g (new :: trace) where
  once := by
    cases hsome : new.startedModule with
    | none =>
      rw [List.filterMap_cons_none hsome]
      exact h.once
    | some mdl =>
      rw [List.filterMap_cons_some hsome]
      refine List.nodup_cons.mpr ⟨fun hm => ?_, h.once⟩
      obtain ⟨event, hevent, hmod⟩ := List.mem_filterMap.mp hm
      cases event with
      | started other started =>
        cases hmod
        exact honce mdl hsome other hevent
      | completed other | threw other err | returned other res => cases hmod
  requested := by
    intro root mdl hm
    rcases List.mem_cons.mp hm with heq | hm
    · exact hstarted root mdl heq.symm
    · exact h.requested root mdl hm
  accounts := by
    intro later earlier root res heq
    rcases split_cons heq with ⟨hnew, -, rfl⟩ | ⟨later', -, htr⟩
    · exact (hreturned root res hnew.symm).1
    · exact h.accounts later' earlier root res htr
  same := by
    intro later earlier root outcome res heq hm
    rcases split_cons heq with ⟨-, rfl, -⟩ | ⟨later', rfl, htr⟩
    · cases hm
    · rcases List.mem_cons.mp hm with hnew | hm
      · exact (hreturned root res hnew.symm).2 outcome (mem_of_split htr)
      · exact h.same later' earlier root outcome res htr hm

/-- A body comes to an end. -/
theorem History.ended (h : History g trace) (hstd : new.startedModule = none)
    (hret : ∀ root res, new ≠ .returned root res) : History g (new :: trace) := by
  apply h.cons
  · intro mdl hsome
    rw [hstd] at hsome
    cases hsome
  · rintro root mdl rfl
    cases hstd
  · exact fun root res hnew => absurd hnew (hret root res)

/-- A body starts. -/
theorem History.started (h : History g trace) (hfr : ∀ root, .started root mdl ∉ trace)
    (hleads : g.Leads root mdl) : History g (.started root mdl :: trace) := by
  apply h.cons
  · intro other hsome
    cases hsome
    exact hfr
  · intro other started hnew
    cases hnew
    exact hleads
  · exact fun _ _ hnew => nomatch hnew

/-- A call returns. -/
theorem History.returned (h : History g trace) {res : Except EvaluationError RunOutcome}
    (haccounts : Accounts g root trace res)
    (hs : ∀ outcome, .returned root (.ok outcome) ∈ trace → res = .ok outcome) :
    History g (.returned root res :: trace) := by
  apply h.cons
  · exact fun _ hsome => nomatch hsome
  · exact fun _ _ hnew => nomatch hnew
  · intro other other' hnew
    cases hnew
    exact ⟨haccounts, hs⟩

/-- What is said of linked modules is true of every graph in which they are linked the same. -/
theorem History.transport (h : History g trace)
    (hstd : ∀ root mdl, .started root mdl ∈ trace → g.IsLinked root)
    (hcalled : ∀ root res, .returned root res ∈ trace → g.IsLinked root)
    (hleads : ∀ mdl other, g.IsLinked mdl → (post.Leads mdl other ↔ g.Leads mdl other)) :
    History post trace where
  once := h.once
  requested := fun root mdl hm =>
    (hleads root mdl (hstd root mdl hm)).mpr (h.requested root mdl hm)
  accounts := by
    intro later earlier root res htr
    have haccounts := h.accounts later earlier root res htr
    have hroot := hcalled root res (mem_of_split htr)
    cases res with
    | ok outcome =>
      cases outcome with
      | completed val => exact fun mdl hmod => haccounts mdl ((hleads root mdl hroot).mp hmod)
      | thrown err =>
        obtain ⟨mdl, hmod, hthrew⟩ := haccounts
        exact ⟨mdl, (hleads root mdl hroot).mpr hmod, hthrew⟩
    | error err =>
      obtain ⟨herr, mdl, hmod, hhangs⟩ := haccounts
      exact ⟨herr, mdl, (hleads root mdl hroot).mpr hmod, hhangs⟩
  same := h.same

end History

/-! ## Care -/

/-- What the host and the bodies do without harm. -/
def EvaluationSession.Careful (session : EvaluationSession) : SessionAction → Prop
  | .call root => (∃ cycleRoot, session.graph.CycleRoot root cycleRoot) ∧
      (session.graph.evaluationOutcome root = .ok none → session.graph.MayBegin root)
  | .run _ outcome => ∀ mdl taken record, session.graph.takeReadyModule = some (mdl, taken) →
      session.graph.record mdl = .ok record → outcome.Fits record.hasTopLevelAwait
  | _ => True

/-! ## The invariant -/

/-- By the events so far, a body threw. -/
def EvaluationSession.Threw (session : EvaluationSession) (mdl : ModuleId) (error : Value) : Prop :=
  .threw mdl error ∈ session.trace

structure EvaluationSession.Sane (session : EvaluationSession) : Prop where
  linkable : Linkable session.graph
  small : session.graph.records.length ≤ session.graph.limits.maxModules.toNat
  epochs : session.graph.Epochs
  resting : session.graph.Resting
  scheduled : Scheduled session.graph.requested session.graph.rootOf session.graph.IsLinked
    session.Threw
    [] [] session.graph.schedule
  suspended_nodup : session.suspended.Nodup
  suspended_iff : ∀ mdl, mdl ∈ session.suspended ↔ session.graph.schedule.stage mdl = .started
  completed_iff : ∀ mdl, .completed mdl ∈ session.trace ↔ (session.graph.schedule.stage mdl).IsDone
  failed_of_threw : ∀ mdl error, .threw mdl error ∈ session.trace →
    (session.graph.schedule.stage mdl).IsFailed
  stage_of_started : ∀ root mdl, .started root mdl ∈ session.trace → session.graph.IsLinked root ∧
    session.graph.schedule.stage mdl ≠ .fresh ∧ session.graph.schedule.stage mdl ≠ .waiting
  started_of_stage : ∀ mdl, session.graph.schedule.stage mdl = .started →
    ∃ root, .started root mdl ∈ session.trace
  not_busy : session.phase ≠ .busy
  evaluating : ∀ root, session.phase = .evaluating root → session.graph.CycleRoot root root ∧
    session.graph.schedule.Touched root ∧
      ∀ mdl, mdl ∈ session.graph.readyAsyncModules ∨ session.graph.schedule.stage mdl = .waiting →
        session.graph.Leads root mdl
  called : ∀ root result, .returned root result ∈ session.trace → session.graph.IsLinked root
  stored : ∀ root outcome, .returned root (.ok outcome) ∈ session.trace →
    session.graph.evaluationOutcome root = .ok (some outcome)
  history : History session.graph session.trace

end TachyonEngine.Vm
