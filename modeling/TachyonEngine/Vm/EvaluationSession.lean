import TachyonEngine.Vm.ModuleEvaluation

/-!
# Sessions

An engine over which a host loads and evaluates modules, one call at a time. An evaluation runs
ready modules until its root is done, and between them suspended bodies go on. The trace of a
session says which bodies started, how they ended and what the calls returned.
-/

namespace TachyonEngine.Vm

open ModuleGraph

inductive EvaluationError where
  | graph (error : ModuleError)
  | execution (error : ModuleError)
  | driverBusy
  | bodyFailed
  | asyncEvaluationPending (root : ModuleId)
  deriving DecidableEq

inductive EvaluationEvent where
  | started (root module : ModuleId)
  | completed (module : ModuleId)
  | threw (module : ModuleId) (error : Value)
  | returned (root : ModuleId) (result : Except EvaluationError RunOutcome)
  deriving DecidableEq

/-- A start that was interrupted by an error keeps the driver busy. -/
inductive SessionPhase where
  | idle
  | evaluating (root : ModuleId)
  | busy

/-- The trace has its last event first. -/
structure EvaluationSession where
  graph : ModuleGraph
  suspended : List ModuleId
  phase : SessionPhase
  trace : List EvaluationEvent

namespace EvaluationSession

def new (limits : ModuleLimits) : EvaluationSession :=
  { graph := ModuleGraph.new limits
    suspended := []
    phase := .idle
    trace := [] }

/-- No evaluation is in progress. -/
def Free (session : EvaluationSession) : Prop := ∀ root, session.phase ≠ .evaluating root

/-- A call comes to an end. -/
def returns (session : EvaluationSession) (root : ModuleId)
    (result : Except EvaluationError RunOutcome) :
    EvaluationSession :=
  { session with trace := .returned root result :: session.trace }

/-- An evaluation comes to an end. -/
def ends (session : EvaluationSession) (root : ModuleId)
    (result : Except EvaluationError RunOutcome) :
    EvaluationSession :=
  { session with phase := .idle, trace := .returned root result :: session.trace }

/-- What the record of the root of an evaluation says. -/
def rootOutcome (session : EvaluationSession) (root : ModuleId) : Option RunOutcome :=
  match session.graph.record root with
  | .ok record => record.outcome
  | .error _ => none

end EvaluationSession

/-- How a body that is not suspended ends. -/
def BodyOutcome.events (module : ModuleId) : BodyOutcome → List EvaluationEvent
  | .completed _ => [.completed module]
  | .thrown error => [.threw module error]
  | .suspended | .failed => []

def settledEvent (module : ModuleId) : Except Value Value → EvaluationEvent
  | .ok _ => .completed module
  | .error error => .threw module error

/-- What the host does, and what the bodies do. -/
inductive SessionAction where
  | insert (init : ModuleRecordInit)
  | link (root : ModuleId)
  | call (root : ModuleId)
  | run (state : Value) (outcome : BodyOutcome)
  | settle (module : ModuleId) (result : Except Value Value)
  | finish

open SessionAction in
inductive SessionStep : EvaluationSession → SessionAction → EvaluationSession → Prop where
  | insert {session : EvaluationSession} {init : ModuleRecordInit} {id : ModuleId}
      {after : ModuleGraph}
      (hfree : session.Free) (hinsert : session.graph.insertWithBody init = .ok (id, after))
      (hunresolved : ∀ entry ∈ init.imports, entry.resolved = none) :
      SessionStep session (insert init) { session with graph := after }
  | link {session : EvaluationSession} {root : ModuleId} {result : Except ModuleError LinkReport}
      {after : ModuleGraph} (hfree : session.Free)
        (hlinks : Links session.graph root (result, after)) :
      SessionStep session (link root) { session with graph := after }
  /-- The outcome is stored. -/
  | stored {session : EvaluationSession} {root : ModuleId} {outcome : RunOutcome}
      (hfree : session.Free)
      (hout : session.graph.evaluationOutcome root = .ok (some outcome)) :
      SessionStep session (call root) (session.returns root (.ok outcome))
  | unlinked {session : EvaluationSession} {root : ModuleId} {error : ModuleError}
      (hfree : session.Free)
      (hout : session.graph.evaluationOutcome root = .error error) :
      SessionStep session (call root) (session.returns root (.error (.graph error)))
  | busy {session : EvaluationSession} {root : ModuleId} (hph : session.phase = .busy)
      (hout : session.graph.evaluationOutcome root = .ok none) :
      SessionStep session (call root) (session.returns root (.error .driverBusy))
  | refused {session : EvaluationSession} {root : ModuleId} {error : ModuleError}
      (hph : session.phase = .idle) (hout : session.graph.evaluationOutcome root = .ok none)
      (hbegin : session.graph.beginEvaluationStart root = .error error) :
      SessionStep session (call root) (session.returns root (.error (.graph error)))
  | interrupted {session : EvaluationSession} {root : ModuleId} {run : StartRun}
      {error : ModuleError}
      {after : ModuleGraph} (hph : session.phase = .idle)
      (hout : session.graph.evaluationOutcome root = .ok none)
      (hbegin : session.graph.beginEvaluationStart root = .ok run)
        (hstarts : Starts run (.error error, after)) :
      SessionStep session (call root)
        ({ session with graph := after, phase := .busy }.returns root (.error (.execution error)))
  | starts {session : EvaluationSession} {root : ModuleId} {run : StartRun} {after : ModuleGraph}
      (hph : session.phase = .idle) (hout : session.graph.evaluationOutcome root = .ok none)
      (hbegin : session.graph.beginEvaluationStart root = .ok run)
        (hstarts : Starts run (.ok (), after)) :
      SessionStep session (call root) { session with graph := after, phase := .evaluating root }
  /-- A module that was queued twice. -/
  | misfires {session : EvaluationSession} {root module : ModuleId} {taken : ModuleGraph}
      {state : Value}
      {outcome : BodyOutcome} {error : ModuleError} (hph : session.phase = .evaluating root)
      (hopen : session.rootOutcome root = none)
      (htake : session.graph.takeReadyModule = some (module, taken))
      (hst : taken.startReadyModule module = .error error) :
      SessionStep session (run state outcome)
        ({ session with graph := taken.setEvaluation module .unevaluated }.ends root
          (.error (.execution error)))
  | runs {session : EvaluationSession} {root module : ModuleId} {taken started after : ModuleGraph}
      {state : Value} {outcome : BodyOutcome} (hph : session.phase = .evaluating root)
      (hopen : session.rootOutcome root = none)
      (htake : session.graph.takeReadyModule = some (module, taken))
      (hst : taken.startReadyModule module = .ok started)
      (hexec : started.executeReadyModule module state outcome = .ok after) :
      SessionStep session (run state outcome)
        { session with
          graph := after
          suspended := if outcome = .suspended then module :: session.suspended else
            session.suspended
          trace := outcome.events module ++ .started root module :: session.trace }
  /-- The body ends with an error of the engine. -/
  | fails {session : EvaluationSession} {root module : ModuleId} {taken started : ModuleGraph}
      {state : Value} {outcome : BodyOutcome} {error : ModuleError}
        (hph : session.phase = .evaluating root)
      (hopen : session.rootOutcome root = none)
      (htake : session.graph.takeReadyModule = some (module, taken))
      (hst : taken.startReadyModule module = .ok started)
      (hexec : started.executeReadyModule module state outcome = .error error) :
      SessionStep session (run state outcome) ({ session with
            graph := started.setEvaluation module .unevaluated
            trace := .started root module :: session.trace }.ends root (.error .bodyFailed))
  /-- A suspended body returns or throws. An evaluation lets it when no module is ready, and at its
  end. -/
  | settles {session : EvaluationSession} {module : ModuleId} {result : Except Value Value}
      {after : ModuleGraph} (hsuspended : module ∈ session.suspended)
      (hturn : ∀ root, session.phase = .evaluating root →
        session.rootOutcome root ≠ none ∨ session.graph.takeReadyModule = none)
      (hfin : session.graph.finishAsyncEvaluation module result = .ok after) :
      SessionStep session (settle module result)
        { session with
          graph := after
          suspended := session.suspended.erase module
          trace := settledEvent module result :: session.trace }
  | strays {session : EvaluationSession} {module : ModuleId} {result : Except Value Value}
      {error : ModuleError} (hsuspended : module ∈ session.suspended) (hfree : session.Free)
      (hfin : session.graph.finishAsyncEvaluation module result = .error error) :
      SessionStep session (settle module result)
        { session with suspended := session.suspended.erase module }
  | straysInside {session : EvaluationSession} {root module : ModuleId}
      {result : Except Value Value}
      {error : ModuleError} (hsuspended : module ∈ session.suspended)
      (hph : session.phase = .evaluating root)
      (hturn : session.rootOutcome root ≠ none ∨ session.graph.takeReadyModule = none)
      (hfin : session.graph.finishAsyncEvaluation module result = .error error) :
      SessionStep session (settle module result)
        ({ session with suspended := session.suspended.erase module }.ends root
          (.error (.execution error)))
  | done {session : EvaluationSession} {root : ModuleId} {outcome : RunOutcome}
      (hph : session.phase = .evaluating root) (hout : session.rootOutcome root = some outcome) :
      SessionStep session finish (session.ends root (.ok outcome))
  | pends {session : EvaluationSession} {root : ModuleId} (hph : session.phase = .evaluating root)
      (hopen : session.rootOutcome root = none) (hidle : session.graph.takeReadyModule = none) :
      SessionStep session finish (session.ends root (.error (.asyncEvaluationPending root)))

/-- The sessions that runs reach whose every step meets a condition on the session and the
action. -/
inductive SessionRun (Meets : EvaluationSession → SessionAction → Prop) : EvaluationSession →
    Prop where
  | new (limits : ModuleLimits) : SessionRun Meets (.new limits)
  | step {session next : EvaluationSession} {action : SessionAction}
      (hrun : SessionRun Meets session)
      (hmeets : Meets session action) (hstep : SessionStep session action next) :
        SessionRun Meets next

end TachyonEngine.Vm
