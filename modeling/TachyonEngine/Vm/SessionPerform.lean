import TachyonEngine.Vm.EvaluationSession

/-!
# A session that computes

Whatever the host and the bodies do next, the session that comes of it is computed, with a number of
rounds given beforehand for linking and for walks. What is computed is a step of the session.
-/

namespace TachyonEngine.Vm

open Lib.Loop ModuleGraph

namespace EvaluationSession

def isFree (sess : EvaluationSession) : Bool :=
  match sess.phase with
  | .evaluating _ => false
  | _ => true

theorem free_of_isFree {sess : EvaluationSession} (h : sess.isFree = true) : sess.Free := by
  intro root hph
  rw [isFree, hph] at h
  cases h

/-- `link` of a root, in at most so many rounds. -/
def linkedGraph (rounds : Nat) (graph : ModuleGraph) (root : ModuleId) : Option ModuleGraph :=
  match graph.record root with
  | .error _ => some graph
  | .ok record =>
    match record.status with
    | .unlinked =>
      match enterModule ⟨graph, 0, [], [], [], []⟩ root with
      | .error _ => some graph
      | .ok entered => (run linkStep rounds entered).map Prod.snd
    | _ => some graph

theorem links_of_linkedGraph {rounds : Nat} {g post : ModuleGraph} {root : ModuleId}
    (h : linkedGraph rounds g root = some post) : ∃ res, Links g root (res, post) := by
  rw [linkedGraph] at h
  split at h
  next err herr =>
    cases h
    exact ⟨.error err, by rw [Links, herr]⟩
  next rec hrec =>
    split at h
    next hstat =>
      split at h
      next err herr =>
        cases h
        exact ⟨.error err, by simp only [Links, hrec, hstat, herr]⟩
      next entered hentered =>
        obtain ⟨⟨res, post⟩, hrun, rfl⟩ := Option.map_eq_some_iff.mp h
        refine ⟨res, ?_⟩
        simp only [Links, hrec, hstat, hentered]
        exact returns_of_run hrun
    next hstat =>
      cases h
      cases hcase : rec.status with
      | unlinked => exact absurd hcase hstat
      | linking dfsIndex ancestorIndex =>
        exact ⟨.error .invalidLinkState, by simp only [Links, hrec, hcase]⟩
      | linked cycleRoot => exact ⟨.ok ⟨[]⟩, by simp only [Links, hrec, hcase]⟩

/-- A call that does not find an outcome. -/
def begins (rounds : Nat) (sess : EvaluationSession) (root : ModuleId) : Option EvaluationSession :=
  match sess.phase with
  | .evaluating _ => none
  | .busy => some (sess.returns root (.error .driverBusy))
  | .idle =>
    match sess.graph.beginEvaluationStart root with
    | .error error => some (sess.returns root (.error (.graph error)))
    | .ok begun =>
      match run advanceEvaluationTraversal rounds begun with
      | none => none
      | some (.error error, after) =>
        some ({ sess with graph := after, phase := .busy }.returns root (.error (.execution error)))
      | some (.ok order, walked) =>
        match walked.registerModules order with
        | (.error error, after) =>
          some ({ sess with graph := after, phase := .busy }.returns root
            (.error (.execution error)))
        | (.ok (), after) => some { sess with graph := after, phase := .evaluating root }

/-- A module that was taken. -/
def executes (sess : EvaluationSession) (root mdl : ModuleId) (taken : ModuleGraph) (state : Value)
    (outcome : BodyOutcome) : EvaluationSession :=
  match taken.startReadyModule mdl with
  | .error error =>
    { sess with graph := taken.setEvaluation mdl .unevaluated }.ends root
      (.error (.execution error))
  | .ok started =>
    match started.executeReadyModule mdl state outcome with
    | .error _ =>
      { sess with
        graph := started.setEvaluation mdl .unevaluated
        trace := .started root mdl :: sess.trace }.ends root (.error .bodyFailed)
    | .ok after =>
      { sess with
        graph := after
        suspended := if outcome = .suspended then mdl :: sess.suspended else sess.suspended
        trace := outcome.events mdl ++ .started root mdl :: sess.trace }

/-- A body that was suspended. -/
def settlesIn (sess : EvaluationSession) (mdl : ModuleId) (result : Except Value Value) :
    EvaluationSession :=
  match sess.graph.finishAsyncEvaluation mdl result with
  | .ok after =>
    { sess with
      graph := after
      suspended := sess.suspended.erase mdl
      trace := settledEvent mdl result :: sess.trace }
  | .error error =>
    let next := { sess with suspended := sess.suspended.erase mdl }
    match sess.phase with
    | .evaluating root => next.ends root (.error (.execution error))
    | _ => next

/-- The next session. -/
def perform (rounds : Nat) (sess : EvaluationSession) : SessionAction → Option EvaluationSession
  | .insert init =>
    if sess.isFree ∧ ∀ entry ∈ init.imports, entry.resolved = none then
      match sess.graph.insertWithBody init with
      | .error _ => none
      | .ok (_, after) => some { sess with graph := after }
    else none
  | .link root =>
    if sess.isFree then
      (linkedGraph rounds sess.graph root).map fun after => { sess with graph := after }
    else none
  | .call root =>
    if sess.isFree then
      match sess.graph.evaluationOutcome root with
      | .error error => some (sess.returns root (.error (.graph error)))
      | .ok (some outcome) => some (sess.returns root (.ok outcome))
      | .ok none => sess.begins rounds root
    else none
  | .run state outcome =>
    match sess.phase with
    | .evaluating root =>
      match sess.rootOutcome root, sess.graph.takeReadyModule with
      | none, some (mdl, taken) => some (sess.executes root mdl taken state outcome)
      | _, _ => none
    | _ => none
  | .settle mdl result =>
    if mdl ∈ sess.suspended then
      match sess.phase with
      | .evaluating root =>
        match sess.rootOutcome root, sess.graph.takeReadyModule with
        | none, some _ => none
        | _, _ => some (sess.settlesIn mdl result)
      | _ => some (sess.settlesIn mdl result)
    else none
  | .finish =>
    match sess.phase with
    | .evaluating root =>
      match sess.rootOutcome root with
      | some outcome => some (sess.ends root (.ok outcome))
      | none =>
        match sess.graph.takeReadyModule with
        | none => some (sess.ends root (.error (.asyncEvaluationPending root)))
        | some _ => none
    | _ => none

/-! ## What is computed is a step -/

section Sound

variable {rounds : Nat} {sess next : EvaluationSession} {root mdl : ModuleId}

theorem step_of_begins (hout : sess.graph.evaluationOutcome root = .ok none)
    (h : sess.begins rounds root = some next) : SessionStep sess (.call root) next := by
  rw [begins] at h
  split at h
  · cases h
  next hph =>
    cases h
    exact .busy hph hout
  next hph =>
    split at h
    next err hbegin =>
      cases h
      exact .refused hph hout hbegin
    next begun hbegin =>
      split at h
      · cases h
      next err post hwalk =>
        cases h
        exact .interrupted hph hout hbegin ⟨_, returns_of_run hwalk, rfl⟩
      next order walked hwalk =>
        split at h
        next err post hreg =>
          cases h
          exact .interrupted hph hout hbegin ⟨_, returns_of_run hwalk, hreg.symm⟩
        next post hreg =>
          cases h
          exact .starts hph hout hbegin ⟨_, returns_of_run hwalk, hreg.symm⟩

theorem step_of_executes {taken : ModuleGraph} (st : Value) (outcome : BodyOutcome)
    (hph : sess.phase = .evaluating root) (hopen : sess.rootOutcome root = none)
    (htake : sess.graph.takeReadyModule = some (mdl, taken)) :
    SessionStep sess (.run st outcome) (sess.executes root mdl taken st outcome) := by
  rw [executes]
  split
  next err hst =>
    exact .misfires hph hopen htake hst
  next started hst =>
    split
    next err hexec =>
      exact .fails hph hopen htake hst hexec
    next post hexec =>
      exact .runs hph hopen htake hst hexec

theorem step_of_settlesIn (res : Except Value Value) (hsuspended : mdl ∈ sess.suspended)
    (hturn : ∀ root, sess.phase = .evaluating root →
      sess.rootOutcome root ≠ none ∨ sess.graph.takeReadyModule = none) :
    SessionStep sess (.settle mdl res) (sess.settlesIn mdl res) := by
  rw [settlesIn]
  split
  next post hfin =>
    exact .settles hsuspended hturn hfin
  next err hfin =>
    split
    next root hph =>
      exact .straysInside hsuspended hph (hturn root hph) hfin
    next hph =>
      exact .strays hsuspended hph hfin

theorem step_of_perform {action : SessionAction} (h : sess.perform rounds action = some next) :
    SessionStep sess action next := by
  cases action with
  | insert init =>
    rw [perform] at h
    split at h
    next hready =>
      split at h
      · cases h
      next id post hinsert =>
        cases h
        exact .insert (free_of_isFree hready.1) hinsert hready.2
    · cases h
  | link root =>
    rw [perform] at h
    split at h
    next hfree =>
      obtain ⟨post, ha, rfl⟩ := Option.map_eq_some_iff.mp h
      obtain ⟨res, hlinks⟩ := links_of_linkedGraph ha
      exact .link (free_of_isFree hfree) hlinks
    · cases h
  | call root =>
    rw [perform] at h
    split at h
    next hfree =>
      split at h
      next err hout =>
        cases h
        exact .unlinked (free_of_isFree hfree) hout
      next outcome hout =>
        cases h
        exact .stored (free_of_isFree hfree) hout
      next hout =>
        exact step_of_begins hout h
    · cases h
  | run st outcome =>
    rw [perform] at h
    split at h
    next root hph =>
      split at h
      next mdl taken hopen htake =>
        cases h
        exact step_of_executes st outcome hph hopen htake
      · cases h
    · cases h
  | settle mdl res =>
    rw [perform] at h
    split at h
    next hsuspended =>
      split at h
      next root hph =>
        split at h
        · cases h
        next hturn =>
          cases h
          refine step_of_settlesIn res hsuspended fun other ho => ?_
          rw [hph] at ho
          cases ho
          by_contra hboth
          obtain ⟨hopen, htake⟩ := not_or.mp hboth
          obtain ⟨taken, htaken⟩ := Option.ne_none_iff_exists'.mp htake
          exact hturn taken (not_not.mp hopen) htaken
      next hph =>
        cases h
        exact step_of_settlesIn res hsuspended fun other ho => absurd ho (hph other)
    · cases h
  | finish =>
    rw [perform] at h
    split at h
    next root hph =>
      split at h
      next outcome hout =>
        cases h
        exact .done hph hout
      next hopen =>
        split at h
        next hidle =>
          cases h
          exact .pends hph hopen hidle
        · cases h
    · cases h

end Sound

/-- One action after the other. -/
def performs (rounds : Nat) : EvaluationSession → List SessionAction → Option EvaluationSession
  | sess, [] => some sess
  | sess, action :: actions =>
    match sess.perform rounds action with
    | none => none
    | some next => performs rounds next actions

theorem run_of_performs {Meets : EvaluationSession → SessionAction → Prop} {rounds : Nat}
    {sess last : EvaluationSession} {actions : List SessionAction} (hrun : SessionRun Meets sess)
    (hmeets : ∀ action ∈ actions, ∀ sess, Meets sess action)
    (h : performs rounds sess actions = some last) : SessionRun Meets last := by
  induction actions generalizing sess with
  | nil =>
    cases h
    exact hrun
  | cons action actions ih =>
    rw [performs] at h
    split at h
    · cases h
    next next hn =>
      exact ih (hrun.step (hmeets action List.mem_cons_self sess) (step_of_perform hn))
        (fun other ho => hmeets other (List.mem_cons_of_mem _ ho)) h

end EvaluationSession

end TachyonEngine.Vm
