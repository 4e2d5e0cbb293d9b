import TachyonEngine.Vm.Promise

/-!
# Sessions of promises

The operations on promises in the order in which code, jobs and the engine call them. Between two of
them anything else may happen, so every operation may follow every other one; only a lookup of
`then` that user code carries out has to have begun. A session also writes down what the engine does
not keep: which pairs were called, which reactions were registered, all jobs that were ever queued,
and what the jobs did.
-/

namespace TachyonEngine.Vm

open Gc (RawHeapRef)
open Lib

/-! ## Actions -/

inductive PromiseAction where
  | createPromise (memory : Option RawHeapRef) (state : PromiseState) (result : Value)
  | createPair (granted : Bool) (promise : Value)
  | callResolver (cell : Nat) (reject : Bool) (resolution : Value) (answers : ResolutionAnswers)
  /-- The executor of a pair throws. -/
  | executorThrows (cell : Nat) (reason : Value)
  /-- The executor of a pair is native and fails. -/
  | executorFails (cell : Nat) (thrown : Value)
  /-- The `then` for whose call a job made the pair throws. -/
  | thenableThrows (cell : Nat) (reason : Value)
  /-- The engine resolves a promise without a pair. -/
  | resolve (promise resolution : Value) (mode : PromiseResolutionMode)
      (answers : ResolutionAnswers)
  | lookupReturns (pending : PendingResolution) («then» : Value)
  | lookupThrows (pending : PendingResolution) (reason : Value)
  /-- The engine settles a promise without a pair. -/
  | settle (promise : Value) (state : PromiseState) (result : Value)
  | register (memory : Bool → Bool) (source : Value) (onFulfilled onRejected : Option Value)
      (capability : Value)
  | checkpoint (result : Value) (answers : CheckpointAnswers)
  /-- A handler returned or threw. -/
  | settleReaction (granted : Bool) (capability argument : Value) (reject : Bool)
      (answers : ResolutionAnswers)
  | finishJob

/-- What an action leaves for later, and what a job did. -/
structure ActionReport where
  pending : Option PendingResolution
  dispatch : Option JobDispatch

def ActionReport.none : ActionReport := ⟨.none, .none⟩

namespace PromiseAction

/-- The pair that is called by an action. -/
def pair : PromiseAction → Option Nat
  | callResolver cell _ _ _ | executorThrows cell _ | executorFails cell _ | thenableThrows cell
      _ => some cell
  | _ => none

/-- The lookup that an action ends. -/
def ends : PromiseAction → Option PendingResolution
  | lookupReturns pending _ | lookupThrows pending _ => some pending
  | _ => none

def run (host : PromiseHost) : PromiseAction → PromiseM ActionReport
  | createPromise memory state result => do
      let _ ← Vm.createPromise memory state result
      pure .none
  | createPair granted promise => do
      let _ ← createPromiseCapabilityArguments granted promise
      pure .none
  | callResolver cell reject resolution answers => do
      let pending ← beginPromiseResolverCall host cell reject resolution answers
      pure ⟨pending, none⟩
  | executorThrows cell reason => do
      rejectPromiseExecutor cell reason
      pure .none
  | executorFails cell thrown => do
      let engine ← get
      match engine.cells[cell]? with
      | none => throw .noGcBorrow
      | some record =>
        rejectFailedExecutor record.promise thrown
        pure .none
  | thenableThrows cell reason => do
      rejectPromiseThenable cell reason
      pure .none
  | resolve promise resolution mode answers => do
      let pending ← beginPromiseResolution host promise resolution mode answers
      pure ⟨pending, none⟩
  | lookupReturns pending «then» => do
      finishPromiseResolution host pending «then»
      pure .none
  | lookupThrows pending reason => do
      rejectPromiseResolution pending reason
      pure .none
  | settle promise state result => do
      settlePromise promise state result
      pure .none
  | register memory source onFulfilled onRejected capability => do
      performPromiseThenWithCapability memory source onFulfilled onRejected capability
      pure .none
  | checkpoint result answers => do
      match ← promiseCheckpointStep host result answers with
      | .started dispatch pending => pure ⟨pending, some dispatch⟩
      | _ => pure .none
  | settleReaction granted capability argument reject answers => do
      let pending ← beginPromiseReactionSettlement host granted capability argument reject answers
      pure ⟨pending, none⟩
  | finishJob => do
      modify (·.modifyQueue PromiseJobQueue.finishActive)
      pure .none

/-- The promise that an action may settle, or at which it registers. -/
def target (engine : PromiseEngine) : PromiseAction → Option Value
  | callResolver cell _ _ _ | executorThrows cell _ | executorFails cell _ | thenableThrows
      cell _ =>
    (engine.cells[cell]?).map PromiseResolutionCell.promise
  | resolve promise _ _ _ => some promise
  | lookupReturns pending _ | lookupThrows pending _ => some pending.promise
  | settle promise _ _ => some promise
  | register _ source _ _ _ => some source
  | checkpoint _ _ =>
    match engine.queue.jobs.head? with
    | some (.reaction _ capability _ _) => some capability
    | _ => none
  | settleReaction _ capability _ _ _ => some capability
  | _ => none

end PromiseAction

/-! ## Sessions -/

/-- One reaction of a promise. -/
structure Registration where
  source : RawHeapRef
  handler : Value
  capability : Value
  rejected : Bool
  /-- The promise was still pending. -/
  waited : Bool

/-- A job with the promise whose settlement it reacts to. -/
structure LoggedJob where
  origin : Option RawHeapRef
  job : PromiseJob

structure PromiseSession where
  engine : PromiseEngine
  lookups : List PendingResolution
  called : List Nat
  registrations : List Registration
  log : List LoggedJob
  ran : List JobDispatch

namespace PromiseSession

def new : PromiseSession :=
  { engine :=
      { promises := fun _ => none
        reactions := []
        cells := []
        queue := { jobs := [], active := none, checkpointResult := none } }
    lookups := []
    called := []
    registrations := []
    log := []
    ran := [] }

/-- The promise record that a value stands for. -/
def object (session : PromiseSession) (value : Value) : Option PromiseObject :=
  value.asHeapRef.bind session.engine.promises

/-- The jobs of the queue that an action added. A step of the checkpoint took one out before. -/
def queued (before after : PromiseEngine) : PromiseAction → List PromiseJob
  | .checkpoint _ _ => after.queue.jobs.drop (before.queue.jobs.length - 1)
  | _ => after.queue.jobs.drop before.queue.jobs.length

/-- A reaction job belongs to the promise that the action is about. -/
def logged (origin : Option Value) (job : PromiseJob) : LoggedJob :=
  match job with
  | .reaction _ _ _ _ => ⟨origin.bind Value.asHeapRef, job⟩
  | .thenable _ _ _ => ⟨none, job⟩

/-- The reactions that an action registers: new nodes of a pending promise, or a job of a settled
one. -/
def registered (before after : PromiseEngine) (action : PromiseAction) : List Registration :=
  match action with
  | .register _ source _ _ _ =>
    match source.asHeapRef with
    | none => []
    | some reference =>
      match before.promises reference with
      | none => []
      | some object =>
        if object.state = .pending then
          List.zipWith (fun (reaction : PromiseReaction) rejected =>
            ⟨reference, reaction.handler, reaction.capability, rejected, true⟩)
            (after.reactions.drop before.reactions.length) [false, true]
        else
          (after.queue.jobs.drop before.queue.jobs.length).filterMap fun job =>
            match job with
            | .reaction handler capability _ rejected =>
              some ⟨reference, handler, capability, rejected, false⟩
            | .thenable _ _ _ => none
  | _ => []

/-- The session behind an action, which reports something and leaves an engine. -/
def record (session : PromiseSession) (action : PromiseAction) (report : ActionReport)
    (after : PromiseEngine) :
    PromiseSession :=
  { engine := after
    lookups := session.lookups.diff action.ends.toList ++ report.pending.toList
    called := action.pair.toList ++ session.called
    registrations := session.registrations ++ registered session.engine after action
    log := session.log ++ (queued session.engine after action).map
      (logged (action.target session.engine))
    ran := session.ran ++ report.dispatch.toList }

/-- An error leaves the engine as it is when the error comes up. -/
def step (host : PromiseHost) (session : PromiseSession) (action : PromiseAction) :
    PromiseSession :=
  match (action.run host).outcome session.engine with
  | (.ok report, after) => session.record action report after
  | (.error _, after) => session.record action .none after

/-- What a reaction settles is a promise, unless it is of another kind. -/
def Settles (host : PromiseHost) (session : PromiseSession) (capability : Value) : Prop :=
  host.capabilityKind capability = .promise → (session.object capability).isSome

/-- What a handler was called for is a promise or a pair of functions. -/
def Handles (host : PromiseHost) (session : PromiseSession) (capability : Value) : Prop :=
  (∃ resolve reject, host.capabilityKind capability = .generic resolve reject) ∨
    (session.object capability).isSome

/-- Whether an action can come next. -/
def Enabled (host : PromiseHost) (session : PromiseSession) : PromiseAction → Prop
  | .createPromise memory _ _ => ∀ reference, memory = some reference →
      session.engine.promises reference = none
  | .createPair _ promise | .resolve promise _ _ _ => (session.object promise).isSome
  | .callResolver cell _ _ _ | .executorThrows cell _ | .executorFails cell _ | .thenableThrows
      cell _ =>
    cell < session.engine.cells.length
  | .lookupReturns pending _ | .lookupThrows pending _ => pending ∈ session.lookups
  | .settle _ state _ => state ≠ .pending
  | .register _ _ _ _ capability => session.Settles host capability
  | .settleReaction _ capability _ _ _ => session.Handles host capability
  | .checkpoint _ _ | .finishJob => True

end PromiseSession

/-- The sessions that runs reach whose every step meets a condition on the session and the
action. -/
inductive PromiseRun (host : PromiseHost) (Meets : PromiseSession → PromiseAction → Prop) :
    PromiseSession → Prop
  | new : PromiseRun host Meets .new
  | step {session : PromiseSession} {action : PromiseAction} (hrun : PromiseRun host Meets session)
      (henabled : session.Enabled host action) (hmeets : Meets session action) :
      PromiseRun host Meets (session.step host action)

/-- A session goes on to another one. -/
inductive PromisePath (host : PromiseHost) (Meets : PromiseSession → PromiseAction → Prop)
    (start : PromiseSession) : PromiseSession → Prop
  | refl : PromisePath host Meets start start
  | step {session : PromiseSession} {action : PromiseAction}
      (hpath : PromisePath host Meets start session) (henabled : session.Enabled host action)
      (hmeets : Meets session action) : PromisePath host Meets start (session.step host action)

end TachyonEngine.Vm
