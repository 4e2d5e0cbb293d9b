import TachyonEngine.Lib.ArenaChain
import TachyonEngine.Lib.Surviving
import TachyonEngine.Vm.Value

/-!
# Promises and their jobs

The records of promises, reactions and resolving functions, and the queue of jobs, with the
operations of the engine on them. What user code does while an operation waits for it is not part of
the operation: a `then` that has to be looked up by running code leaves a continuation, and
`PromiseSession` says who goes on with it. Memory that an operation asks for is granted or not by an
argument.
-/

namespace TachyonEngine.Vm

open Gc (RawHeapRef)
open Lib

/-! ## Records -/

inductive PromiseState where
  | pending
  | fulfilled
  | rejected
  deriving DecidableEq

/-- A reaction in a list of a pending promise. -/
structure PromiseReaction where
  handler : Value
  capability : Value
  next : Option Nat

/-- What the two resolving functions of a pair share. -/
structure PromiseResolutionCell where
  promise : Value
  alreadyResolved : Bool

structure PromiseObject where
  state : PromiseState
  result : Value
  fulfillHead : Option Nat
  fulfillTail : Option Nat
  rejectHead : Option Nat
  rejectTail : Option Nat

inductive PromiseJob where
  | reaction (handler capability argument : Value) (rejected : Bool)
  | thenable (promise thenable «then» : Value)

structure PromiseJobQueue where
  jobs : List PromiseJob
  active : Option PromiseJob
  checkpointResult : Option Value

namespace PromiseJobQueue

def push (queue : PromiseJobQueue) (job : PromiseJob) : PromiseJobQueue :=
  { queue with jobs := queue.jobs ++ [job] }

/-- The job that was active is forgotten. -/
def beginNext (queue : PromiseJobQueue) : Option PromiseJob × PromiseJobQueue :=
  (queue.jobs.head?, { queue with jobs := queue.jobs.tail, active := queue.jobs.head? })

def finishActive (queue : PromiseJobQueue) : PromiseJobQueue := { queue with active := none }

def hasPending (queue : PromiseJobQueue) : Bool := queue.active.isSome || !queue.jobs.isEmpty

def beginCheckpoint (queue : PromiseJobQueue) (result : Value) : PromiseJobQueue :=
  if queue.checkpointResult.isNone then { queue with checkpointResult := some result } else queue

def finishCheckpoint (queue : PromiseJobQueue) : Option Value × PromiseJobQueue :=
  (queue.checkpointResult, { queue with checkpointResult := none })

end PromiseJobQueue

structure PromiseEngine where
  promises : RawHeapRef → Option PromiseObject
  reactions : List PromiseReaction
  cells : List PromiseResolutionCell
  queue : PromiseJobQueue

inductive PromiseError where
  | notObject (value : Value)
  | heapAllocation
  | registerAllocationFailed
  | noGcBorrow
  | missingNativeContinuation
  /-- A list of reactions without an end. -/
  | endlessReactions
  /-- An error of the lookup that is no exception. -/
  | engine

abbrev PromiseM (α : Type) := Attempt PromiseEngine PromiseError α

/-- What a reaction settles, as its kinds are told apart. -/
inductive CapabilityKind where
  | asyncFunction
  | asyncModule
  | asyncGeneratorAwait
  | dynamicImport
  /-- A record with two functions. -/
  | generic (resolve reject : Value)
  | promise

/-- What the operations ask about other objects. -/
structure PromiseHost where
  isObject : Value → Bool
  isFunction : Value → Bool
  capabilityKind : Value → CapabilityKind

namespace PromiseEngine

def setPromise (engine : PromiseEngine) (reference : RawHeapRef) (object : PromiseObject) :
    PromiseEngine :=
  { engine with promises := fun other => if other = reference then some object else
    engine.promises other }

def modifyQueue (engine : PromiseEngine) (change : PromiseJobQueue → PromiseJobQueue) :
    PromiseEngine :=
  { engine with queue := change engine.queue }

end PromiseEngine

/-! ## Promises -/

/-- The promise that a value is. -/
def promiseSnapshot (value : Value) : PromiseM (RawHeapRef × PromiseObject) := do
  let engine ← get
  match value.asHeapRef with
  | none => throw (.notObject value)
  | some reference =>
    match engine.promises reference with
    | none => throw (.notObject value)
    | some object => pure (reference, object)

/-- The new promise has a place that the allocator chose, unless memory is refused. -/
def createPromise (memory : Option RawHeapRef) (state : PromiseState) (result : Value) :
    PromiseM Value :=
  match memory with
  | none => throw .heapAllocation
  | some reference => do
      modify (·.setPromise reference
        { state := state
          result := result
          fulfillHead := none
          fulfillTail := none
          rejectHead := none
          rejectTail := none })
      pure (.heapRef reference)

/-- The two functions of a pair share the cell that is returned. -/
def createPromiseCapabilityArguments (granted : Bool) (promise : Value) : PromiseM Nat := do
  let engine ← get
  if granted then
    modify fun engine => { engine with cells := engine.cells ++ [⟨promise, false⟩] }
    pure engine.cells.length
  else throw .heapAllocation

/-- The promise of a pair, for the first call only. -/
def claimPromiseResolver (cell : Nat) : PromiseM (Option Value) := do
  let engine ← get
  match engine.cells[cell]? with
  | none => throw .noGcBorrow
  | some record =>
    if record.alreadyResolved then pure none
    else
      modify fun engine => { engine with cells := engine.cells.set cell { record with alreadyResolved := true } }
      pure (some record.promise)

/-! ## Settlement -/

def PromiseReaction.job (argument : Value) (rejected : Bool) (reaction : PromiseReaction) :
    PromiseJob :=
  .reaction reaction.handler reaction.capability argument rejected

/-- As many nodes as there are in all are enough for a list that ends. -/
def enqueuePromiseReactionList (start : Option Nat) (argument : Value) (rejected : Bool) :
    PromiseM Unit := do
  let engine ← get
  match followChain PromiseReaction.next engine.reactions engine.reactions.length start with
  | none => throw .endlessReactions
  | some reactions =>
    modify (·.modifyQueue fun queue =>
      { queue with jobs := queue.jobs ++ reactions.map (PromiseReaction.job argument rejected) })

def settlePromise (promise : Value) (state : PromiseState) (result : Value) : PromiseM Unit := do
  let (reference, object) ← promiseSnapshot promise
  if object.state ≠ .pending then enqueuePromiseReactionList none result (state = .rejected)
  else
    modify (·.setPromise reference
      { state := state
        result := result
        fulfillHead := none
        fulfillTail := none
        rejectHead := none
        rejectTail := none })
    enqueuePromiseReactionList (if state = .rejected then object.rejectHead else
      object.fulfillHead) result
      (state = .rejected)

/-! ## Registration -/

/-- The head and the tail of one of the two lists. -/
def PromiseObject.list (object : PromiseObject) (rejected : Bool) : Option Nat × Option Nat :=
  if rejected then (object.rejectHead, object.rejectTail) else
    (object.fulfillHead, object.fulfillTail)

def PromiseObject.setList (object : PromiseObject) (rejected : Bool) (head tail : Option Nat) :
    PromiseObject :=
  if rejected then { object with rejectHead := head, rejectTail := tail }
  else { object with fulfillHead := head, fulfillTail := tail }

def PromiseReaction.setNext (reaction : PromiseReaction) (link : Option Nat) : PromiseReaction :=
  { reaction with next := link }

def appendPromiseReaction (granted : Bool) (source capability : Value) (handler : Option Value)
    (rejected : Bool) : PromiseM Unit := do
  if granted then
    let (reference, object) ← promiseSnapshot source
    let engine ← get
    let (head, tail) := object.list rejected
    let reaction := { handler := handler.getD .undefined, capability := capability, next := none }
    modify fun engine =>
      { engine with reactions := linkBehind PromiseReaction.setNext engine.reactions tail reaction }
    modify (·.setPromise reference (object.setList rejected
      (if head.isNone then some engine.reactions.length else head) (some engine.reactions.length)))
  else throw .heapAllocation

def pushJob (job : PromiseJob) : PromiseM Unit := modify (·.modifyQueue (·.push job))

/-- `memory` says for each of the two reactions of a pending promise whether it can be allocated. -/
def performPromiseThenWithCapability (memory : Bool → Bool) (source : Value)
    (onFulfilled onRejected : Option Value) (capability : Value) : PromiseM Unit := do
  let (_, object) ← promiseSnapshot source
  match object.state with
  | .pending => do
      appendPromiseReaction (memory false) source capability onFulfilled false
      appendPromiseReaction (memory true) source capability onRejected true
  | .fulfilled => pushJob (.reaction (onFulfilled.getD .undefined) capability object.result false)
  | .rejected => pushJob (.reaction (onRejected.getD .undefined) capability object.result true)

/-! ## Resolution -/

inductive PromiseResolutionMode where
  | resolverCall
  | staticResolve
  | internal
  | reaction
  | asyncAwait
  deriving DecidableEq

/-- A resolution that waits for the `then` of an object. -/
structure PendingResolution where
  mode : PromiseResolutionMode
  promise : Value
  resolution : Value
  deriving DecidableEq

/-- How the lookup of `then` goes. A missing property is undefined. -/
inductive ThenLookup where
  | returns («then» : Value)
  | throws
  | fails
  | suspended

/-- What a resolution meets: the error object it makes, unless memory for it is refused, and the
lookup. -/
structure ResolutionAnswers where
  nativeError : Option Value
  lookup : ThenLookup

def createNativeError (memory : Option Value) : PromiseM Value :=
  match memory with
  | none => throw .heapAllocation
  | some error => pure error

/-- The modes differ in what they write for their caller; a reaction also ends its job. -/
def completePromiseResolution (mode : PromiseResolutionMode) : PromiseM Unit :=
  match mode with
  | .reaction => modify (·.modifyQueue PromiseJobQueue.finishActive)
  | .resolverCall | .staticResolve | .internal | .asyncAwait => pure ()

def finishPromiseResolution (host : PromiseHost) (pending : PendingResolution) («then» : Value) :
    PromiseM Unit := do
  if host.isFunction «then» then pushJob (.thenable pending.promise pending.resolution «then»)
  else settlePromise pending.promise .fulfilled pending.resolution
  completePromiseResolution pending.mode

def rejectPromiseResolution (pending : PendingResolution) (reason : Value) : PromiseM Unit := do
  settlePromise pending.promise .rejected reason
  completePromiseResolution pending.mode

/-- The resolution that waits for user code, if there is one. -/
def beginPromiseResolution (host : PromiseHost) (promise resolution : Value)
    (mode : PromiseResolutionMode)
    (answers : ResolutionAnswers) : PromiseM (Option PendingResolution) := do
  if promise = resolution then
    let error ← createNativeError answers.nativeError
    settlePromise promise .rejected error
    completePromiseResolution mode
    pure none
  else if ¬ host.isObject resolution then
    settlePromise promise .fulfilled resolution
    completePromiseResolution mode
    pure none
  else
    match answers.lookup with
    | .returns «then» => do
        finishPromiseResolution host ⟨mode, promise, resolution⟩ «then»
        pure none
    | .throws => do
        let reason ← createNativeError answers.nativeError
        rejectPromiseResolution ⟨mode, promise, resolution⟩ reason
        pure none
    | .fails => throw .engine
    | .suspended => pure (some ⟨mode, promise, resolution⟩)

/-! ## Resolving functions -/

def beginPromiseResolverCall (host : PromiseHost) (cell : Nat) (reject : Bool) (resolution : Value)
    (answers : ResolutionAnswers) : PromiseM (Option PendingResolution) := do
  match ← claimPromiseResolver cell with
  | none => pure none
  | some promise =>
    if reject then
      settlePromise promise .rejected resolution
      pure none
    else beginPromiseResolution host promise resolution .resolverCall answers

/-- The executor was left by an exception. -/
def rejectPromiseExecutor (cell : Nat) (reason : Value) : PromiseM Unit := do
  match ← claimPromiseResolver cell with
  | none => pure ()
  | some promise => settlePromise promise .rejected reason

/-- The branch of `finish_promise_constructor` for an executor whose call returns an error: a native
function that fails before the call is over. -/
def rejectFailedExecutor (promise thrown : Value) : PromiseM Unit :=
  settlePromise promise .rejected thrown

/-- The `then` of a job was left by an exception. -/
def rejectPromiseThenable (cell : Nat) (reason : Value) : PromiseM Unit := do
  match ← claimPromiseResolver cell with
  | none => pure ()
  | some promise => settlePromise promise .rejected reason
  modify (·.modifyQueue PromiseJobQueue.finishActive)

/-! ## Jobs -/

/-- What a job does first. -/
inductive JobDispatch where
  | resumes (kind : CapabilityKind) (capability argument : Value) (rejected : Bool)
  /-- Without a handler the settlement is passed on. -/
  | passes (capability argument : Value) (rejected : Bool)
  | calls (handler capability argument : Value)
  | callsThen («then» thenable promise : Value)

def dispatchOf (host : PromiseHost) : PromiseJob → JobDispatch
  | .reaction handler capability argument rejected =>
    match host.capabilityKind capability with
    | .generic _ _ | .promise =>
      if host.isFunction handler then .calls handler capability argument
      else .passes capability argument rejected
    | kind => .resumes kind capability argument rejected
  | .thenable promise thenable «then» => .callsThen «then» thenable promise

/-- A generic capability is settled by a call of one of its functions, which is a step of its
own. -/
def beginPromiseReactionSettlement (host : PromiseHost) (granted : Bool)
    (capability argument : Value)
    (reject : Bool) (answers : ResolutionAnswers) : PromiseM (Option PendingResolution) :=
  match host.capabilityKind capability with
  | .generic _ _ => if granted then pure none else throw .heapAllocation
  | _ =>
    if reject then do
      settlePromise capability .rejected argument
      modify (·.modifyQueue PromiseJobQueue.finishActive)
      pure none
    else beginPromiseResolution host capability argument .reaction answers

/-- What a step of the checkpoint meets. -/
structure CheckpointAnswers where
  /-- A slot for the results of jobs. -/
  site : Bool
  /-- The arguments of the handler, or the pair of a thenable. -/
  arguments : Bool
  resolution : ResolutionAnswers
  /-- Whether the finalization jobs still have work. -/
  finalization : Bool

/-- What a step of the checkpoint comes to: it passes jobs of finalization, ends the checkpoint, or
starts a job. -/
inductive CheckpointProgress where
  | finalizes
  | completed (result : Option Value)
  | started (dispatch : JobDispatch) (pending : Option PendingResolution)

def requireGranted (granted : Bool) (error : PromiseError) : PromiseM Unit :=
  if granted then pure () else throw error

def promiseCheckpointStep (host : PromiseHost) (result : Value) (answers : CheckpointAnswers) :
    PromiseM CheckpointProgress := do
  modify (·.modifyQueue (·.beginCheckpoint result))
  let engine ← get
  modify (·.modifyQueue fun queue => queue.beginNext.2)
  match engine.queue.beginNext.1 with
  | none =>
    if answers.finalization then pure .finalizes
    else
      let engine ← get
      modify (·.modifyQueue fun queue => queue.finishCheckpoint.2)
      pure (.completed engine.queue.finishCheckpoint.1)
  | some job =>
    match job, dispatchOf host job with
    | .thenable promise _ _, dispatch => do
        let _ ← createPromiseCapabilityArguments answers.arguments promise
        requireGranted answers.site .registerAllocationFailed
        pure (.started dispatch none)
    | .reaction _ _ _ _, .resumes kind capability argument rejected => do
        modify (·.modifyQueue PromiseJobQueue.finishActive)
        pure (.started (.resumes kind capability argument rejected) none)
    | .reaction _ _ _ _, .passes capability argument rejected => do
        requireGranted answers.site .registerAllocationFailed
        let pending ← beginPromiseReactionSettlement host answers.arguments capability
          argument rejected
          answers.resolution
        pure (.started (.passes capability argument rejected) pending)
    | .reaction _ _ _ _, dispatch => do
        requireGranted answers.arguments .heapAllocation
        requireGranted answers.site .registerAllocationFailed
        pure (.started dispatch none)

end TachyonEngine.Vm
