import TachyonEngine.Vm.ModuleLink

/-!
# The evaluation of modules

An evaluation starts with a walk over the requests of its root, which registers the modules in the
order in which it leaves them. A module with nothing to wait for is ready; any other is told when a
dependency is done. Then ready modules run until the root is done. The body of a module with a
top-level await may be suspended, and settles later.

Memory is granted. Function declarations, the Promise of an evaluation and budgets are left out.
-/

namespace TachyonEngine.Vm

open Lib.Loop

inductive RunOutcome where
  | completed (value : Value)
  | thrown (error : Value)
  deriving DecidableEq

/-- What is known of the evaluation of one module. -/
def ModuleRecord.outcome (record : ModuleRecord) : Option RunOutcome :=
  match record.evaluation with
  | .evaluated value => some (.completed value)
  | .errored error => some (.thrown error)
  | _ => none

def ModuleRecord.isErrored (record : ModuleRecord) : Bool :=
  match record.evaluation with
  | .errored _ => true
  | _ => false

/-- An epoch is a multiple of four. The low bits of a mark say whether the walk has left the
module. -/
def ModuleRecord.traversalEpoch (record : ModuleRecord) :
    Nat := record.evaluationTraversalMark / 4 * 4

namespace ModuleGraph

def setEvaluation (graph : ModuleGraph) (id : ModuleId) (evaluation : ModuleEvaluationState) :
    ModuleGraph :=
  graph.modifyRecord id fun record => { record with evaluation := evaluation }

def setTraversalMark (graph : ModuleGraph) (id : ModuleId) (mark : Nat) : ModuleGraph :=
  graph.modifyRecord id fun record => { record with evaluationTraversalMark := mark }

def cycleRoot (graph : ModuleGraph) (module : ModuleId) : Except ModuleError ModuleId :=
  match graph.record module with
  | .error error => .error error
  | .ok record =>
    match record.status with
    | .linked cycleRoot => .ok cycleRoot
    | _ => .error .invalidLinkState

def evaluationOutcome (graph : ModuleGraph) (module : ModuleId) :
    Except ModuleError (Option RunOutcome) :=
  match graph.cycleRoot module with
  | .error error => .error error
  | .ok root =>
    match graph.record root with
    | .error error => .error error
    | .ok record => .ok record.outcome

/-! ## Completion -/

/-- The parents that are told, and the graph in which they are not recorded any more. -/
def takeParents (graph : ModuleGraph) (module : ModuleId) (evaluation : ModuleEvaluationState) :
    Except ModuleError (List ModuleId × ModuleGraph) :=
  match graph.record module with
  | .error _ => .error .missingModule
  | .ok record =>
    .ok (record.asyncParents, graph.modifyRecord module fun record =>
        { record with asyncParents := [], evaluation := evaluation })

def releaseParent (graph : ModuleGraph) (parent : ModuleId) : Except ModuleError ModuleGraph :=
  match graph.record parent with
  | .error _ => .error .missingModule
  | .ok record =>
    if record.evaluation ≠ .waiting ∨ record.pendingAsyncDependencies = 0 then .ok graph
    else
      let graph := graph.modifyRecord parent fun record =>
        { record with pendingAsyncDependencies := record.pendingAsyncDependencies - 1 }
      if record.pendingAsyncDependencies = 1 then
        .ok { graph with readyAsyncModules := graph.readyAsyncModules ++ [parent] }
      else .ok graph

def releaseParents (graph : ModuleGraph) : List ModuleId → Except ModuleError ModuleGraph
  | [] => .ok graph
  | parent :: parents =>
    match graph.releaseParent parent with
    | .error error => .error error
    | .ok graph => releaseParents graph parents

/-- The worklist has its top first. -/
structure RejectRun where
  graph : ModuleGraph
  worklist : List ModuleId

def pushParents (graph : ModuleGraph) :
    List ModuleId → List ModuleId → Except ModuleError (List ModuleId)
  | [], worklist => .ok worklist
  | parent :: parents, worklist =>
    match graph.record parent with
    | .error error => .error error
    | .ok record =>
      match record.evaluation with
      | .errored _ => pushParents graph parents worklist
      | _ =>
        if parent ∈ worklist then pushParents graph parents worklist
        else pushParents graph parents (parent :: worklist)

def rejectStep (error : Value) (run : RejectRun) :
    Progress RejectRun (Except ModuleError ModuleGraph) :=
  match run.worklist with
  | [] => .finished (.ok run.graph)
  | current :: rest =>
    match run.graph.record current with
    | .error error => .finished (.error error)
    | .ok record =>
      match record.evaluation with
      | .errored _ => .running { run with worklist := rest }
      | _ =>
        match run.graph.takeParents current (.errored error) with
        | .error error => .finished (.error error)
        | .ok (parents, graph) =>
          match graph.pushParents parents rest with
          | .error error => .finished (.error error)
          | .ok worklist => .running ⟨graph, worklist⟩

/-- A round marks a module as errored, or makes the worklist shorter. -/
def rejectRank (run : RejectRun) : Nat × Nat :=
  (run.graph.records.countP fun record => !record.isErrored, run.worklist.length)

theorem countP_modify_lt {records : List ModuleRecord} {p : ModuleRecord → Bool} {idx : Nat}
    {rec : ModuleRecord} {change : ModuleRecord → ModuleRecord} (hrec : records[idx]? = some rec)
    (hb : p rec = true) (ha : p (change rec) = false) :
    (records.modify idx change).countP p < records.countP p := by
  induction records generalizing idx with
  | nil => cases hrec
  | cons head tail ih =>
    cases idx with
    | zero =>
      cases hrec
      rw [List.modify_zero_cons, List.countP_cons_of_pos hb,
        List.countP_cons_of_neg (by rw [ha]; exact Bool.false_ne_true)]
      exact Nat.lt_succ_self _
    | succ idx =>
      rw [List.modify_succ_cons, List.countP_cons, List.countP_cons]
      exact Nat.add_lt_add_right (ih hrec) _

theorem rejectStep_rank (err : Value) (run next : RejectRun)
    (h : rejectStep err run = .running next) :
    Prod.Lex (· < ·) (· < ·) (rejectRank next) (rejectRank run) := by
  rw [rejectStep] at h
  split at h
  · cases h
  next cur rest hworklist =>
    split at h
    · cases h
    next rec hrec =>
      split at h
      · cases h
        refine Prod.Lex.right _ ?_
        rw [hworklist]
        exact Nat.lt_succ_self _
      next hopen =>
        have hopenRecord : rec.isErrored = false := by
          rw [ModuleRecord.isErrored]
          split
          next val hv =>
            exact absurd hv (hopen val)
          · rfl
        rw [takeParents, hrec] at h
        dsimp only at h
        split at h
        · cases h
        · cases h
          refine Prod.Lex.left _ _ (@countP_modify_lt _ _ _ rec _ ?_ ?_ rfl)
          · exact getElem?_of_record hrec
          · rw [hopenRecord]
            rfl

def rejectEvaluationTree (graph : ModuleGraph) (module : ModuleId) (error : Value) :
    Except ModuleError ModuleGraph :=
  complete (rejectStep error) rejectRank (rejectStep_rank error) ⟨graph, [module]⟩

theorem returns_rejectEvaluationTree (g : ModuleGraph) (mdl : ModuleId) (err : Value) :
    Returns (rejectStep err) ⟨g, [mdl]⟩ (g.rejectEvaluationTree mdl err) :=
  returns_complete _ _

def completeEvaluation (graph : ModuleGraph) (module : ModuleId) (result : Except Value Value) :
    Except ModuleError ModuleGraph :=
  match result with
  | .ok value =>
    match graph.takeParents module (.evaluated value) with
    | .error error => .error error
    | .ok (parents, graph) => graph.releaseParents parents
  | .error error => graph.rejectEvaluationTree module error

/-! ## The queue -/

/-- The place of a module in the order of evaluation, the last one for a module without any. -/
def readyOrder (graph : ModuleGraph) (module : ModuleId) : Nat :=
  match graph.record module with
  | .ok record => record.asyncEvaluationOrder.getD (2 ^ 64 - 1)
  | .error _ => 2 ^ 64 - 1

/-- The last element takes the place of the one that is removed. -/
def swapRemove {α : Type*} (list : List α) (index : Nat) : List α :=
  match list.getLast? with
  | none => list
  | some last => (list.set index last).dropLast

def takeReadyModule (graph : ModuleGraph) : Option (ModuleId × ModuleGraph) :=
  match graph.readyAsyncModules.argmin graph.readyOrder with
  | none => none
  | some module =>
    some (module,
      { graph with
        readyAsyncModules :=
          swapRemove graph.readyAsyncModules (graph.readyAsyncModules.idxOf module) })

def nextEvaluationOrder (graph : ModuleGraph) : Except ModuleError Nat :=
  if 2 ^ 64 ≤ graph.nextAsyncEvaluationOrder + 1 then
    .error (.capacityOverflow "module async evaluation order")
  else .ok (graph.nextAsyncEvaluationOrder + 1)

def queueReadyModule (graph : ModuleGraph) (module : ModuleId) : Except ModuleError ModuleGraph :=
  match graph.record module with
  | .error error => .error error
  | .ok record =>
    if record.evaluation ≠ .unevaluated then .error .invalidLinkState
    else
      match graph.nextEvaluationOrder with
      | .error error => .error error
      | .ok next =>
        let graph :=
          { graph with
            nextAsyncEvaluationOrder := next
            readyAsyncModules := graph.readyAsyncModules ++ [module] }
        .ok (graph.modifyRecord module fun record =>
          { record with asyncEvaluationOrder := some (next - 1) })

end ModuleGraph

/-! ## The start of an evaluation -/

structure ModuleStartFrame where
  module : ModuleId
  nextRequest : Nat

/-- Frames have their top first. -/
structure StartRun where
  graph : ModuleGraph
  epoch : Nat
  frames : List ModuleStartFrame
  order : List ModuleId

/-- A walk ends with its order and the graph that is left. -/
abbrev StartStep := Progress StartRun (Except ModuleError (List ModuleId) × ModuleGraph)

namespace ModuleGraph

def beginEvaluationStart (graph : ModuleGraph) (root : ModuleId) : Except ModuleError StartRun :=
  match graph.cycleRoot root with
  | .error error => .error error
  | .ok root =>
    let epoch := graph.nextStartEpoch
    if 2 ^ 32 ≤ epoch + 4 then .error (.capacityOverflow "module evaluation traversal epoch")
    else
      let graph := { graph with nextStartEpoch := epoch + 4 }
      .ok
        { graph := graph.setTraversalMark root (epoch + 1)
          epoch := epoch
          frames := [⟨root, 0⟩]
          order := [] }

/-- One requested edge, or one module that the walk leaves. -/
def advanceEvaluationTraversal (run : StartRun) : StartStep :=
  match run.frames with
  | [] => .finished (.ok run.order, run.graph)
  | frame :: below =>
    match run.graph.record frame.module with
    | .error error => .finished (.error error, run.graph)
    | .ok record =>
      match record.requestedModules[frame.nextRequest]? with
      | none =>
        .running
          { run with
            graph := run.graph.setTraversalMark frame.module (run.epoch + 2)
            frames := below
            order := run.order ++ [frame.module] }
      | some request =>
        match run.graph.moduleBySpecifier request with
        | .error error => .finished (.error error, run.graph)
        | .ok child =>
          match run.graph.record child with
          | .error error => .finished (.error error, run.graph)
          | .ok childRecord =>
            let frames := { frame with nextRequest := frame.nextRequest + 1 } :: below
            if childRecord.traversalEpoch = run.epoch then .running { run with frames := frames }
            else if run.graph.limits.maxModules.toNat ≤ run.frames.length then
              .finished (.error (.evaluationOrderLimit run.graph.limits.maxModules), run.graph)
            else
              .running
                { run with
                  graph := run.graph.setTraversalMark child (run.epoch + 1)
                  frames := ⟨child, 0⟩ :: frames }

/-- What the requests of a module come to when it is registered. -/
inductive Scan where
  | failed (error : Value)
  | pending (dependencies : List ModuleId)

/-- A dependency outside of the component is awaited by way of its root. Inside, an order marks one
that was registered before. -/
def scanRegistrationEdges (graph : ModuleGraph) (cycleRoot : ModuleId) :
    List ModuleIdentity → List ModuleId → Except ModuleError Scan
  | [], dependencies => .ok (.pending dependencies)
  | request :: requests, dependencies =>
    match graph.moduleBySpecifier request with
    | .error error => .error error
    | .ok dependency =>
      match graph.record dependency with
      | .error error => .error error
      | .ok dependencyRecord =>
        match dependencyRecord.status with
        | .linked dependencyRoot =>
          if dependencyRoot = cycleRoot then
            if dependencyRecord.asyncEvaluationOrder.isSome ∧ dependency ∉ dependencies then
              scanRegistrationEdges graph cycleRoot requests (dependencies ++ [dependency])
            else scanRegistrationEdges graph cycleRoot requests dependencies
          else
            match graph.record dependencyRoot with
            | .error error => .error error
            | .ok rootRecord =>
              match rootRecord.evaluation with
              | .errored error => .ok (.failed error)
              | .evaluated _ => scanRegistrationEdges graph cycleRoot requests dependencies
              | _ =>
                if dependencyRoot ∈ dependencies then
                  scanRegistrationEdges graph cycleRoot requests dependencies
                else
                  scanRegistrationEdges graph cycleRoot requests (dependencies ++ [dependencyRoot])
        | _ => .error .invalidLinkState

def publishParents (graph : ModuleGraph) (module : ModuleId) (dependencies : List ModuleId) :
    ModuleGraph :=
  dependencies.foldl (fun graph dependency => graph.modifyRecord dependency fun record =>
    { record with asyncParents := record.asyncParents ++ [module] }) graph

/-- A module that waits for something. -/
def awaitDependencies (graph : ModuleGraph) (module : ModuleId) (dependencies : List ModuleId) :
    Except ModuleError ModuleGraph :=
  if 2 ^ 32 ≤ dependencies.length then .error (.capacityOverflow "module pending dependency count")
  else
    match graph.nextEvaluationOrder with
    | .error error => .error error
    | .ok next =>
      let graph := { graph with nextAsyncEvaluationOrder := next }
      .ok (graph.modifyRecord module fun record =>
        { record with
          pendingAsyncDependencies := dependencies.length
          asyncEvaluationOrder := some (next - 1)
          evaluation := .waiting })

/-- The graph that is left comes with the result. -/
def leaving (graph : ModuleGraph) (result : Except ModuleError ModuleGraph) :
    Except ModuleError Unit × ModuleGraph :=
  match result with
  | .error error => (.error error, graph)
  | .ok graph => (.ok (), graph)

def registerModule (graph : ModuleGraph) (module : ModuleId) :
    Except ModuleError Unit × ModuleGraph :=
  match graph.record module with
  | .error error => (.error error, graph)
  | .ok record =>
    if record.evaluation ≠ .unevaluated then (.ok (), graph)
    else
      match record.status with
      | .linked cycleRoot =>
        match graph.scanRegistrationEdges cycleRoot record.requestedModules [] with
        | .error error => (.error error, graph)
        | .ok (.failed error) => graph.leaving (graph.completeEvaluation module (.error error))
        | .ok (.pending []) => graph.leaving (graph.queueReadyModule module)
        | .ok (.pending dependencies) =>
          let graph := graph.publishParents module dependencies
          graph.leaving (graph.awaitDependencies module dependencies)
      | _ => (.error .invalidLinkState, graph)

def registerModules (graph : ModuleGraph) : List ModuleId → Except ModuleError Unit × ModuleGraph
  | [] => (.ok (), graph)
  | module :: modules =>
    match graph.registerModule module with
    | (.error error, graph) => (.error error, graph)
    | (.ok (), graph) => registerModules graph modules

/-- The walk that was begun and the registration come to a result. -/
def Starts (run : StartRun) (result : Except ModuleError Unit × ModuleGraph) : Prop :=
  ∃ walked, Returns advanceEvaluationTraversal run walked ∧ result =
      match walked with
      | (.error error, graph) => (.error error, graph)
      | (.ok order, graph) => graph.registerModules order

end ModuleGraph

/-! ## Bodies -/

/-- What a body comes to when it runs. Only one with a top-level await is suspended, and `failed`
stands for an error of the engine. -/
inductive BodyOutcome where
  | completed (value : Value)
  | thrown (error : Value)
  | suspended
  | failed
  deriving DecidableEq

namespace ModuleGraph

def startReadyModule (graph : ModuleGraph) (module : ModuleId) : Except ModuleError ModuleGraph :=
  match graph.record module with
  | .error error => .error error
  | .ok record =>
    match record.evaluation with
    | .unevaluated | .waiting => .ok (graph.setEvaluation module .evaluating)
    | _ => .error .invalidLinkState

def beginAsyncEvaluation (graph : ModuleGraph) (module : ModuleId) (state : Value) :
    Except ModuleError ModuleGraph :=
  match graph.record module with
  | .error error => .error error
  | .ok record =>
    if record.evaluation ≠ .evaluating then .error .invalidLinkState
    else if record.asyncEvaluationOrder.isSome then
      .ok (graph.setEvaluation module (.asyncEvaluating state))
    else
      match graph.nextEvaluationOrder with
      | .error error => .error error
      | .ok next =>
        let graph := { graph with nextAsyncEvaluationOrder := next }
        .ok (graph.modifyRecord module fun record =>
          { record with
            evaluation := .asyncEvaluating state
            asyncEvaluationOrder := some (next - 1) })

def finishAsyncEvaluation (graph : ModuleGraph) (module : ModuleId) (result : Except Value Value) :
    Except ModuleError ModuleGraph :=
  match graph.record module with
  | .error error => .error error
  | .ok record =>
    match record.evaluation with
    | .asyncEvaluating _ => graph.completeEvaluation module result
    | _ => .error .invalidLinkState

def finishReadyModuleOutcome (graph : ModuleGraph) (module : ModuleId) (outcome : RunOutcome) :
    Except ModuleError ModuleGraph :=
  match outcome with
  | .thrown error => graph.completeEvaluation module (.error error)
  | .completed value =>
    match graph.record module with
    | .error error => .error error
    | .ok record =>
      match record.evaluation with
      | .asyncEvaluating _ => .ok graph
      | _ => graph.completeEvaluation module (.ok value)

/-- A body without a top-level await. -/
def runSynchronously (graph : ModuleGraph) (module : ModuleId) :
    BodyOutcome → Except ModuleError ModuleGraph
  | .completed value => graph.finishReadyModuleOutcome module (.completed value)
  | .thrown error => graph.finishReadyModuleOutcome module (.thrown error)
  | .suspended | .failed => .error .invalidLinkState

/-- A body with a top-level await. Whether it returns, throws or is suspended, its entry frame is
gone, and the run of the entry counts as completed. -/
def runAsynchronously (graph : ModuleGraph) (module : ModuleId) (state : Value)
    (outcome : BodyOutcome) :
    Except ModuleError ModuleGraph :=
  match graph.beginAsyncEvaluation module state with
  | .error error => .error error
  | .ok graph =>
    let ran : Except ModuleError ModuleGraph :=
      match outcome with
      | .completed value => graph.finishAsyncEvaluation module (.ok value)
      | .thrown error => graph.finishAsyncEvaluation module (.error error)
      | .suspended => .ok graph
      | .failed => .error .invalidLinkState
    match ran with
    | .error error => .error error
    | .ok graph => graph.finishReadyModuleOutcome module (.completed .undefined)

def executeReadyModule (graph : ModuleGraph) (module : ModuleId) (state : Value)
    (outcome : BodyOutcome) :
    Except ModuleError ModuleGraph :=
  match graph.record module with
  | .error error => .error error
  | .ok record =>
    if record.hasTopLevelAwait then graph.runAsynchronously module state outcome
    else graph.runSynchronously module outcome

end ModuleGraph

end TachyonEngine.Vm
