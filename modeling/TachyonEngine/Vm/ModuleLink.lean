import TachyonEngine.Vm.ResolveExportRun

/-!
# Linking

The source links the modules that a root requests with a search for strongly connected components
that keeps its frames itself. Before it leaves a module it resolves the imports of the module. A
component is published when it is complete; an error takes back the modules of the components that
are not.
-/

namespace TachyonEngine.Vm

open Lib.Loop

structure LinkFrame where
  module : ModuleId
  nextRequest : Nat
  pendingChild : Option ModuleId

structure LinkReport where
  components : List (List ModuleId)

/-- Frames and stack have their top first, and so have the touched modules. -/
structure LinkRun where
  graph : ModuleGraph
  nextIndex : Nat
  frames : List LinkFrame
  componentStack : List ModuleId
  touched : List ModuleId
  components : List (List ModuleId)

/-- A run ends with the report and the graph that is left. -/
abbrev LinkStep := Progress LinkRun (Except ModuleError LinkReport × ModuleGraph)

namespace ModuleGraph

def setStatus (graph : ModuleGraph) (id : ModuleId) (status : ModuleStatus) : ModuleGraph :=
  graph.modifyRecord id fun record => { record with status := status }

def requestedModule (graph : ModuleGraph) (module : ModuleId) (requestIndex : Nat) :
    Except ModuleError ModuleId :=
  match graph.record module with
  | .error error => .error error
  | .ok record =>
    match record.requestedModules[requestIndex]? with
    | none => .error .missingModule
    | some request => graph.moduleBySpecifier request

def enterModule (run : LinkRun) (module : ModuleId) : Except ModuleError LinkRun :=
  let maxWork := run.graph.records.length
  match run.graph.record module with
  | .error error => .error error
  | .ok record =>
    if record.status ≠ .unlinked then .error .invalidLinkState
    else if 2 ^ 32 ≤ run.nextIndex + 1 then .error (.capacityOverflow "module DFS index")
    else if maxWork ≤ run.frames.length then .error (.capacityOverflow "module link frames")
    else if maxWork ≤ run.componentStack.length then .error (.capacityOverflow "module SCC stack")
    else if maxWork ≤ run.touched.length then .error (.capacityOverflow "module link rollback")
    else
      .ok
        { run with
          graph := run.graph.setStatus module (.linking run.nextIndex run.nextIndex)
          nextIndex := run.nextIndex + 1
          frames := ⟨module, 0, none⟩ :: run.frames
          componentStack := module :: run.componentStack
          touched := module :: run.touched }

def lowerAncestor (graph : ModuleGraph) (module : ModuleId) (childAncestor : Nat) :
    Except ModuleError ModuleGraph :=
  match graph.record module with
  | .error error => .error error
  | .ok record =>
    match record.status with
    | .linking dfsIndex ancestorIndex =>
      .ok (graph.setStatus module (.linking dfsIndex (min ancestorIndex childAncestor)))
    | _ => .error .invalidLinkState

/-! ## Imports -/

def resolveImport (graph : ModuleGraph) (entry : ImportEntry) :
    Except ModuleError ResolvedBinding :=
  match graph.moduleBySpecifier entry.moduleRequest with
  | .error error => .error error
  | .ok requested =>
    match entry.importName with
    | .namespace => .ok ⟨requested, .namespace⟩
    | .name name =>
      match graph.resolveExport graph.maxExportWork requested name with
      | .error error => .error error
      | .ok (.found resolution) => .ok resolution
      | .ok .notFound => .error .missingExport
      | .ok .ambiguous => .error .ambiguousExport

def importResolutions (graph : ModuleGraph) :
    List ImportEntry → Except ModuleError (List ResolvedBinding)
  | [] => .ok []
  | entry :: rest =>
    match graph.resolveImport entry with
    | .error error => .error error
    | .ok resolution =>
      match importResolutions graph rest with
      | .error error => .error error
      | .ok resolutions => .ok (resolution :: resolutions)

def storeResolutions : List ImportEntry → List ResolvedBinding → List ImportEntry
  | entry :: rest, resolution :: resolutions =>
    { entry with resolved := some resolution } :: storeResolutions rest resolutions
  | imports, _ => imports

/-- Nothing is stored before every import is resolved. -/
def resolveImports (graph : ModuleGraph) (module : ModuleId) : Except ModuleError ModuleGraph :=
  match graph.record module with
  | .error error => .error error
  | .ok record =>
    match graph.importResolutions record.imports with
    | .error error => .error error
    | .ok resolutions =>
      .ok (graph.modifyRecord module fun record =>
        { record with imports := storeResolutions record.imports resolutions })

/-! ## The run -/

/-- An error takes back what was touched and is not complete. -/
def rollbackLink (graph : ModuleGraph) (touched : List ModuleId) : ModuleGraph :=
  touched.foldl (fun graph module => graph.modifyRecord module fun record =>
    match record.status with
    | .linking _ _ =>
      { record with
        status := .unlinked
        imports := record.imports.map fun entry => { entry with resolved := none } }
    | _ => record) graph

def failLink (run : LinkRun) (error : ModuleError) : LinkStep :=
  .finished (.error error, rollbackLink run.graph run.touched)

/-- Everything above the root on the stack is in its component. -/
def completeComponent (run : LinkRun) (root : ModuleId) : LinkStep :=
  if root ∉ run.componentStack then failLink run .invalidLinkState
  else
    let members := run.componentStack.takeWhile (· ≠ root) ++ [root]
    let run :=
      { run with
        graph := members.foldl (fun graph member => graph.setStatus member (.linked root)) run.graph
        componentStack := (run.componentStack.dropWhile (· ≠ root)).tail }
    if run.graph.records.length ≤ run.components.length then
      failLink run (.capacityOverflow "module link components")
    else .running { run with components := run.components ++ [members] }

/-- A round in which the module on top has gone through its requests. -/
def leaveModule (run : LinkRun) (module : ModuleId) (below : List LinkFrame) : LinkStep :=
  match run.graph.resolveImports module with
  | .error error => failLink run error
  | .ok graph =>
    let run := { run with graph := graph }
    match graph.record module with
    | .error error => failLink run error
    | .ok record =>
      match record.status with
      | .linking dfsIndex ancestorIndex =>
        let run := { run with frames := below }
        if dfsIndex = ancestorIndex then completeComponent run module else .running run
      | _ => failLink run .invalidLinkState

/-- A round in which the module on top goes on to a request. -/
def followRequest (run : LinkRun) (frame : LinkFrame) (below : List LinkFrame) : LinkStep :=
  match run.graph.requestedModule frame.module frame.nextRequest with
  | .error error => failLink run error
  | .ok child =>
    let frame := { frame with nextRequest := frame.nextRequest + 1 }
    match run.graph.record child with
    | .error error => failLink run error
    | .ok record =>
      match record.status with
      | .unlinked =>
        let frames := { frame with pendingChild := some child } :: below
        match enterModule { run with frames := frames } child with
        | .error error => failLink run error
        | .ok run => .running run
      | .linking _ ancestorIndex =>
        match run.graph.lowerAncestor frame.module ancestorIndex with
        | .error error => failLink run error
        | .ok graph => .running { run with graph := graph, frames := frame :: below }
      | .linked _ => .running { run with frames := frame :: below }

/-- A round in which the module on top comes back from a request. -/
def settleChild (run : LinkRun) (frame : LinkFrame) (below : List LinkFrame) (child : ModuleId) :
    LinkStep :=
  let run := { run with frames := { frame with pendingChild := none } :: below }
  match run.graph.record child with
  | .error error => failLink run error
  | .ok record =>
    match record.status with
    | .linking _ ancestorIndex =>
      match run.graph.lowerAncestor frame.module ancestorIndex with
      | .error error => failLink run error
      | .ok graph => .running { run with graph := graph }
    | _ => .running run

def linkStep (run : LinkRun) : LinkStep :=
  match run.frames with
  | [] => .finished (.ok ⟨run.components⟩, run.graph)
  | frame :: below =>
    match frame.pendingChild with
    | some child => settleChild run frame below child
    | none =>
      match run.graph.record frame.module with
      | .error error => failLink run error
      | .ok record =>
        if frame.nextRequest < record.requestedModules.length then followRequest run frame below
        else leaveModule run frame.module below

/-- `link` of a root comes to a result and leaves a graph. -/
def Links (graph : ModuleGraph) (root : ModuleId)
    (result : Except ModuleError LinkReport × ModuleGraph) : Prop :=
  match graph.record root with
  | .error error => result = (.error error, graph)
  | .ok record =>
    match record.status with
    | .linked _ => result = (.ok ⟨[]⟩, graph)
    | .linking _ _ => result = (.error .invalidLinkState, graph)
    | .unlinked =>
      match enterModule ⟨graph, 0, [], [], [], []⟩ root with
      | .error error => result = (.error error, graph)
      | .ok run => Returns linkStep run result

/-! ## Graphs -/

/-- What linking reads and writes of a record. -/
structure ModuleRecord.SameLink (record after : ModuleRecord) : Prop where
  id : after.id = record.id
  specifier : after.specifier = record.specifier
  requestedModules : after.requestedModules = record.requestedModules
  imports : after.imports = record.imports
  exports : after.exports = record.exports
  status : after.status = record.status

/-- The graphs of an engine: modules are inserted, linked and evaluated. An import is handed over
without a resolution. A load that fails leaves the graph that it started with. -/
inductive Loaded : ModuleGraph → Prop
  | new (limits : ModuleLimits) : Loaded (new limits)
  | insert {graph after : ModuleGraph} {init : ModuleRecordInit} {id : ModuleId}
      (hg : Loaded graph) (hinsert : graph.insertWithBody init = .ok (id, after))
      (hunresolved : ∀ entry ∈ init.imports, entry.resolved = none) : Loaded after
  | link {graph after : ModuleGraph} {root : ModuleId} {result : Except ModuleError LinkReport}
      (hg : Loaded graph) (hlinks : Links graph root (result, after)) : Loaded after
  | evaluate {graph : ModuleGraph} (id : ModuleId) (change : ModuleRecord → ModuleRecord)
      (hch : ∀ record, ModuleRecord.SameLink record (change record)) (hg : Loaded graph) :
      Loaded (graph.modifyRecord id change)

end ModuleGraph

end TachyonEngine.Vm
