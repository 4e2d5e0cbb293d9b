import TachyonEngine.Lib.Loop
import TachyonEngine.Vm.ModuleGraph

/-!
# The resolution of an export

The source resolves an export without recursion, on a stack of frames, and with a list of the pairs
of a module and a name that were visited. Stack and list are bounded by a number that the callers
derive from the size of the graph.

`resolveRecursively` is the recursive definition that the loop stands for. It counts what the loop
is bounded in: the visited pairs, and how deep the calls nest.
-/

namespace TachyonEngine.Vm

open Lib.Loop

inductive ResolveOutcome where
  | found (binding : ResolvedBinding)
  | notFound
  | ambiguous
  deriving DecidableEq

/-! ## The loop -/

inductive ResolveFrameState where
  | enter
  | awaitIndirect
  | stars (nextExport : Nat) (candidate : Option ResolvedBinding)

structure ResolveFrame where
  module : ModuleId
  name : ModuleExportName
  state : ResolveFrameState

/-- The top of the stack stands first. -/
structure ResolveRun where
  frames : List ResolveFrame
  visits : List (ModuleId × ModuleExportName)
  completed : Option ResolveOutcome

abbrev ResolveStep := Progress ResolveRun (Except ModuleError ResolveOutcome)

def ResolveRun.fail (error : ModuleError) : ResolveStep := .finished (.error error)

/-- The module requests of the star exports. -/
def starRequests (exports : List ExportEntry) : List ModuleIdentity :=
  exports.filterMap fun entry =>
    match entry with
    | .star moduleRequest => some moduleRequest
    | _ => none

/-- The next star export from an index on. -/
def findStar (exports : List ExportEntry) (nextExport : Nat) : Option (Nat × ModuleIdentity) :=
  (exports.zipIdx.drop nextExport).findSome? fun (entry, index) =>
    match entry with
    | .star moduleRequest => some (index, moduleRequest)
    | _ => none

def findExport (exports : List ExportEntry) (name : ModuleExportName) : Option ExportEntry :=
  exports.find? fun entry => entry.exportName = some name

namespace ModuleGraph

variable (g : ModuleGraph) (maxWork : Nat)

/-- What a frame does with the outcome of its child. -/
def deliver (run : ResolveRun) (outcome : ResolveOutcome) : ResolveStep :=
  match run.frames with
  | [] => ResolveRun.fail .invalidLinkState
  | [_] => .finished (.ok outcome)
  | _ :: parent :: below =>
    match parent.state with
    | .awaitIndirect =>
      .running { run with frames := parent :: below, completed := some outcome }
    | .stars nextExport candidate =>
      match outcome with
      | .found found =>
        if candidate.any (· ≠ found) then
          .running { run with frames := parent :: below, completed := some .ambiguous }
        else
          .running
            { run with
              frames := { parent with state := .stars nextExport (some found) } :: below
              completed := none }
      | .notFound => .running { run with frames := parent :: below, completed := none }
      | .ambiguous =>
        .running { run with frames := parent :: below, completed := some .ambiguous }
    | .enter => ResolveRun.fail .invalidLinkState

/-- `push_resolve_frame` in a round that gives the frames below the new one. -/
def pushResolveFrame (run : ResolveRun) (frames : List ResolveFrame) (module : ModuleId)
    (name : ModuleExportName) : ResolveStep :=
  if maxWork ≤ frames.length then ResolveRun.fail (.capacityOverflow "module export frames")
  else .running { run with frames := ⟨module, name, .enter⟩ :: frames, completed := none }

/-- The first round of a frame. -/
def enterFrame (run : ResolveRun) (frame : ResolveFrame) (below : List ResolveFrame) :
    ResolveStep :=
  if (frame.module, frame.name) ∈ run.visits then .running { run with completed := some .notFound }
  else if maxWork ≤ run.visits.length then
    ResolveRun.fail (.capacityOverflow "module export visits")
  else
    let run := { run with visits := run.visits ++ [(frame.module, frame.name)] }
    match g.record frame.module with
    | .error error => ResolveRun.fail error
    | .ok record =>
      match findExport record.exports frame.name with
      | some (.local _ localName) =>
        .running { run with completed := some (.found ⟨frame.module, .local localName⟩) }
      | some (.indirect _ moduleRequest importName) =>
        match g.moduleBySpecifier moduleRequest with
        | .error error => ResolveRun.fail error
        | .ok target =>
          match importName with
          | .namespace => .running { run with completed := some (.found ⟨target, .namespace⟩) }
          | .name name =>
            pushResolveFrame maxWork run ({ frame with state := .awaitIndirect } :: below)
              target name
      -- a star export has no name, so the source cannot get here
      | some (.star _) => ResolveRun.fail .invalidLinkState
      | none =>
        if frame.name.isDefault then .running { run with completed := some .notFound }
        else .running { run with frames := { frame with state := .stars 0 none } :: below }

/-- A round of a frame that goes through its star exports. -/
def advanceStars (run : ResolveRun) (frame : ResolveFrame) (below : List ResolveFrame)
    (nextExport : Nat) (candidate : Option ResolvedBinding) : ResolveStep :=
  match g.record frame.module with
  | .error error => ResolveRun.fail error
  | .ok record =>
    match findStar record.exports nextExport with
    | none =>
      .running
        { run with
          completed := some (match candidate with
            | some binding => .found binding
            | none => .notFound) }
    | some (index, moduleRequest) =>
      match g.moduleBySpecifier moduleRequest with
      | .error error => ResolveRun.fail error
      | .ok target =>
        pushResolveFrame maxWork run
          ({ frame with state := .stars (index + 1) candidate } :: below) target frame.name

def resolveStep (run : ResolveRun) : ResolveStep :=
  match run.completed with
  | some outcome => deliver run outcome
  | none =>
    match run.frames with
    | [] => ResolveRun.fail .invalidLinkState
    | frame :: below =>
      match frame.state with
      | .enter => enterFrame g maxWork run frame below
      | .awaitIndirect => ResolveRun.fail .invalidLinkState
      | .stars nextExport candidate =>
        advanceStars g maxWork run frame below nextExport candidate

/-- The run of `resolve_export`, whose first frame is bounded like every other one. -/
def resolveExportReturns (module : ModuleId) (name : ModuleExportName)
    (result : Except ModuleError ResolveOutcome) : Prop :=
  if maxWork = 0 then result = .error (.capacityOverflow "module export frames")
  else
    Returns (resolveStep g maxWork)
      { frames := [⟨module, name, .enter⟩], visits := [], completed := none } result

/-- The bound that linking and namespaces compute. -/
def maxExportWork : Nat := max (g.records.length + g.edgeCount) 1

/-! ## The recursive definition -/

/-- A result, the pairs visited so far, and how many calls were open at once. -/
structure Resolution where
  result : Except ModuleError ResolveOutcome
  visits : List (ModuleId × ModuleExportName)
  depth : Nat
  deriving DecidableEq

/-- The star exports in their order, with the binding that was found among them. -/
def resolveStars (resolve : List (ModuleId × ModuleExportName) → ModuleId → Option Resolution)
    (visits : List (ModuleId × ModuleExportName)) (candidate : Option ResolvedBinding) :
    List ModuleIdentity → Option Resolution
  | [] =>
    some ⟨.ok (match candidate with
        | some binding => .found binding
        | none => .notFound), visits, 0⟩
  | request :: rest =>
    match g.moduleBySpecifier request with
    | .error error => some ⟨.error error, visits, 0⟩
    | .ok target =>
      (resolve visits target).bind fun child =>
        let goOn (candidate : Option ResolvedBinding) :=
          (resolveStars resolve child.visits candidate rest).map fun resolution =>
            { resolution with depth := max child.depth resolution.depth }
        match child.result with
        | .error error => some ⟨.error error, child.visits, child.depth⟩
        | .ok .ambiguous => some ⟨.ok .ambiguous, child.visits, child.depth⟩
        | .ok .notFound => goOn candidate
        | .ok (.found found) =>
          if candidate.any (· ≠ found) then some ⟨.ok .ambiguous, child.visits, child.depth⟩
          else goOn (some found)

/-- The recursive definition, with a bound on the nesting of the calls. -/
def resolveRecursively :
    Nat → List (ModuleId × ModuleExportName) → ModuleId → ModuleExportName → Option Resolution
  | 0, _, _, _ => none
  | fuel + 1, visits, module, name =>
    if (module, name) ∈ visits then some ⟨.ok .notFound, visits, 1⟩
    else
      let visits := visits ++ [(module, name)]
      match g.record module with
      | .error error => some ⟨.error error, visits, 1⟩
      | .ok record =>
        match findExport record.exports name with
        | some (.local _ localName) =>
          some ⟨.ok (.found ⟨module, .local localName⟩), visits, 1⟩
        | some (.indirect _ moduleRequest importName) =>
          match g.moduleBySpecifier moduleRequest with
          | .error error => some ⟨.error error, visits, 1⟩
          | .ok target =>
            match importName with
            | .namespace => some ⟨.ok (.found ⟨target, .namespace⟩), visits, 1⟩
            | .name name =>
              (resolveRecursively fuel visits target name).map fun resolution =>
                { resolution with depth := resolution.depth + 1 }
        | some (.star _) => none
        | none =>
          if name.isDefault then some ⟨.ok .notFound, visits, 1⟩
          else
            (resolveStars g (fun visits target => resolveRecursively fuel visits target name)
              visits none (starRequests record.exports)).map fun resolution =>
                { resolution with depth := resolution.depth + 1 }

/-- The resolution that the recursive definition comes to. -/
def Resolves (module : ModuleId) (name : ModuleExportName) (resolution : Resolution) : Prop :=
  ∃ fuel, resolveRecursively g fuel [] module name = some resolution

end ModuleGraph

end TachyonEngine.Vm
