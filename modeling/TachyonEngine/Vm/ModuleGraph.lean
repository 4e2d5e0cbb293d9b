import TachyonEngine.Vm.Value

/-!
# The module graph

The records of the loaded modules, in the order of their insertion. A record names the modules that
it requests by their resolved identities; a requested module need not be there yet. A record is
checked before it is inserted, so the specifiers of the graph differ and a record asks for a module
once.

Requests for memory are granted. The cells of the bindings and the bodies are left out.
-/

namespace TachyonEngine.Vm

/-! ## Records -/

/-- The index of a record. -/
structure ModuleId where
  index : Nat
  deriving DecidableEq

/-- The source codes an index as a positive 32-bit number. -/
def ModuleId.fromIndex (index : Nat) : Option ModuleId :=
  if index + 1 < 2 ^ 32 then some ⟨index⟩ else none

structure ModuleIdentity where
  bytes : List UInt8
  deriving DecidableEq

structure ModuleBindingName where
  text : String
  deriving DecidableEq

structure ModuleExportName where
  units : List UInt16
  deriving DecidableEq

def ModuleExportName.isDefault (name : ModuleExportName) : Bool :=
  name.units = [0x64, 0x65, 0x66, 0x61, 0x75, 0x6c, 0x74]

inductive ModuleImportName where
  | name (name : ModuleExportName)
  | «namespace»
  deriving DecidableEq

inductive ResolvedBindingName where
  | «local» (name : ModuleBindingName)
  | «namespace»
  deriving DecidableEq

structure ResolvedBinding where
  module : ModuleId
  binding : ResolvedBindingName
  deriving DecidableEq

structure ImportEntry where
  moduleRequest : ModuleIdentity
  importName : ModuleImportName
  localName : ModuleBindingName
  resolved : Option ResolvedBinding

inductive ExportEntry where
  | «local» (exportName : ModuleExportName) (localName : ModuleBindingName)
  | indirect (exportName : ModuleExportName) (moduleRequest : ModuleIdentity)
      (importName : ModuleImportName)
  | star (moduleRequest : ModuleIdentity)
  deriving DecidableEq

def ExportEntry.exportName : ExportEntry → Option ModuleExportName
  | .local exportName _ => some exportName
  | .indirect exportName _ _ => some exportName
  | .star _ => none

inductive ModuleStatus where
  | unlinked
  | linking (dfsIndex ancestorIndex : Nat)
  | linked (cycleRoot : ModuleId)
  deriving DecidableEq

inductive ModuleEvaluationState where
  | unevaluated
  | waiting
  | evaluating
  | asyncEvaluating (state : Value)
  | evaluated (value : Value)
  | errored (error : Value)
  deriving DecidableEq

/-- What the compiler or the host hands over. -/
structure ModuleRecordInit where
  specifier : ModuleIdentity
  requestedModules : List ModuleIdentity
  imports : List ImportEntry
  exports : List ExportEntry
  localBindings : List ModuleBindingName
  hasTopLevelAwait : Bool

structure ModuleRecord where
  id : ModuleId
  specifier : ModuleIdentity
  requestedModules : List ModuleIdentity
  imports : List ImportEntry
  exports : List ExportEntry
  localBindings : List ModuleBindingName
  status : ModuleStatus
  evaluation : ModuleEvaluationState
  asyncParents : List ModuleId
  pendingAsyncDependencies : Nat
  asyncEvaluationOrder : Option Nat
  evaluationTraversalMark : Nat
  hasTopLevelAwait : Bool

structure ModuleLimits where
  maxModules : UInt32
  maxBindingCells : UInt32
  maxEdges : UInt32

inductive ModuleError where
  | capacityOverflow (collection : String)
  | moduleLimit (limit : UInt32)
  | bindingCellLimit (limit : UInt32)
  | edgeLimit (limit : UInt32)
  | duplicateSpecifier
  | duplicateRequestedModule
  | duplicateBinding
  | duplicateExport
  | undeclaredModuleRequest
  | missingLocalBinding
  | unknownModule (module : ModuleId)
  | missingModule
  | missingExport
  | ambiguousExport
  | invalidLinkState
  | evaluationOrderLimit (limit : UInt32)
  deriving DecidableEq

/-- The start of an evaluation keeps its state elsewhere. -/
structure ModuleGraph where
  records : List ModuleRecord
  cells : Nat
  limits : ModuleLimits
  edgeCount : Nat
  nextAsyncEvaluationOrder : Nat
  readyAsyncModules : List ModuleId
  nextStartEpoch : Nat

namespace ModuleGraph

def new (limits : ModuleLimits) : ModuleGraph :=
  { records := []
    cells := 0
    limits := limits
    edgeCount := 0
    nextAsyncEvaluationOrder := 0
    readyAsyncModules := []
    nextStartEpoch := 4 }

section Queries

variable (g : ModuleGraph)

def record (id : ModuleId) : Except ModuleError ModuleRecord :=
  match g.records[id.index]? with
  | some record => .ok record
  | none => .error (.unknownModule id)

def findSpecifier (specifier : ModuleIdentity) : Option ModuleId :=
  (g.records.find? fun record => record.specifier = specifier).map ModuleRecord.id

def moduleBySpecifier (specifier : ModuleIdentity) : Except ModuleError ModuleId :=
  match g.findSpecifier specifier with
  | some module => .ok module
  | none => .error .missingModule

end Queries

variable {g : ModuleGraph} {id : ModuleId}

theorem getElem?_of_record {rec : ModuleRecord} (h : g.record id = .ok rec) :
    g.records[id.index]? = some rec := by
  rw [ModuleGraph.record] at h
  split at h
  next found hf =>
    cases h
    exact hf
  · cases h

/-- Writes a record back. -/
def modifyRecord (g : ModuleGraph) (id : ModuleId) (change : ModuleRecord → ModuleRecord) :
    ModuleGraph :=
  { g with records := g.records.modify id.index change }

/-! ## Insertion -/

/-- The imports that are left, and the local names of those before them. -/
def validateImports (init : ModuleRecordInit) (seen : List ModuleBindingName) :
    List ImportEntry → Except ModuleError Unit
  | [] => .ok ()
  | entry :: rest =>
    if entry.moduleRequest ∉ init.requestedModules then .error .undeclaredModuleRequest
    else if entry.localName ∈ init.localBindings ∨ entry.localName ∈ seen then
      .error .duplicateBinding
    else validateImports init (entry.localName :: seen) rest

/-- The exports that are left, and the export names of those before them. -/
def validateExports (init : ModuleRecordInit) (seen : List ModuleExportName) :
    List ExportEntry → Except ModuleError Unit
  | [] => .ok ()
  | entry :: rest =>
    if entry.exportName.any (· ∈ seen) then .error .duplicateExport
    else
      let check : Except ModuleError Unit :=
        match entry with
        | .local _ localName =>
          if localName ∈ init.localBindings then .ok () else .error .missingLocalBinding
        | .indirect _ moduleRequest _ | .star moduleRequest =>
          if moduleRequest ∈ init.requestedModules then .ok ()
          else .error .undeclaredModuleRequest
      match check with
      | .error error => .error error
      | .ok () => validateExports init (entry.exportName.toList ++ seen) rest

def validateRecord (g : ModuleGraph) (init : ModuleRecordInit) : Except ModuleError Unit :=
  if g.records.any fun record => record.specifier = init.specifier then
    .error .duplicateSpecifier
  else if ¬ init.requestedModules.Nodup then .error .duplicateRequestedModule
  else if ¬ init.localBindings.Nodup then .error .duplicateBinding
  else
    match validateImports init [] init.imports with
    | .error error => .error error
    | .ok () => validateExports init [] init.exports

def newRecord (init : ModuleRecordInit) (id : ModuleId) : ModuleRecord :=
  { id := id
    specifier := init.specifier
    requestedModules := init.requestedModules
    imports := init.imports
    exports := init.exports
    localBindings := init.localBindings
    status := .unlinked
    evaluation := .unevaluated
    asyncParents := []
    pendingAsyncDependencies := 0
    asyncEvaluationOrder := none
    evaluationTraversalMark := 0
    hasTopLevelAwait := init.hasTopLevelAwait }

def insertWithBody (g : ModuleGraph) (init : ModuleRecordInit) :
    Except ModuleError (ModuleId × ModuleGraph) :=
  match g.validateRecord init with
  | .error error => .error error
  | .ok () =>
    let nextEdgeCount := g.edgeCount + init.requestedModules.length + init.imports.length +
      init.exports.length
    let nextCellCount := g.cells + init.localBindings.length
    if g.limits.maxModules.toNat ≤ g.records.length then
      .error (.moduleLimit g.limits.maxModules)
    else if g.limits.maxEdges.toNat < nextEdgeCount then
      .error (.edgeLimit g.limits.maxEdges)
    else if g.limits.maxBindingCells.toNat < nextCellCount then
      .error (.bindingCellLimit g.limits.maxBindingCells)
    else
      match ModuleId.fromIndex g.records.length with
      | none => .error (.capacityOverflow "module record IDs")
      | some id =>
        .ok (id,
          { g with
            records := g.records ++ [newRecord init id]
            cells := nextCellCount
            edgeCount := nextEdgeCount })

/-- A record with the same shape. Linking and evaluation change the other fields. -/
structure ModuleRecord.Keeps (record after : ModuleRecord) : Prop where
  id : after.id = record.id
  specifier : after.specifier = record.specifier
  requestedModules : after.requestedModules = record.requestedModules
  exports : after.exports = record.exports
  imports : after.imports.map (fun entry => { entry with resolved := none }) =
    record.imports.map fun entry => { entry with resolved := none }

/-- The graphs that insertions build, whatever happens to the records in between. -/
inductive Admitted : ModuleGraph → Prop where
  | new (limits : ModuleLimits) : Admitted (new limits)
  | insert {g after : ModuleGraph} {init : ModuleRecordInit} {id : ModuleId}
      (hg : Admitted g) (hinsert : g.insertWithBody init = .ok (id, after)) :
      Admitted after
  | modify {g : ModuleGraph} (id : ModuleId) (change : ModuleRecord → ModuleRecord)
      (hch : ∀ record, ModuleRecord.Keeps record (change record)) (hg : Admitted g) :
      Admitted (g.modifyRecord id change)

/-- A record stands at its own index. -/
def Indexed (g : ModuleGraph) : Prop :=
  ∀ (index : Nat) (record : ModuleRecord), g.records[index]? = some record → record.id.index = index

variable {post : ModuleGraph} {init : ModuleRecordInit}

theorem insertWithBody_eq (h : g.insertWithBody init = .ok (id, post)) :
    g.validateRecord init = .ok () ∧ id.index = g.records.length ∧
      post.records = g.records ++ [newRecord init id] ∧
      post.edgeCount = g.edgeCount + init.requestedModules.length + init.imports.length +
        init.exports.length := by
  rw [insertWithBody] at h
  split at h
  · cases h
  next hval =>
    dsimp only at h
    split at h
    · cases h
    · split at h
      · cases h
      · split_ifs at h
        split at h
        · cases h
        next id' hid =>
          cases h
          refine ⟨hval, ?_, rfl, rfl⟩
          rw [ModuleId.fromIndex] at hid
          split at hid
          · cases hid
            rfl
          · cases hid

theorem Indexed.insert (h : g.Indexed) (hinsert : g.insertWithBody init = .ok (id, post)) :
    post.Indexed := by
  obtain ⟨-, hid, hrecs, -⟩ := insertWithBody_eq hinsert
  intro idx rec hrec
  rw [hrecs, List.getElem?_append] at hrec
  split at hrec
  · exact h idx rec hrec
  · rw [List.getElem?_singleton] at hrec
    split at hrec
    · cases hrec
      rw [newRecord, hid]
      omega
    · cases hrec

theorem Indexed.modifyRecord (h : g.Indexed) (id : ModuleId) {change : ModuleRecord → ModuleRecord}
    (hch : ∀ rec, (change rec).id = rec.id) : (g.modifyRecord id change).Indexed := by
  intro idx rec hrec
  rw [ModuleGraph.modifyRecord, List.getElem?_modify] at hrec
  obtain ⟨pre, hb, hrec⟩ := Option.map_eq_some_iff.mp hrec
  split at hrec
  · rw [← hrec, hch pre]
    exact h idx pre hb
  · rw [← hrec]
    exact h idx pre hb

theorem Admitted.indexed (h : Admitted g) : g.Indexed := by
  induction h with
  | new limits =>
    intro idx rec hrec
    cases hrec
  | insert _ hinsert ih => exact ih.insert hinsert
  | modify id change hch _ ih => exact ih.modifyRecord id fun rec => (hch rec).id

theorem Indexed.lt_of_moduleBySpecifier (h : g.Indexed) {specifier : ModuleIdentity} {mdl :
    ModuleId} (hf : g.moduleBySpecifier specifier = .ok mdl) : mdl.index < g.records.length := by
  rw [moduleBySpecifier] at hf
  split at hf
  next found hspecifier =>
    cases hf
    obtain ⟨rec, hrec, rfl⟩ := Option.map_eq_some_iff.mp hspecifier
    obtain ⟨idx, hi, heq⟩ := List.mem_iff_getElem.mp (List.mem_of_find?_eq_some hrec)
    have hid := h idx rec (by rw [List.getElem?_eq_getElem hi, heq])
    rw [hid]
    exact hi
  · cases hf

end ModuleGraph

end TachyonEngine.Vm
