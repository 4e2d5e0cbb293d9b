import TachyonEngine.Lib.ComponentSearch
import TachyonEngine.Vm.ModuleLink

/-!
# Linking is a search for components

A run of the source is a search over the records: a status is a mark, and what a frame has left are
the modules of the requests from its index on. Linking changes neither what a record requests nor
what it exports, so the graph that is searched and the resolution of an import stay the same.
-/

namespace TachyonEngine.Vm

open Lib.Loop Lib.Components List

/-! ## What linking keeps -/

/-- Records that request and export the same. -/
structure ModuleRecord.Alike (rec post : ModuleRecord) : Prop where
  id : post.id = rec.id
  specifier : post.specifier = rec.specifier
  requestedModules : post.requestedModules = rec.requestedModules
  exports : post.exports = rec.exports

theorem ModuleRecord.Alike.refl (rec : ModuleRecord) : rec.Alike rec := ⟨rfl, rfl, rfl, rfl⟩

theorem ModuleRecord.Alike.trans {rec middle post : ModuleRecord} (h : rec.Alike middle)
    (h' : middle.Alike post) : rec.Alike post where
  id := h'.id.trans h.id
  specifier := h'.specifier.trans h.specifier
  requestedModules := h'.requestedModules.trans h.requestedModules
  exports := h'.exports.trans h.exports

namespace ModuleGraph

/-- Graphs whose records request and export the same. -/
structure Alike (g post : ModuleGraph) : Prop where
  length : post.records.length = g.records.length
  records : ∀ (index : Nat) (rec : ModuleRecord), g.records[index]? = some rec →
    ∃ rec', post.records[index]? = some rec' ∧ rec.Alike rec'
  edgeCount : post.edgeCount = g.edgeCount

theorem Alike.refl (g : ModuleGraph) : g.Alike g :=
  ⟨rfl, fun _ rec hrec => ⟨rec, hrec, .refl rec⟩, rfl⟩

variable {g : ModuleGraph}

theorem Alike.trans {middle post : ModuleGraph} (h : g.Alike middle) (h' : middle.Alike post) :
    g.Alike post where
  length := h'.length.trans h.length
  records := by
    intro idx rec hrec
    obtain ⟨rec', hrec', hs⟩ := h.records idx rec hrec
    obtain ⟨rec'', hrec'', hs'⟩ := h'.records idx rec' hrec'
    exact ⟨rec'', hrec'', hs.trans hs'⟩
  edgeCount := h'.edgeCount.trans h.edgeCount

theorem alike_modifyRecord (id : ModuleId) {change : ModuleRecord → ModuleRecord} (hch : ∀ rec,
    ModuleRecord.Alike rec (change rec)) : g.Alike (g.modifyRecord id change) where
  length := length_modify _ _ _
  records := by
    intro idx rec hrec
    refine ⟨if id.index = idx then change rec else rec, ?_, ?_⟩
    · rw [modifyRecord, getElem?_modify, hrec]
      rfl
    · split
      · exact hch rec
      · exact .refl rec
  edgeCount := rfl

section Alike

variable {g post : ModuleGraph} (h : g.Alike post)

include h

theorem Alike.record (id : ModuleId) :
    (∃ rec rec', g.record id = .ok rec ∧ post.record id = .ok rec' ∧ rec.Alike rec') ∨
    (g.record id = .error (.unknownModule id) ∧ post.record id = .error (.unknownModule id)) := by
  rw [ModuleGraph.record, ModuleGraph.record]
  cases hrec : g.records[id.index]? with
  | some rec =>
    obtain ⟨rec', hrec', hs⟩ := h.records id.index rec hrec
    rw [hrec']
    exact .inl ⟨rec, rec', rfl, rfl, hs⟩
  | none =>
    have hlen : post.records.length ≤ id.index := by
      rw [h.length]
      exact List.getElem?_eq_none_iff.mp hrec
    rw [getElem?_eq_none hlen]
    exact .inr ⟨rfl, rfl⟩

theorem Alike.map_eq {α : Type*} {val : ModuleRecord → α}
    (hv : ∀ {rec rec' : ModuleRecord}, rec.Alike rec' → val rec' = val rec) :
    post.records.map val = g.records.map val := by
  refine ext_getElem? fun idx => ?_
  rw [getElem?_map, getElem?_map]
  cases hrec : g.records[idx]? with
  | some rec =>
    obtain ⟨rec', hrec', hs⟩ := h.records idx rec hrec
    rw [hrec', Option.map_some, Option.map_some, hv hs]
  | none =>
    have hlen : post.records.length ≤ idx := by
      rw [h.length]
      exact List.getElem?_eq_none_iff.mp hrec
    rw [getElem?_eq_none hlen]

theorem Alike.findSpecifier (specifier : ModuleIdentity) :
    post.findSpecifier specifier = g.findSpecifier specifier := by
  have hfind : ∀ records : List ModuleRecord,
      (records.find? fun rec => rec.specifier = specifier).map ModuleRecord.id =
        ((records.map fun rec => (rec.specifier, rec.id)).find? fun pair =>
          pair.1 = specifier).map Prod.snd := by
    intro records
    rw [find?_map, Option.map_map]
    rfl
  rw [ModuleGraph.findSpecifier, ModuleGraph.findSpecifier, hfind, hfind, h.map_eq]
  intro rec rec' hs
  rw [hs.specifier, hs.id]

theorem Alike.moduleBySpecifier (specifier : ModuleIdentity) :
    post.moduleBySpecifier specifier = g.moduleBySpecifier specifier := by
  rw [ModuleGraph.moduleBySpecifier, ModuleGraph.moduleBySpecifier, h.findSpecifier]

theorem Alike.maxExportWork : post.maxExportWork = g.maxExportWork := by
  rw [ModuleGraph.maxExportWork, ModuleGraph.maxExportWork, h.length, h.edgeCount]

theorem Alike.resolveStep (maxWork : Nat) (run : ResolveRun) :
    post.resolveStep maxWork run = g.resolveStep maxWork run := by
  rw [ModuleGraph.resolveStep.eq_def, ModuleGraph.resolveStep.eq_def g]
  have henter : ∀ frame below,
      post.enterFrame maxWork run frame below = g.enterFrame maxWork run frame below := by
    intro frame below
    rw [ModuleGraph.enterFrame, ModuleGraph.enterFrame]
    rcases h.record frame.module with ⟨rec, rec', hrec, hrec', hs⟩ | ⟨hn, hn'⟩
    · rw [hrec, hrec']
      dsimp only
      rw [hs.exports]
      simp only [h.moduleBySpecifier]
    · rw [hn, hn']
  have hadvance : ∀ frame below nextExport candidate,
      post.advanceStars maxWork run frame below nextExport candidate =
        g.advanceStars maxWork run frame below nextExport candidate := by
    intro frame below nextExport candidate
    simp only [ModuleGraph.advanceStars]
    rcases h.record frame.module with ⟨rec, rec', hrec, hrec', hs⟩ | ⟨hn, hn'⟩
    · rw [hrec, hrec']
      dsimp only
      rw [hs.exports]
      simp only [h.moduleBySpecifier]
    · rw [hn, hn']
  simp only [henter, hadvance]

theorem Alike.resolveExport (maxWork : Nat) (mdl : ModuleId) (name : ModuleExportName) :
    post.resolveExport maxWork mdl name = g.resolveExport maxWork mdl name := by
  have hs := resolveExportReturns_iff.mpr (rfl : g.resolveExport maxWork mdl name = _)
  have hstep : post.resolveStep maxWork = g.resolveStep maxWork := funext (h.resolveStep maxWork)
  refine resolveExportReturns_iff.mp ?_
  rw [resolveExportReturns, hstep]
  rwa [resolveExportReturns] at hs

theorem Alike.resolveImport (ent : ImportEntry) : post.resolveImport ent = g.resolveImport ent := by
  rw [ModuleGraph.resolveImport, ModuleGraph.resolveImport]
  simp only [h.moduleBySpecifier, h.maxExportWork, h.resolveExport]

theorem Alike.importResolutions (imports : List ImportEntry) :
    post.importResolutions imports = g.importResolutions imports := by
  induction imports with
  | nil => rfl
  | cons ent rest ih =>
    rw [ModuleGraph.importResolutions, ModuleGraph.importResolutions, h.resolveImport, ih]

end Alike

/-! ## The search -/

end ModuleGraph

def ModuleStatus.mark : ModuleStatus → Mark ModuleId
  | .unlinked => .white
  | .linking dfsIndex ancestorIndex => .opened dfsIndex ancestorIndex
  | .linked cycleRoot => .closed cycleRoot

namespace ModuleGraph

def mark (g : ModuleGraph) (module : ModuleId) : Mark ModuleId :=
  match g.record module with
  | .ok rec => rec.status.mark
  | .error _ => .white

/-- The modules that a module requests, as far as they are there. -/
def requested (g : ModuleGraph) (module : ModuleId) : List ModuleId :=
  match g.record module with
  | .ok rec => rec.requestedModules.filterMap g.findSpecifier
  | .error _ => []

/-- The modules that a frame has left. -/
def remaining (g : ModuleGraph) (frame : LinkFrame) : List ModuleId :=
  match g.record frame.module with
  | .ok rec => (rec.requestedModules.drop frame.nextRequest).filterMap g.findSpecifier
  | .error _ => []

def searchFrame (g : ModuleGraph) (frame : LinkFrame) : SearchFrame ModuleId :=
  ⟨frame.module, g.remaining frame, frame.pendingChild⟩

end ModuleGraph

/-- The search that a run is, over the graph that it started with. -/
def LinkRun.search (base : ModuleGraph) (run : LinkRun) : Search ModuleId :=
  { mark := run.graph.mark
    next := run.nextIndex
    frames := run.frames.map base.searchFrame
    stack := run.componentStack
    touched := run.touched
    components := run.components }

namespace ModuleGraph

/-! ## Records after a write -/

theorem ModuleId.ext {id other : ModuleId} (h : id.index = other.index) : id = other := by
  cases other
  cases h
  rfl

section Write

variable {g : ModuleGraph} {id : ModuleId} {rec : ModuleRecord}
  {change : ModuleRecord → ModuleRecord}

section

variable (hrec : g.record id = .ok rec)

include hrec

theorem record_modifyRecord_self : (g.modifyRecord id change).record id = .ok (change rec) := by
  rw [ModuleGraph.record] at hrec
  split at hrec
  next found hf =>
    cases hrec
    rw [ModuleGraph.record, modifyRecord, getElem?_modify_eq, hf]
    rfl
  · cases hrec

omit hrec in
theorem record_modifyRecord_of_ne {other : ModuleId} (hne : other ≠ id) :
    (g.modifyRecord id change).record other = g.record other := by
  have hi : id.index ≠ other.index := fun h => hne (ModuleId.ext h.symm)
  rw [ModuleGraph.record, ModuleGraph.record, modifyRecord]
  rw [getElem?_modify_ne _ _ hi]

theorem mark_eq : g.mark id = rec.status.mark := by
  rw [mark, hrec]

omit hrec in
theorem exists_record (hmark : g.mark id ≠ .white) :
    ∃ rec, g.record id = .ok rec ∧ rec.status.mark = g.mark id := by
  rw [mark] at hmark ⊢
  cases hrec : g.record id with
  | ok rec => exact ⟨rec, rfl, rfl⟩
  | error err =>
    rw [hrec] at hmark
    exact absurd rfl hmark

omit hrec in
theorem exists_record_opened {idx low : Nat} (hmark : g.mark id = .opened idx low) :
    ∃ rec, g.record id = .ok rec ∧ rec.status = .linking idx low := by
  have hwhite : g.mark id ≠ .white := by
    rw [hmark]
    exact fun h => nomatch h
  obtain ⟨rec, hrec, hstat⟩ := exists_record hwhite
  rw [hmark] at hstat
  refine ⟨rec, hrec, ?_⟩
  cases hcases : rec.status with
  | unlinked | linked cycleRoot =>
    rw [hcases] at hstat
    cases hstat
  | linking dfsIndex ancestorIndex =>
    rw [hcases] at hstat
    cases hstat
    rfl

theorem mark_modifyRecord :
    (g.modifyRecord id change).mark = Function.update g.mark id (change rec).status.mark := by
  funext other
  by_cases ho : other = id
  · subst ho
    rw [Function.update_self, mark, record_modifyRecord_self hrec]
  · rw [Function.update_of_ne ho, mark, record_modifyRecord_of_ne ho, mark]

theorem record_lt : id.index < g.records.length := by
  rw [ModuleGraph.record] at hrec
  split at hrec
  next found hf =>
    exact (List.getElem?_eq_some_iff.mp hf).1
  · cases hrec

end

theorem exists_record_of_lt (hlt : id.index < g.records.length) : ∃ rec, g.record id = .ok rec := by
  rw [ModuleGraph.record, getElem?_eq_getElem hlt]
  exact ⟨_, rfl⟩

end Write

/-- What a run wrote to the records that it touched. Imports are stored when a module is left. -/
structure Written (base g : ModuleGraph) (touched : List ModuleId) (inside : ModuleId → Prop) :
    Prop where
  untouched : ∀ module ∉ touched, g.record module = base.record module
  entered : ∀ module ∈ touched, inside module → ∀ rec, base.record module = .ok rec →
    ∃ status, g.record module = .ok { rec with status := status }
  left : ∀ module ∈ touched, ¬ inside module → ∀ rec, base.record module = .ok rec →
    ∃ status resolutions, base.importResolutions rec.imports = .ok resolutions ∧
      g.record module = .ok
        { rec with
          status := status
          imports := storeResolutions rec.imports resolutions }

section Written

variable {base g : ModuleGraph} {touched : List ModuleId} {inside : ModuleId → Prop}

variable {mdl : ModuleId}

theorem Written.setStatus (h : Written base g touched inside) (hmod : mdl ∈ touched) (status :
    ModuleStatus) : Written base (g.setStatus mdl status) touched inside where
  untouched := by
    intro other ho
    have hne : other ≠ mdl := by
      rintro rfl
      exact ho hmod
    rw [ModuleGraph.setStatus, record_modifyRecord_of_ne hne]
    exact h.untouched other ho
  entered := by
    intro other ho hins rec hrec
    obtain ⟨pre, hb⟩ := h.entered other ho hins rec hrec
    rw [ModuleGraph.setStatus]
    by_cases hs : other = mdl
    · subst hs
      exact ⟨status, (record_modifyRecord_self hb).trans rfl⟩
    · rw [record_modifyRecord_of_ne hs]
      exact ⟨pre, hb⟩
  left := by
    intro other ho hins rec hrec
    obtain ⟨pre, resolutions, hres, hb⟩ := h.left other ho hins rec hrec
    rw [ModuleGraph.setStatus]
    by_cases hs : other = mdl
    · subst hs
      exact ⟨status, resolutions, hres, (record_modifyRecord_self hb).trans rfl⟩
    · rw [record_modifyRecord_of_ne hs]
      exact ⟨pre, resolutions, hres, hb⟩

variable {inside' : ModuleId → Prop}

theorem Written.enter (h : Written base g touched inside) (hmod : mdl ∉ touched) (status :
    ModuleStatus) (hins : ∀ other, inside' other ↔ other = mdl ∨ inside other) :
    Written base (g.setStatus mdl status) (mdl :: touched) inside' where
  untouched := by
    intro other ho
    rw [mem_cons, not_or] at ho
    rw [ModuleGraph.setStatus, record_modifyRecord_of_ne ho.1]
    exact h.untouched other ho.2
  entered := by
    intro other ho hins' rec hrec
    rw [ModuleGraph.setStatus]
    by_cases hs : other = mdl
    · subst hs
      rw [← h.untouched other hmod] at hrec
      exact ⟨status, (record_modifyRecord_self hrec).trans rfl⟩
    · rw [record_modifyRecord_of_ne hs]
      exact h.entered other ((mem_cons.mp ho).resolve_left hs)
        (((hins other).mp hins').resolve_left hs) rec hrec
  left := by
    intro other ho hins' rec hrec
    rw [hins, not_or] at hins'
    rw [ModuleGraph.setStatus, record_modifyRecord_of_ne hins'.1]
    exact h.left other ((mem_cons.mp ho).resolve_left hins'.1) hins'.2 rec hrec

theorem Written.leave (h : Written base g touched inside) {resolutions : List ResolvedBinding} (hmod
    : inside mdl) (hm : mdl ∈ touched) (hres : ∀ rec, base.record mdl = .ok rec →
    base.importResolutions rec.imports = .ok resolutions) (hins : ∀ other, inside' other ↔ other ≠
    mdl ∧ inside other) :
    Written base (g.modifyRecord mdl fun rec =>
        { rec with imports := storeResolutions rec.imports resolutions }) touched inside' where
  untouched := by
    intro other ho
    have hne : other ≠ mdl := by
      rintro rfl
      exact ho hm
    rw [record_modifyRecord_of_ne hne]
    exact h.untouched other ho
  entered := by
    intro other ho hins' rec hrec
    obtain ⟨hne, hold⟩ := (hins other).mp hins'
    rw [record_modifyRecord_of_ne hne]
    exact h.entered other ho hold rec hrec
  left := by
    intro other ho hins' rec hrec
    by_cases hs : other = mdl
    · subst hs
      obtain ⟨status, hb⟩ := h.entered other ho hmod rec hrec
      exact ⟨status, resolutions, hres rec hrec, (record_modifyRecord_self hb).trans rfl⟩
    · rw [record_modifyRecord_of_ne hs]
      refine h.left other ho (fun hold => hins' ((hins other).mpr ⟨hs, hold⟩)) rec hrec

end Written

end ModuleGraph

end TachyonEngine.Vm
