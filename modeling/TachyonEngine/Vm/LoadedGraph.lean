import TachyonEngine.Vm.LinkSteps

/-!
# The graphs of an engine

Whatever is inserted, linked and evaluated, the linked modules form components that keep what they
request among them, and every import of theirs is stored with the binding that it resolves to. A
module that is not linked has no import stored.
-/

namespace TachyonEngine.Vm

open Lib.Loop Lib.Components List

/-- The module that an export is taken from. -/
def ExportEntry.moduleRequest : ExportEntry → Option ModuleIdentity
  | .local _ _ => none
  | .indirect _ moduleRequest _ => some moduleRequest
  | .star moduleRequest => some moduleRequest

namespace ModuleGraph

/-! ## Validation -/

variable {init : ModuleRecordInit} {imports : List ImportEntry}

theorem validateImports_requests {seen : List ModuleBindingName}
    (h : validateImports init seen imports = .ok ()) :
    ∀ ent ∈ imports, ent.moduleRequest ∈ init.requestedModules := by
  induction imports generalizing seen with
  | nil => exact fun ent he => absurd he not_mem_nil
  | cons first rest ih =>
    rw [validateImports] at h
    split at h
    · cases h
    next hreq =>
      split_ifs at h
      intro ent he
      rcases mem_cons.mp he with rfl | he
      · exact not_not.mp hreq
      · exact ih h ent he

variable {exports : List ExportEntry}

theorem validateExports_requests {seen : List ModuleExportName} (h : validateExports init seen
    exports = .ok ()) :
    ∀ ent ∈ exports, ∀ req, ent.moduleRequest = some req → req ∈ init.requestedModules := by
  induction exports generalizing seen with
  | nil => exact fun ent he => absurd he not_mem_nil
  | cons first rest ih =>
    simp only [validateExports] at h
    split at h
    · cases h
    · split at h
      · cases h
      next hcheck =>
        intro ent he req hreq
        rcases mem_cons.mp he with rfl | he
        · cases ent with
          | «local» exportName localName => cases hreq
          | indirect exportName moduleRequest importName | star moduleRequest =>
            cases hreq
            by_contra hnot
            simp only [if_neg hnot] at hcheck
            cases hcheck
        · exact ih h ent he req hreq

/-- A record asks its imports and exports of modules that it requests. -/
structure RequestsListed (record : ModuleRecord) : Prop where
  imports : ∀ entry ∈ record.imports, entry.moduleRequest ∈ record.requestedModules
  exports : ∀ entry ∈ record.exports, ∀ request, entry.moduleRequest = some request →
    request ∈ record.requestedModules

variable {g : ModuleGraph}

theorem requestsListed_newRecord {id : ModuleId} (h : g.validateRecord init = .ok ()) :
    RequestsListed (newRecord init id) := by
  rw [validateRecord] at h
  split at h
  · cases h
  · split at h
    · cases h
    · split at h
      · cases h
      · split at h
        · cases h
        next hval =>
          exact ⟨validateImports_requests hval, validateExports_requests h⟩

/-! ## Resolution in a part of a graph -/

/-- Two graphs export the same from the modules of a part, which keeps what it takes exports
from. -/
structure Agrees (g post : ModuleGraph) (part : ModuleId → Prop) : Prop where
  record : ∀ module, part module →
    (∃ record record', g.record module = .ok record ∧ post.record module = .ok record' ∧
      record'.exports = record.exports) ∨
    ∃ error, g.record module = .error error ∧ post.record module = .error error
  request : ∀ module record, part module → g.record module = .ok record →
    ∀ entry ∈ record.exports, ∀ request, entry.moduleRequest = some request →
      post.moduleBySpecifier request = g.moduleBySpecifier request ∧
        ∀ target, g.moduleBySpecifier request = .ok target → part target

theorem mem_starRequests {req : ModuleIdentity} (h : req ∈ starRequests exports) :
    .star req ∈ exports := by
  obtain ⟨ent, he, hstar⟩ := mem_filterMap.mp h
  cases ent with
  | «local» exportName localName | indirect exportName moduleRequest importName => cases hstar
  | star moduleRequest =>
    cases hstar
    exact he

section Agrees

variable {g post : ModuleGraph} {part : ModuleId → Prop}

theorem resolveStars_agrees
    {resolve other : List (ModuleId × ModuleExportName) → ModuleId → Option Resolution}
    (hres : ∀ visits tgt, part tgt → other visits tgt = resolve visits tgt)
    {requests : List ModuleIdentity} (hrequests : ∀ req ∈ requests,
      post.moduleBySpecifier req = g.moduleBySpecifier req ∧
        ∀ tgt, g.moduleBySpecifier req = .ok tgt → part tgt)
    (visits : List (ModuleId × ModuleExportName)) (candidate : Option ResolvedBinding) :
    post.resolveStars other visits candidate requests =
      g.resolveStars resolve visits candidate requests := by
  induction requests generalizing visits candidate with
  | nil => rfl
  | cons req rest ih =>
    obtain ⟨hs, ht⟩ := hrequests req mem_cons_self
    have hrest := ih fun req hreq => hrequests req (mem_cons_of_mem _ hreq)
    rw [ModuleGraph.resolveStars, ModuleGraph.resolveStars, hs]
    cases hf : g.moduleBySpecifier req with
    | error err => rfl
    | ok tgt =>
      dsimp only
      rw [hres visits tgt (ht tgt hf)]
      simp only [hrest]

variable {mdl : ModuleId}

theorem Agrees.resolveRecursively (h : g.Agrees post part) (fuel : Nat) (visits : List (ModuleId ×
    ModuleExportName)) (hmod : part mdl) (name : ModuleExportName) :
    post.resolveRecursively fuel visits mdl name = g.resolveRecursively fuel visits mdl name := by
  induction fuel generalizing visits mdl name with
  | zero => rfl
  | succ fuel ih =>
    rw [ModuleGraph.resolveRecursively, ModuleGraph.resolveRecursively]
    rcases h.record mdl hmod with ⟨rec, rec', hrec, hrec', hexports⟩ | ⟨err, herr, herr'⟩
    · rw [hrec, hrec']
      dsimp only
      rw [hexports]
      have hstars : post.resolveStars
          (fun visits tgt => post.resolveRecursively fuel visits tgt name)
          (visits ++ [(mdl, name)]) none (starRequests rec.exports) =
        g.resolveStars (fun visits tgt => g.resolveRecursively fuel visits tgt name)
          (visits ++ [(mdl, name)]) none (starRequests rec.exports) := by
        refine resolveStars_agrees (fun visits tgt ht => ih visits ht name) ?_ _ _
        intro req hreq
        exact h.request mdl rec hmod hrec _ (mem_starRequests hreq) req rfl
      rw [hstars]
      cases hfind : findExport rec.exports name with
      | none => rfl
      | some ent =>
        have he := mem_of_find?_eq_some hfind
        cases ent with
        | «local» exportName localName | star moduleRequest => rfl
        | indirect exportName moduleRequest importName =>
          obtain ⟨hs, ht⟩ := h.request mdl rec hmod hrec _ he moduleRequest rfl
          dsimp only
          rw [hs]
          cases hf : g.moduleBySpecifier moduleRequest with
          | error err => rfl
          | ok tgt =>
            cases importName with
            | «namespace» => rfl
            | name importName =>
              dsimp only
              rw [ih _ (ht tgt hf)]
    · rw [herr, herr']

theorem Agrees.resolves (h : g.Agrees post part) (hmod : part mdl) {name : ModuleExportName}
    {resolution : Resolution} :
    Resolves post mdl name resolution ↔ Resolves g mdl name resolution := by
  refine exists_congr fun fuel => ?_
  rw [h.resolveRecursively fuel [] hmod]

/-- The binding of an import, by the recursive definition. -/
def ImportResolves (g : ModuleGraph) (entry : ImportEntry) (binding : ResolvedBinding) : Prop :=
  ∃ target, g.moduleBySpecifier entry.moduleRequest = .ok target ∧
    match entry.importName with
    | .namespace => binding = ⟨target, .namespace⟩
    | .name name => ∃ resolution, Resolves g target name resolution ∧
        resolution.result = .ok (.found binding)

theorem Agrees.importResolves (h : g.Agrees post part) {ent : ImportEntry}
    {binding : ResolvedBinding} (hreq : post.moduleBySpecifier ent.moduleRequest =
      g.moduleBySpecifier ent.moduleRequest)
    (ht : ∀ tgt, g.moduleBySpecifier ent.moduleRequest = .ok tgt → part tgt) :
    post.ImportResolves ent binding ↔ g.ImportResolves ent binding := by
  rw [ModuleGraph.ImportResolves, hreq]
  refine exists_congr fun tgt => and_congr_right fun hf => ?_
  cases ent.importName with
  | «namespace» => exact Iff.rfl
  | name name =>
    refine exists_congr fun resolution => and_congr_left fun _ => ?_
    exact h.resolves (ht tgt hf)

end Agrees

variable {post : ModuleGraph}

theorem Alike.agrees (h : g.Alike post) : g.Agrees post fun _ => True where
  record := by
    intro mdl _
    rcases h.record mdl with ⟨rec, rec', hrec, hrec', hs⟩ | ⟨hn, hn'⟩
    · exact .inl ⟨rec, rec', hrec, hrec', hs.exports⟩
    · exact .inr ⟨_, hn, hn'⟩
  request := by
    intro mdl rec _ _ ent _ req _
    exact ⟨h.moduleBySpecifier req, fun _ _ => trivial⟩

variable {ent : ImportEntry} {binding : ResolvedBinding}

theorem Alike.importResolves (h : g.Alike post) :
    post.ImportResolves ent binding ↔ g.ImportResolves ent binding :=
  h.agrees.importResolves (h.moduleBySpecifier _) fun _ _ => trivial

/-! ## Imports -/

/-- What the source resolves an import to is its binding. -/
theorem importResolves_of_resolveImport (hindexed : g.Indexed) (h : g.resolveImport ent = .ok
    binding) : g.ImportResolves ent binding := by
  rw [resolveImport] at h
  split at h
  · cases h
  next tgt ht =>
    refine ⟨tgt, ht, ?_⟩
    cases hname : ent.importName with
    | «namespace» =>
      rw [hname] at h
      cases h
      rfl
    | name name =>
      rw [hname] at h
      obtain ⟨resolution, hrs, -, -, hfits, hoverflow⟩ :=
        resolveExport_returns hindexed (hindexed.lt_of_moduleBySpecifier ht) name
      refine ⟨resolution, hrs, ?_⟩
      rw [resolveExportReturns_iff] at hfits
      dsimp only at h
      split at h
      · cases h
      next found hf =>
        cases h
        by_cases hroom : resolution.Fits g.maxExportWork 0
        · rw [← hfits.mpr hroom, hf]
        · obtain ⟨coll, hret⟩ := hoverflow hroom
          rw [resolveExportReturns_iff, hf] at hret
          cases hret
      · cases h
      · cases h

theorem mem_storeResolutions {resolutions : List ResolvedBinding} (h : g.importResolutions imports =
    .ok resolutions) :
    ∀ stored ∈ storeResolutions imports resolutions, ∃ ent ∈ imports, ∃ binding,
      stored = { ent with resolved := some binding } ∧ g.resolveImport ent = .ok binding := by
  induction imports generalizing resolutions with
  | nil =>
    exact fun stored hsto => absurd hsto not_mem_nil
  | cons ent rest ih =>
    rw [importResolutions] at h
    split at h
    · cases h
    next binding hbinding =>
      split at h
      · cases h
      next others hos =>
        cases h
        intro stored hsto
        rcases mem_cons.mp hsto with rfl | hsto
        · exact ⟨ent, mem_cons_self, binding, rfl, hbinding⟩
        · obtain ⟨other, ho, found⟩ := ih hos stored hsto
          exact ⟨other, mem_cons_of_mem _ ho, found⟩

theorem storeResolutions_erased (imports : List ImportEntry) (resolutions : List ResolvedBinding) :
    (storeResolutions imports resolutions).map (fun ent => { ent with resolved := none }) =
      imports.map fun ent => { ent with resolved := none } := by
  induction imports generalizing resolutions with
  | nil =>
    cases resolutions <;> rfl
  | cons ent rest ih =>
    cases resolutions with
    | nil => rfl
    | cons resolution resolutions =>
      rw [storeResolutions, map_cons, map_cons, ih]

theorem erased_of_unstored (h : ∀ ent ∈ imports, ent.resolved = none) :
    imports.map (fun ent => { ent with resolved := none }) = imports := by
  refine (map_congr_left fun ent he => ?_).trans (map_id imports)
  rw [← h ent he]
  rfl

/-! ## Rollback -/

end ModuleGraph

def ModuleRecord.rolledBack (record : ModuleRecord) : ModuleRecord :=
  match record.status with
  | .linking _ _ =>
    { record with
      status := .unlinked
      imports := record.imports.map fun entry => { entry with resolved := none } }
  | _ => record

theorem ModuleRecord.rolledBack_idem (rec : ModuleRecord) :
    rec.rolledBack.rolledBack = rec.rolledBack := by
  cases hstat : rec.status with
  | linking dfsIndex ancestorIndex =>
    have hreset : rec.rolledBack.status = .unlinked := by
      rw [rolledBack, hstat]
    rw [rolledBack.eq_def rec.rolledBack, hreset]
  | unlinked | linked cycleRoot =>
    have hs : rec.rolledBack = rec := by rw [rolledBack, hstat]
    rw [hs, hs]

theorem ModuleRecord.alike_rolledBack (rec : ModuleRecord) : rec.Alike rec.rolledBack := by
  rw [rolledBack]
  split
  · exact ⟨rfl, rfl, rfl, rfl⟩
  · exact .refl rec

namespace ModuleGraph

theorem rollbackLink_eq (g : ModuleGraph) (touched : List ModuleId) :
    rollbackLink g touched =
      touched.foldl (fun g mdl => g.modifyRecord mdl ModuleRecord.rolledBack) g := rfl

theorem alike_rollbackLink (g : ModuleGraph) (touched : List ModuleId) :
    g.Alike (rollbackLink g touched) := by
  induction touched generalizing g with
  | nil => exact .refl g
  | cons mdl rest ih =>
    exact (alike_modifyRecord mdl ModuleRecord.alike_rolledBack).trans (ih _)

variable {touched : List ModuleId}

variable {g : ModuleGraph} {mdl : ModuleId}

theorem record_rollbackLink {rec : ModuleRecord} (hrec : g.record mdl = .ok rec) :
    (rollbackLink g touched).record mdl = .ok (if mdl ∈ touched then rec.rolledBack else rec) := by
  rw [rollbackLink_eq]
  induction touched generalizing g rec with
  | nil => exact hrec
  | cons first rest ih =>
    rw [foldl_cons]
    by_cases hs : mdl = first
    · subst hs
      rw [ih (record_modifyRecord_self hrec), if_pos mem_cons_self]
      split
      · rw [ModuleRecord.rolledBack_idem]
      · rfl
    · rw [ih ((record_modifyRecord_of_ne hs).trans hrec)]
      simp only [mem_cons, hs, false_or]

theorem record_rollbackLink_error {err : ModuleError} (hrec : g.record mdl = .error err) :
    (rollbackLink g touched).record mdl = .error err := by
  rcases (alike_rollbackLink g touched).record mdl with
    ⟨rec, rec', hf, -⟩ | ⟨hn, hn'⟩
  · rw [hrec] at hf
    cases hf
  · rw [hn', ← hn, hrec]

/-- Nothing is taken back from records that are complete. -/
theorem rollbackLink_complete (hcomplete : ∀ mdl ∈ touched, ∀ rec, g.record mdl = .ok rec →
    rec.rolledBack = rec) : rollbackLink g touched = g := by
  rw [rollbackLink_eq]
  induction touched with
  | nil => rfl
  | cons first rest ih =>
    have hfirst : g.modifyRecord first ModuleRecord.rolledBack = g := by
      rw [modifyRecord]
      have hrecs : g.records.modify first.index ModuleRecord.rolledBack = g.records := by
        refine ext_getElem? fun idx => ?_
        rw [getElem?_modify]
        cases hget : g.records[idx]? with
        | none => rfl
        | some rec =>
          split_ifs with heq
          · subst heq
            have hrec : g.record first = .ok rec := by rw [ModuleGraph.record, hget]
            exact congrArg some (hcomplete first mem_cons_self rec hrec)
          · rfl
      rw [hrecs]
    rw [foldl_cons, hfirst]
    exact ih fun mdl hmod => hcomplete mdl (mem_cons_of_mem _ hmod)

end ModuleGraph

end TachyonEngine.Vm
