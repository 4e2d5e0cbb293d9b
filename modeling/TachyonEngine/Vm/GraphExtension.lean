import TachyonEngine.Vm.EvaluationStart

/-!
# Loading extends a graph

Insertion and linking change nothing that the evaluation of a module has written, and what a linked
module requests stays the same.
-/

namespace TachyonEngine.Vm

open Lib.Loop Lib.Scheduling
open Lib.Components (Path)

namespace ModuleGraph

/-! ## Linking writes records only -/

/-- Nothing but records was written. -/
def Rewritten (g post : ModuleGraph) : Prop := post = { g with records := post.records }

theorem Rewritten.refl (g : ModuleGraph) : g.Rewritten g := rfl

variable {g post : ModuleGraph}

theorem Rewritten.trans {middle : ModuleGraph} (h : g.Rewritten middle) (h' : middle.Rewritten post)
    : g.Rewritten post := by
  rw [Rewritten, h', h]

theorem rewritten_modifyRecord (g : ModuleGraph) (id : ModuleId)
    (change : ModuleRecord → ModuleRecord) :
    g.Rewritten (g.modifyRecord id change) := rfl

theorem rewritten_foldl (g : ModuleGraph) (modules : List ModuleId)
    (change : ModuleId → ModuleRecord → ModuleRecord) :
    g.Rewritten (modules.foldl (fun g mdl => g.modifyRecord mdl (change mdl)) g) := by
  induction modules generalizing g with
  | nil => exact .refl g
  | cons mdl modules ih => exact (rewritten_modifyRecord g mdl (change mdl)).trans (ih _)

/-- What a round of linking leaves. -/
def Leaves (g : ModuleGraph) : LinkStep → Prop
  | .running next => g.Rewritten next.graph
  | .finished result => g.Rewritten result.2

variable {run : LinkRun}

theorem leaves_failLink (h : g.Rewritten run.graph) (err : ModuleError) :
    g.Leaves (failLink run err) :=
  h.trans (rewritten_foldl run.graph run.touched _)

theorem leaves_completeComponent (h : g.Rewritten run.graph) (root : ModuleId) :
    g.Leaves (completeComponent run root) := by
  rw [completeComponent]
  split
  · exact leaves_failLink h _
  · have hcl := h.trans (rewritten_foldl run.graph (run.componentStack.takeWhile (· ≠ root)
      ++ [root])
      fun _ rec => { rec with status := .linked root })
    dsimp only
    split
    · exact leaves_failLink hcl _
    · exact hcl

variable {mdl : ModuleId}

theorem rewritten_resolveImports (h : g.resolveImports mdl = .ok post) : g.Rewritten post := by
  rw [resolveImports] at h
  split at h
  · cases h
  · split at h
    · cases h
    · cases h
      exact rewritten_modifyRecord _ _ _

theorem rewritten_lowerAncestor {ancestor : Nat} (h : g.lowerAncestor mdl ancestor = .ok post) :
    g.Rewritten post := by
  rw [lowerAncestor] at h
  split at h
  · cases h
  · split at h
    · cases h
      exact rewritten_modifyRecord _ _ _
    · cases h

theorem rewritten_enterModule {next : LinkRun} (h : enterModule run mdl = .ok next) :
    run.graph.Rewritten next.graph := by
  simp only [enterModule] at h
  split at h
  · cases h
  · split at h
    · cases h
    · split at h
      · cases h
      · split at h
        · cases h
        · split at h
          · cases h
          · split_ifs at h
            cases h
            exact rewritten_modifyRecord _ _ _

theorem leaves_leaveModule (run : LinkRun) (mdl : ModuleId) (below : List LinkFrame) :
    run.graph.Leaves (leaveModule run mdl below) := by
  rw [leaveModule]
  split
  · exact leaves_failLink (.refl _) _
  next g hg =>
    have hsto := rewritten_resolveImports hg
    split
    · exact leaves_failLink hsto _
    · split
      · split
        · exact leaves_completeComponent hsto mdl
        · exact hsto
      · exact leaves_failLink hsto _

theorem leaves_followRequest (run : LinkRun) (frame : LinkFrame) (below : List LinkFrame) :
    run.graph.Leaves (followRequest run frame below) := by
  rw [followRequest]
  split
  · exact leaves_failLink (.refl _) _
  · dsimp only
    split
    · exact leaves_failLink (.refl _) _
    · split
      · split
        · exact leaves_failLink (.refl _) _
        next next hn =>
          have hentered := rewritten_enterModule hn
          exact hentered
      · split
        · exact leaves_failLink (.refl _) _
        next g hg =>
          exact rewritten_lowerAncestor hg
      · exact .refl _

theorem leaves_settleChild (run : LinkRun) (frame : LinkFrame) (below : List LinkFrame)
    (child : ModuleId) :
    run.graph.Leaves (settleChild run frame below child) := by
  rw [settleChild]
  split
  · exact leaves_failLink (.refl _) _
  · split
    · split
      · exact leaves_failLink (.refl _) _
      next g hg =>
        exact rewritten_lowerAncestor hg
    · exact .refl _

theorem leaves_linkStep (run : LinkRun) : run.graph.Leaves (linkStep run) := by
  rw [linkStep]
  split
  · exact .refl _
  · split
    · exact leaves_settleChild _ _ _ _
    · split
      · exact leaves_failLink (.refl _) _
      · split
        · exact leaves_followRequest _ _ _
        · exact leaves_leaveModule _ _ _

theorem rewritten_of_returns {res : Except ModuleError LinkReport × ModuleGraph} (h : Returns
    linkStep run res) : run.graph.Rewritten res.2 := by
  induction h with
  | @done run res hstep =>
    have hleaves := leaves_linkStep run
    rwa [hstep] at hleaves
  | @round run next res hstep _ ih =>
    have hleaves := leaves_linkStep run
    rw [hstep] at hleaves
    exact hleaves.trans ih

theorem Links.rewritten {root : ModuleId} {res : Except ModuleError LinkReport} (h : Links g root
    (res, post)) : g.Rewritten post := by
  rw [Links] at h
  split at h
  · cases h
    exact .refl g
  · split at h
    · cases h
      exact .refl g
    · cases h
      exact .refl g
    · split at h
      · cases h
        exact .refl g
      next run hrun =>
        exact (rewritten_enterModule hrun).trans (rewritten_of_returns h)

/-! ## Insertion writes the records and two counts -/

theorem insert_fields {init : ModuleRecordInit} {id : ModuleId} (h : g.insertWithBody init = .ok
    (id, post)) : post.readyAsyncModules = g.readyAsyncModules ∧
      post.nextAsyncEvaluationOrder = g.nextAsyncEvaluationOrder ∧
      post.nextStartEpoch = g.nextStartEpoch ∧
      post.records.length ≤ post.limits.maxModules.toNat := by
  rw [insertWithBody] at h
  split at h
  · cases h
  · dsimp only at h
    split at h
    · cases h
    next hroom =>
      split at h
      · cases h
      · split at h
        · cases h
        · split at h
          · cases h
          · cases h
            refine ⟨rfl, rfl, rfl, ?_⟩
            rw [List.length_append]
            exact Nat.lt_of_not_le hroom

/-! ## Extension -/

/-- What the evaluation of a module has written is the same. -/
structure SameEvaluation (record post : ModuleRecord) : Prop where
  evaluation : post.evaluation = record.evaluation
  asyncParents : post.asyncParents = record.asyncParents
  pendingAsyncDependencies : post.pendingAsyncDependencies = record.pendingAsyncDependencies
  asyncEvaluationOrder : post.asyncEvaluationOrder = record.asyncEvaluationOrder
  evaluationTraversalMark : post.evaluationTraversalMark = record.evaluationTraversalMark

theorem SameEvaluation.refl (rec : ModuleRecord) : SameEvaluation rec rec :=
  ⟨rfl, rfl, rfl, rfl, rfl⟩

/-- A record is as before, or it was not there. -/
structure Extends (g post : ModuleGraph) : Prop where
  record : ∀ module, (∃ record record', g.record module = .ok record ∧
      post.record module = .ok record' ∧ SameEvaluation record record') ∨
    (∃ error, g.record module = .error error) ∧
      ∀ record', post.record module = .ok record' → ∃ init, record' = newRecord init module
  linked : ∀ module cycleRoot, g.CycleRoot module cycleRoot →
    post.CycleRoot module cycleRoot ∧ post.requested module = g.requested module
  ready : post.readyAsyncModules = g.readyAsyncModules
  next : post.nextAsyncEvaluationOrder = g.nextAsyncEvaluationOrder
  epoch : post.nextStartEpoch = g.nextStartEpoch
  small : g.records.length ≤ g.limits.maxModules.toNat →
    post.records.length ≤ post.limits.maxModules.toNat

section Extension

variable {g post : ModuleGraph}

theorem Extends.refl (g : ModuleGraph) : g.Extends g where
  record := by
    intro mdl
    cases hrec : g.record mdl with
    | ok rec => exact .inl ⟨rec, rec, rfl, rfl, .refl rec⟩
    | error err =>
      refine .inr ⟨⟨err, rfl⟩, fun rec' hrec' => ?_⟩
      cases hrec'
  linked := fun _ _ hcycle => ⟨hcycle, rfl⟩
  ready := rfl
  next := rfl
  epoch := rfl
  small := id

/-- An inserted module is the only new one. -/
theorem Linkable.extends_insert {init : ModuleRecordInit} {id : ModuleId} (h : Linkable g)
    (hinsert : g.insertWithBody init = .ok (id, post)) : g.Extends post where
  record := by
    intro mdl
    rw [record_insert hinsert]
    by_cases heq : mdl = id
    · subst heq
      refine .inr ⟨⟨_, record_insert_error hinsert⟩, fun rec' hrec' => ⟨init, ?_⟩⟩
      rw [if_pos rfl] at hrec'
      cases hrec'
      rfl
    · rw [if_neg heq]
      exact (Extends.refl g).record mdl
  linked := by
    intro mdl cycleRoot hcycle
    refine ⟨cycleRoot_iff_mark.mpr ((mark_insert hinsert).symm ▸ cycleRoot_iff_mark.mp hcycle), ?_⟩
    obtain ⟨rec, hrec, hstat⟩ := hcycle
    have hne : mdl ≠ id := by
      rintro rfl
      rw [record_insert_error hinsert] at hrec
      cases hrec
    rw [requested, requested, record_insert hinsert, if_neg hne, hrec]
    refine List.filterMap_congr fun req hreq => ?_
    exact findSpecifier_insert hinsert (h.present mdl rec cycleRoot hrec hstat req hreq)
  ready := (insert_fields hinsert).1
  next := (insert_fields hinsert).2.1
  epoch := (insert_fields hinsert).2.2.1
  small := fun _ => (insert_fields hinsert).2.2.2

/-- Linking writes how modules are linked. -/
theorem Linkable.extends_link {root : ModuleId} {res : Except ModuleError LinkReport}
    (h : Linkable g) (hlinks : Links g root (res, post)) : g.Extends post := by
  have hrewritten := Links.rewritten hlinks
  rcases h.link_cases hlinks with rfl | ⟨run, hrun, ha⟩
  · exact .refl post
  · have halike := hrun.alike.trans (alike_rollbackLink run.graph run.touched)
    rw [← ha] at halike
    refine ⟨fun mdl => ?_, fun mdl cycleRoot hcycle => ?_, ?_, ?_, ?_, ?_⟩
    · have hrecordAfter := hrun.record_after h mdl
      rw [← ha] at hrecordAfter
      rcases hrecordAfter with ⟨-, hs⟩ | ⟨cycleRoot, pre, resolutions, -, -, hb, -, -, -, hsto⟩
      · rw [hs]
        exact (Extends.refl g).record mdl
      · exact .inl ⟨pre, _, hb, hsto, ⟨rfl, rfl, rfl, rfl, rfl⟩⟩
    · refine ⟨?_, by rw [halike.requested]⟩
      have hrecordAfter := hrun.record_after h mdl
      rw [← ha] at hrecordAfter
      obtain ⟨pre, hb, hlk⟩ := hcycle
      rcases hrecordAfter with ⟨-, hs⟩ | ⟨-, other, -, -, -, ho, hunlinked, -⟩
      · exact ⟨pre, hs.trans hb, hlk⟩
      · rw [hb] at ho
        cases ho
        rw [hlk] at hunlinked
        cases hunlinked
    · rw [hrewritten]
    · rw [hrewritten]
    · rw [hrewritten]
    · intro hsm
      rw [halike.length, show post.limits = g.limits by rw [hrewritten]]
      exact hsm

theorem Extends.field_eq (h : g.Extends post) {α : Type} (field : ModuleRecord → α) (default : α)
    (hs : ∀ rec rec', SameEvaluation rec rec' → field rec' = field rec)
    (hnew : ∀ init mdl, field (newRecord init mdl) = default) (mdl : ModuleId) :
    (match post.record mdl with
      | .ok rec => field rec
      | .error _ => default) =
      match g.record mdl with
      | .ok rec => field rec
      | .error _ => default := by
  rcases h.record mdl with ⟨rec, rec', hrec, hrec', heq⟩ | ⟨⟨err, hrec⟩, hrecs⟩
  · rw [hrec, hrec']
    exact hs rec rec' heq
  · rw [hrec]
    cases hrec' : post.record mdl with
    | error err => rfl
    | ok rec' =>
      obtain ⟨init, rfl⟩ := hrecs rec' hrec'
      exact hnew init mdl

/-- What was loaded does not show in the schedule. -/
theorem Extends.schedule (h : g.Extends post) : post.schedule = g.schedule := by
  rw [Schedule.mk.injEq]
  refine ⟨funext ?_, funext ?_, funext ?_, funext ?_, h.ready, h.next⟩
  · exact h.field_eq (fun rec => rec.evaluation.stage) .fresh
      (fun rec rec' heq => congrArg _ heq.evaluation) fun _ _ => rfl
  · exact h.field_eq ModuleRecord.asyncEvaluationOrder none
      (fun rec rec' heq => heq.asyncEvaluationOrder)
      fun _ _ => rfl
  · exact h.field_eq ModuleRecord.asyncParents []
      (fun rec rec' heq => heq.asyncParents) fun _ _ => rfl
  · exact h.field_eq ModuleRecord.pendingAsyncDependencies 0
      (fun rec rec' heq => heq.pendingAsyncDependencies) fun _ _ => rfl

theorem Extends.epochs (h : g.Extends post) (hepochs : g.Epochs) : post.Epochs where
  divides := by
    rw [h.epoch]
    exact hepochs.divides
  positive := by
    rw [h.epoch]
    exact hepochs.positive
  below := by
    intro mdl rec' hrec'
    rw [h.epoch]
    rcases h.record mdl with ⟨rec, rec'', hrec, hrec'', heq⟩ | ⟨-, hrecs⟩
    · rw [hrec'] at hrec''
      cases hrec''
      rw [heq.evaluationTraversalMark]
      exact hepochs.below mdl rec hrec
    · obtain ⟨init, rfl⟩ := hrecs rec' hrec'
      exact hepochs.positive

/-- What a linked module leads to is the same. -/
theorem Extends.leads_iff (h : g.Extends post) (hg : Linkable g) {mdl other : ModuleId}
    (hmod : g.IsLinked mdl) : post.Leads mdl other ↔ g.Leads mdl other := by
  have hrequested : ∀ {mdl : ModuleId}, g.IsLinked mdl → post.requested mdl = g.requested mdl := by
    rintro mdl ⟨cycleRoot, hmark⟩
    exact (h.linked mdl cycleRoot (cycleRoot_iff_mark.mpr hmark)).2
  constructor
  · intro hpath
    induction hpath with
    | refl => exact .refl
    | tail _ hedge ih =>
      rw [hrequested (hg.rooted.part_of_path hmod ih)] at hedge
      exact ih.tail hedge
  · intro hpath
    induction hpath with
    | refl => exact .refl
    | tail hpath hedge ih =>
      rw [← hrequested (hg.rooted.part_of_path hmod hpath)] at hedge
      exact ih.tail hedge

end Extension

end ModuleGraph

end TachyonEngine.Vm
