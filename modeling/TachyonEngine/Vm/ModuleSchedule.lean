import TachyonEngine.Lib.Registration
import TachyonEngine.Vm.EvaluationSession
import TachyonEngine.Vm.LinkRun

/-!
# An evaluation follows a schedule

The records of the modules are read as a schedule: what the source does to them when it queues,
registers, completes or rejects a module is what the schedule does. None of it changes how the
modules are linked.
-/

namespace TachyonEngine.Vm

open ModuleEvaluationState List Function

open Lib.Loop Lib.Components Lib.Scheduling

def ModuleEvaluationState.stage : ModuleEvaluationState → Stage Value
  | .unevaluated => .fresh
  | .waiting => .waiting
  | .evaluating => .started
  | .asyncEvaluating _ => .started
  | .evaluated value => .done value
  | .errored err => .failed err

variable {evaluation : ModuleEvaluationState}

theorem ModuleEvaluationState.stage_eq_fresh :
    evaluation.stage = .fresh ↔ evaluation = .unevaluated := by
  cases evaluation <;> simp [stage]

theorem ModuleEvaluationState.stage_eq_waiting :
    evaluation.stage = .waiting ↔ evaluation = .waiting := by
  cases evaluation <;> simp [stage]

theorem ModuleEvaluationState.stage_eq_done {val : Value} :
    evaluation.stage = .done val ↔ evaluation = .evaluated val := by
  cases evaluation <;> simp [stage]

theorem ModuleEvaluationState.stage_eq_failed {err : Value} :
    evaluation.stage = .failed err ↔ evaluation = .errored err := by
  cases evaluation <;> simp [stage]

namespace ModuleGraph

def schedule (g : ModuleGraph) : Schedule ModuleId Value where
  stage module :=
    match g.record module with
    | .ok rec => rec.evaluation.stage
    | .error _ => .fresh
  order module :=
    match g.record module with
    | .ok rec => rec.asyncEvaluationOrder
    | .error _ => none
  parents module :=
    match g.record module with
    | .ok rec => rec.asyncParents
    | .error _ => []
  pending module :=
    match g.record module with
    | .ok rec => rec.pendingAsyncDependencies
    | .error _ => 0
  ready := g.readyAsyncModules
  next := g.nextAsyncEvaluationOrder

/-- What every step of an evaluation keeps, apart from its walk. -/
structure KeepsMarks (g post : ModuleGraph) : Prop where
  links : g.KeepsLinks post
  limits : post.limits = g.limits
  epoch : post.nextStartEpoch = g.nextStartEpoch
  record : ∀ mdl record record', g.record mdl = .ok record → post.record mdl = .ok record' →
    record'.evaluationTraversalMark = record.evaluationTraversalMark ∧
      record'.hasTopLevelAwait = record.hasTopLevelAwait

/-- None of the modules starts to run, and those that do keep their state. -/
structure KeepsRunning (g post : ModuleGraph) : Prop extends KeepsMarks g post where
  running : ∀ mdl rec rec', g.record mdl = .ok rec → post.record mdl = .ok rec' →
    rec'.evaluation = rec.evaluation ∨ rec'.evaluation.stage ≠ .started

section Record

variable {g : ModuleGraph} {mdl : ModuleId} {rec : ModuleRecord}
  {change : ModuleRecord → ModuleRecord} (hrec : g.record mdl = .ok rec)

include hrec

theorem stage_eq : g.schedule.stage mdl = rec.evaluation.stage := by
  rw [schedule]
  dsimp only
  rw [hrec]

theorem order_eq : g.schedule.order mdl = rec.asyncEvaluationOrder := by
  rw [schedule]
  dsimp only
  rw [hrec]

theorem parents_eq : g.schedule.parents mdl = rec.asyncParents := by
  rw [schedule]
  dsimp only
  rw [hrec]

theorem pending_eq : g.schedule.pending mdl = rec.pendingAsyncDependencies := by
  rw [schedule]
  dsimp only
  rw [hrec]

variable (change) in
/-- A change of one record is seen there only. -/
theorem schedule_modifyRecord : (g.modifyRecord mdl change).schedule =
    { g.schedule with
      stage := Function.update g.schedule.stage mdl (change rec).evaluation.stage
      order := Function.update g.schedule.order mdl (change rec).asyncEvaluationOrder
      parents := Function.update g.schedule.parents mdl (change rec).asyncParents
      pending := Function.update g.schedule.pending mdl
        (change rec).pendingAsyncDependencies } := by
  have hself : (g.modifyRecord mdl change).record mdl = .ok (change rec) :=
    record_modifyRecord_self hrec
  have ho : ∀ {other : ModuleId}, other ≠ mdl →
      (g.modifyRecord mdl change).record other = g.record other := record_modifyRecord_of_ne
  rw [schedule, Schedule.mk.injEq]
  refine ⟨?_, ?_, ?_, ?_, rfl, rfl⟩
  all_goals
    funext other
    by_cases heq : other = mdl
    · subst heq
      rw [update_self, hself]
    · rw [update_of_ne heq, ho heq, schedule]

end Record

/-! ## What evaluation keeps -/

theorem KeepsMarks.refl (g : ModuleGraph) : g.KeepsMarks g where
  links := .refl g
  limits := rfl
  epoch := rfl
  record := by
    intro mdl rec rec' hrec hrec'
    rw [hrec] at hrec'
    cases hrec'
    exact ⟨rfl, rfl⟩

variable {post : ModuleGraph}

theorem KeepsMarks.trans {g middle : ModuleGraph} (h : g.KeepsMarks middle)
    (h' : middle.KeepsMarks post) : g.KeepsMarks post where
  links := h.links.trans h'.links
  limits := h'.limits.trans h.limits
  epoch := h'.epoch.trans h.epoch
  record := by
    intro mdl rec rec'' hrec hrec''
    obtain ⟨rec', hrec', -⟩ := h'.links.record hrec''
    obtain ⟨hmark, hawait⟩ := h.record mdl rec rec' hrec hrec'
    obtain ⟨hmark', hawait'⟩ := h'.record mdl rec' rec'' hrec' hrec''
    exact ⟨hmark'.trans hmark, hawait'.trans hawait⟩

section

variable (g : ModuleGraph)

/-- A change of what evaluation writes to one record. -/
theorem keepsMarks_modifyRecord (id : ModuleId) (change : ModuleRecord → ModuleRecord)
    (hch : ∀ rec, ModuleRecord.SameLink rec (change rec))
    (hmark : ∀ rec, (change rec).evaluationTraversalMark = rec.evaluationTraversalMark ∧
      (change rec).hasTopLevelAwait = rec.hasTopLevelAwait) :
    g.KeepsMarks (g.modifyRecord id change) where
  links := keepsLinks_modifyRecord id hch
  limits := rfl
  epoch := rfl
  record := by
    intro mdl rec rec' hrec hrec'
    by_cases heq : mdl = id
    · subst heq
      rw [record_modifyRecord_self hrec] at hrec'
      cases hrec'
      exact hmark rec
    · rw [record_modifyRecord_of_ne heq, hrec] at hrec'
      cases hrec'
      exact ⟨rfl, rfl⟩

/-- The queue and the counter of the orders are no part of the records. -/
theorem keepsMarks_counters (ready : List ModuleId) (next : Nat) :
    g.KeepsMarks
      { g with
        readyAsyncModules := ready
        nextAsyncEvaluationOrder := next } where
  links :=
    { alike := ⟨rfl, fun _ rec hrec => ⟨rec, hrec, .refl rec⟩, rfl⟩
      records := by
        intro idx rec rec' hrec hrec'
        rw [hrec] at hrec'
        cases hrec'
        exact ⟨rfl, rfl, rfl, rfl, rfl, rfl⟩ }
  limits := rfl
  epoch := rfl
  record := by
    intro mdl rec rec' hrec hrec'
    rw [show g.record mdl = .ok rec' from hrec'] at hrec
    cases hrec
    exact ⟨rfl, rfl⟩

theorem KeepsMarks.exists_record {g : ModuleGraph} (h : g.KeepsMarks post) {mdl : ModuleId}
    {rec : ModuleRecord} (hrec : g.record mdl = .ok rec) : ∃ rec', post.record mdl = .ok rec' := by
  rcases h.links.alike.record mdl with ⟨-, rec', -, hrec', -⟩ | ⟨hn, -⟩
  · exact ⟨rec', hrec'⟩
  · rw [hrec] at hn
    cases hn

theorem KeepsRunning.refl : g.KeepsRunning g where
  toKeepsMarks := .refl g
  running := by
    intro mdl rec rec' hrec hrec'
    rw [hrec] at hrec'
    cases hrec'
    exact .inl rfl

theorem KeepsRunning.trans {g middle : ModuleGraph} (h : g.KeepsRunning middle)
    (h' : middle.KeepsRunning post) : g.KeepsRunning post where
  toKeepsMarks := h.toKeepsMarks.trans h'.toKeepsMarks
  running := by
    intro mdl rec rec'' hrec hrec''
    obtain ⟨rec', hrec', -⟩ := h'.links.record hrec''
    rcases h'.running mdl rec' rec'' hrec' hrec'' with hs | hended
    · rw [hs]
      exact h.running mdl rec rec' hrec hrec'
    · exact .inr hended

theorem keepsRunning_modifyRecord (id : ModuleId) (change : ModuleRecord → ModuleRecord)
    (hch : ∀ rec, ModuleRecord.SameLink rec (change rec))
    (hmark : ∀ rec, (change rec).evaluationTraversalMark = rec.evaluationTraversalMark ∧
      (change rec).hasTopLevelAwait = rec.hasTopLevelAwait)
    (hrunning : ∀ rec, (change rec).evaluation = rec.evaluation ∨
      (change rec).evaluation.stage ≠ .started) : g.KeepsRunning (g.modifyRecord id change) where
  toKeepsMarks := keepsMarks_modifyRecord g id change hch hmark
  running := by
    intro mdl rec rec' hrec hrec'
    by_cases heq : mdl = id
    · subst heq
      rw [record_modifyRecord_self hrec] at hrec'
      cases hrec'
      exact hrunning rec
    · rw [record_modifyRecord_of_ne heq, hrec] at hrec'
      cases hrec'
      exact .inl rfl

theorem keepsRunning_counters (ready : List ModuleId) (next : Nat) :
    g.KeepsRunning
      { g with
        readyAsyncModules := ready
        nextAsyncEvaluationOrder := next } where
  toKeepsMarks := keepsMarks_counters g ready next
  running := by
    intro mdl rec rec' hrec hrec'
    rw [show g.record mdl = .ok rec' from hrec'] at hrec
    cases hrec
    exact .inl rfl

end

/-! ## Completion -/

section Completion

variable {g : ModuleGraph} {mdl : ModuleId}

variable {rec : ModuleRecord}

theorem takeParents_eq (hrec : g.record mdl = .ok rec) {evaluation : ModuleEvaluationState} (hended
    : evaluation.stage ≠ .started) :
    ∃ post, g.takeParents mdl evaluation = .ok (rec.asyncParents, post) ∧ g.KeepsRunning post ∧
      post.schedule =
        { g.schedule with
          stage := Function.update g.schedule.stage mdl evaluation.stage
          parents := Function.update g.schedule.parents mdl [] } := by
  refine ⟨_, ?_, keepsRunning_modifyRecord g mdl (fun rec =>
    { rec with asyncParents := [], evaluation := evaluation }) (fun rec => ⟨rfl, rfl, rfl, rfl,
      rfl, rfl⟩)
    (fun rec => ⟨rfl, rfl⟩) (fun rec => .inr hended), ?_⟩
  · rw [takeParents, hrec]
  · rw [schedule_modifyRecord _ hrec, ← order_eq hrec, ← pending_eq hrec]
    rw [update_eq_self, update_eq_self]

theorem releaseParent_eq (hrec : g.record mdl = .ok rec) :
    ∃ post, g.releaseParent mdl = .ok post ∧ g.KeepsRunning post ∧ post.schedule =
        { g.schedule with
          pending := Function.update g.schedule.pending mdl
            (if (g.schedule.stage mdl).isWaiting then g.schedule.pending mdl - 1
            else g.schedule.pending mdl)
          ready := g.schedule.ready ++
            if (g.schedule.stage mdl).isWaiting && decide (g.schedule.pending mdl = 1) then
              [mdl]
            else [] } := by
  have hwait : rec.evaluation = .waiting ↔ (g.schedule.stage mdl).isWaiting = true := by
    rw [Stage.isWaiting_iff, stage_eq hrec]
    exact stage_eq_waiting.symm
  have hpend := pending_eq hrec
  rw [releaseParent, hrec]
  dsimp only
  by_cases hskip : rec.evaluation ≠ .waiting ∨ rec.pendingAsyncDependencies = 0
  · refine ⟨g, if_pos hskip, .refl g, ?_⟩
    have hv : (if (g.schedule.stage mdl).isWaiting then g.schedule.pending mdl - 1
        else g.schedule.pending mdl) = g.schedule.pending mdl := by
      split_ifs with hin
      · have hz := hskip.resolve_left fun hne => hne (hwait.mpr hin)
        rw [hpend, hz]
      · rfl
    have hready : ((g.schedule.stage mdl).isWaiting &&
        decide (g.schedule.pending mdl = 1)) = false := by
      rw [hpend, Bool.and_eq_false_iff]
      rcases hskip with hne | hz
      · exact .inl (Bool.eq_false_iff.mpr fun hin => hne (hwait.mpr hin))
      · rw [hz]
        exact .inr rfl
    rw [hv, hready, update_eq_self]
    simp only [Bool.false_eq_true, if_false, append_nil]
  · rw [if_neg hskip]
    obtain ⟨hin, hpos⟩ := not_or.mp hskip
    have hin := hwait.mp (not_not.mp hin)
    have hsched := schedule_modifyRecord (fun rec =>
      { rec with pendingAsyncDependencies := rec.pendingAsyncDependencies - 1 }) hrec
    have hkeeps := keepsRunning_modifyRecord g mdl (fun rec =>
      { rec with pendingAsyncDependencies := rec.pendingAsyncDependencies - 1 })
      (fun rec => ⟨rfl, rfl, rfl, rfl, rfl, rfl⟩) (fun rec => ⟨rfl, rfl⟩) (fun rec => .inl rfl)
    rw [← stage_eq hrec, ← order_eq hrec, ← parents_eq hrec, ← hpend,
      update_eq_self, update_eq_self, update_eq_self] at hsched
    rw [hin, if_pos rfl, Bool.true_and]
    by_cases hone : rec.pendingAsyncDependencies = 1
    · refine ⟨_, if_pos hone, hkeeps.trans (keepsRunning_counters _ _ _), ?_⟩
      have hdecide : decide (g.schedule.pending mdl = 1) = true := decide_eq_true (hpend.trans hone)
      rw [hdecide]
      exact congrArg (fun sched : Schedule ModuleId Value =>
        { sched with ready := g.readyAsyncModules ++ [mdl] }) hsched
    · refine ⟨_, if_neg hone, hkeeps, ?_⟩
      have hdecide : decide (g.schedule.pending mdl = 1) = false :=
        decide_eq_false fun heq => hone (hpend.symm.trans heq)
      rw [hsched, hdecide]
      simp only [Bool.false_eq_true, if_false, append_nil]

/-- Parents that are told, each of them once. -/
theorem releaseParents_eq {parents : List ModuleId} (hnodup : parents.Nodup)
    (hrecs : ∀ parent ∈ parents, ∃ rec, g.record parent = .ok rec) :
    ∃ post, g.releaseParents parents = .ok post ∧ g.KeepsRunning post ∧ post.schedule =
        { g.schedule with
          pending := fun parent =>
            if parent ∈ parents ∧ (g.schedule.stage parent).isWaiting then
              g.schedule.pending parent - 1
            else g.schedule.pending parent
          ready := g.schedule.ready ++
            parents.filter fun parent => (g.schedule.stage parent).isWaiting &&
              decide (g.schedule.pending parent = 1) } := by
  induction parents generalizing g with
  | nil =>
    refine ⟨g, rfl, .refl g, ?_⟩
    simp only [not_mem_nil, false_and, if_false, filter_nil, append_nil]
  | cons parent parents ih =>
    obtain ⟨hfr, hnodup⟩ := nodup_cons.mp hnodup
    obtain ⟨rec, hrec⟩ := hrecs parent mem_cons_self
    obtain ⟨middle, hmid, hkeeps, hsched⟩ := releaseParent_eq hrec
    obtain ⟨post, ha, hkeeps', hsched'⟩ := @ih middle hnodup fun other ho => by
      obtain ⟨rec', hrec'⟩ := hrecs other (mem_cons_of_mem _ ho)
      exact hkeeps.exists_record hrec'
    refine ⟨post, ?_, hkeeps.trans hkeeps', ?_⟩
    · rw [releaseParents, hmid]
      exact ha
    · rw [hsched', hsched, Schedule.mk.injEq]
      refine ⟨rfl, rfl, rfl, ?_, ?_, rfl⟩
      · -- the first parent is not among the others
        funext other
        dsimp only
        by_cases heq : other = parent
        · subst heq
          rw [update_self, if_neg fun h => hfr h.1]
          simp only [mem_cons_self, true_and]
        · rw [update_of_ne heq]
          simp only [mem_cons, heq, false_or]
      · rw [append_assoc, filter_cons]
        have hos : (parents.filter fun other => (g.schedule.stage other).isWaiting &&
            decide (update g.schedule.pending parent
              (if (g.schedule.stage parent).isWaiting then g.schedule.pending parent - 1
              else g.schedule.pending parent) other = 1)) =
            parents.filter fun other => (g.schedule.stage other).isWaiting &&
              decide (g.schedule.pending other = 1) := by
          refine filter_congr fun other ho => ?_
          have hne : other ≠ parent := by
            rintro rfl
            exact hfr ho
          rw [update_of_ne hne]
        rw [hos]
        split
        · rw [singleton_append]
        · rw [nil_append]

/-- Completion fulfils the module in the schedule. -/
theorem completeEvaluation_fulfil (hrec : g.record mdl = .ok rec) (hself : mdl ∉ rec.asyncParents)
    (hnodup : rec.asyncParents.Nodup) (hrecs : ∀ parent ∈ rec.asyncParents, ∃ other, g.record parent
    = .ok other) (val : Value) :
    ∃ post, g.completeEvaluation mdl (.ok val) = .ok post ∧ g.KeepsRunning post ∧
      post.schedule = g.schedule.fulfil mdl val := by
  obtain ⟨middle, hmid, hkeeps, hsched⟩ := takeParents_eq hrec
    (fun h => (nomatch h) : (evaluated val).stage ≠ .started)
  obtain ⟨post, ha, hkeeps', hsched'⟩ := @releaseParents_eq middle _ hnodup
    fun parent hp => by
      obtain ⟨other, ho⟩ := hrecs parent hp
      exact hkeeps.exists_record ho
  refine ⟨post, ?_, hkeeps.trans hkeeps', ?_⟩
  · rw [completeEvaluation, hmid]
    exact ha
  · have hsg : ∀ parent ∈ rec.asyncParents, update g.schedule.stage mdl
        (evaluated val).stage parent = g.schedule.stage parent := by
      intro parent hp
      refine update_of_ne ?_ _ _
      rintro rfl
      exact hself hp
    rw [hsched', hsched, Schedule.fulfil, Schedule.mk.injEq, parents_eq hrec]
    refine ⟨rfl, rfl, rfl, ?_, ?_, rfl⟩
    · funext parent
      by_cases hp : parent ∈ rec.asyncParents
      · simp only [hsg parent hp]
      · rw [if_neg fun h => hp h.1, if_neg fun h => hp h.1]
    · refine congrArg (g.schedule.ready ++ ·) (filter_congr fun parent hp => ?_)
      dsimp only
      rw [hsg parent hp]

end Completion

/-! ## Rejection -/

section Rejection

variable {g : ModuleGraph} {mdl : ModuleId}

theorem exists_record_of_order (hord : g.schedule.order mdl ≠ none) :
    ∃ rec, g.record mdl = .ok rec := by
  cases hrec : g.record mdl with
  | ok rec => exact ⟨rec, rfl⟩
  | error err =>
    rw [schedule] at hord
    dsimp only at hord
    rw [hrec] at hord
    exact absurd rfl hord

variable {rec : ModuleRecord}

theorem isFailed_iff (hrec : g.record mdl = .ok rec) :
    (g.schedule.stage mdl).IsFailed ↔ ∃ err, rec.evaluation = .errored err := by
  rw [stage_eq hrec]
  exact exists_congr fun _ => ModuleEvaluationState.stage_eq_failed

/-- The parents that have not failed are on the worklist afterwards. -/
theorem pushParents_eq {parents worklist : List ModuleId}
    (hrecs : ∀ parent ∈ parents, ∃ rec, g.record parent = .ok rec) :
    ∃ later, g.pushParents parents worklist = .ok later ∧ ∀ other, other ∈ later ↔
      other ∈ worklist ∨ other ∈ parents ∧ ¬ (g.schedule.stage other).IsFailed := by
  induction parents generalizing worklist with
  | nil => exact ⟨worklist, rfl, fun other => (or_iff_left fun h => nomatch h.1).symm⟩
  | cons parent parents ih =>
    obtain ⟨rec, hrec⟩ := hrecs parent mem_cons_self
    have hrest := fun other ho => hrecs other (mem_cons_of_mem _ ho)
    rw [pushParents, hrec]
    dsimp only
    split
    next err herr =>
      have hfl := (isFailed_iff hrec).mpr ⟨err, herr⟩
      obtain ⟨later, hlat, hiff⟩ := @ih worklist hrest
      refine ⟨later, hlat, fun other => ?_⟩
      rw [hiff, mem_cons]
      constructor
      · exact Or.imp_right (And.imp_left Or.inr)
      · rintro (hm | ⟨rfl | hm, hnot⟩)
        · exact .inl hm
        · exact absurd hfl hnot
        · exact .inr ⟨hm, hnot⟩
    next hopen =>
      have hnot : ¬ (g.schedule.stage parent).IsFailed := by
        rw [isFailed_iff hrec]
        rintro ⟨err, herr⟩
        exact hopen err herr
      split_ifs with hm
      · obtain ⟨later, hlat, hiff⟩ := @ih worklist hrest
        refine ⟨later, hlat, fun other => ?_⟩
        rw [hiff, mem_cons]
        constructor
        · exact Or.imp_right (And.imp_left Or.inr)
        · rintro (hin | ⟨rfl | hin, ho⟩)
          · exact .inl hin
          · exact .inl hm
          · exact .inr ⟨hin, ho⟩
      · obtain ⟨later, hlat, hiff⟩ := @ih (parent :: worklist) hrest
        refine ⟨later, hlat, fun other => ?_⟩
        rw [hiff, mem_cons, mem_cons]
        constructor
        · rintro ((rfl | hin) | ⟨hin, ho⟩)
          · exact .inr ⟨.inl rfl, hnot⟩
          · exact .inl hin
          · exact .inr ⟨.inr hin, ho⟩
        · rintro (hin | ⟨rfl | hin, ho⟩)
          · exact .inl (.inr hin)
          · exact .inl (.inl rfl)
          · exact .inr ⟨hin, ho⟩

/-- What a rejection that starts at a module does to the schedule. -/
structure Rejected (mdl : ModuleId) (err : Value) (before post : Schedule ModuleId Value) :
    Prop where
  order : post.order = before.order
  ready : post.ready = before.ready
  next : post.next = before.next
  stage : ∀ other, post.stage other = before.stage other ∨
    (before.stage other = .waiting ∨ other = mdl ∧ ¬ (before.stage other).IsFailed) ∧
      post.stage other = .failed err

variable {err : Value}

theorem Rejected.refl (pre : Schedule ModuleId Value) : Rejected mdl err pre pre :=
  ⟨rfl, rfl, rfl, fun _ => .inl rfl⟩

variable {pre : Schedule ModuleId Value}

theorem Rejected.trans {middle post : Schedule ModuleId Value} (h : Rejected mdl err pre middle) (h'
    : Rejected mdl err middle post) : Rejected mdl err pre post where
  order := h'.order.trans h.order
  ready := h'.ready.trans h.ready
  next := h'.next.trans h.next
  stage := by
    intro other
    rcases h.stage other with hs | ⟨hb, hfl⟩
    · rw [← hs]
      exact h'.stage other
    · rcases h'.stage other with hs | ⟨-, hfl'⟩
      · exact .inr ⟨hb, hs.trans hfl⟩
      · exact .inr ⟨hb, hfl'⟩

theorem Rejected.isFailed {post : Schedule ModuleId Value} (h : Rejected mdl err pre post) {other :
    ModuleId} (hfl : (pre.stage other).IsFailed) : (post.stage other).IsFailed := by
  rcases h.stage other with hs | ⟨-, hnew⟩
  · rw [hs]
    exact hfl
  · exact ⟨err, hnew⟩

variable {succs : ModuleId → List ModuleId} {root : ModuleId → ModuleId} {part : ModuleId → Prop}
  {Threw : ModuleId → Value → Prop}

variable {run : RejectRun}

/-- A round of a rejection takes the head of the worklist. -/
theorem rejectStep_cons {cur : ModuleId} {rest : List ModuleId} (hworklist : run.worklist = cur ::
    rest) (hsched : Scheduled succs root part Threw [] (cur :: rest) run.graph.schedule) (hdoomed :
    Doomed succs Threw run.graph.schedule err (cur :: rest)) (hwait : ∀ other ∈ cur :: rest,
    run.graph.schedule.stage other = .waiting ∨ (run.graph.schedule.stage other).IsFailed ∨ other =
    mdl) :
    ∃ next, rejectStep err run = .running next ∧ run.graph.KeepsRunning next.graph ∧
      Scheduled succs root part Threw [] next.worklist next.graph.schedule ∧
      Doomed succs Threw next.graph.schedule err next.worklist ∧
      (∀ other ∈ next.worklist, next.graph.schedule.stage other = .waiting ∨
        (next.graph.schedule.stage other).IsFailed ∨ other = mdl) ∧
      Rejected mdl err run.graph.schedule next.graph.schedule ∧
      (next.graph.schedule.stage cur).IsFailed ∧ ∀ other ∈ rest, other ∈ next.worklist := by
  obtain ⟨rec, hrec⟩ := exists_record_of_order (hdoomed.order cur mem_cons_self)
  by_cases hfl : (run.graph.schedule.stage cur).IsFailed
  · obtain ⟨val, hv⟩ := (isFailed_iff hrec).mp hfl
    refine ⟨{ run with worklist := rest }, ?_, .refl _, hsched.skip hfl, hdoomed.tail,
      fun other ho => hwait other (mem_cons_of_mem _ ho), .refl _, hfl,
      fun other ho => ho⟩
    simp only [rejectStep, hworklist, hrec, hv]
  · obtain ⟨middle, hmid, hkeeps, hschedule⟩ := takeParents_eq hrec
      (show (errored err).stage ≠ .started from fun h => by cases h)
    replace hschedule : middle.schedule = run.graph.schedule.fail cur err := hschedule
    obtain ⟨later, hlat, hiff⟩ := @pushParents_eq middle rec.asyncParents rest
      fun parent hp => by
        rw [← parents_eq hrec] at hp
        obtain ⟨-, -, -, -, k, l, -, hl, -⟩ := hsched.parent cur parent hp
        obtain ⟨other, ho⟩ := exists_record_of_order
          (by rw [hl]; exact Option.some_ne_none l : run.graph.schedule.order parent ≠ none)
        exact hkeeps.exists_record ho
    rw [hschedule, ← parents_eq hrec] at hiff
    refine ⟨⟨middle, later⟩, ?_, hkeeps, ?_, ?_, ?_, ?_, ?_,
      fun other ho => (hiff other).mpr (.inl ho)⟩
    · have hopen : ∀ val, rec.evaluation ≠ .errored val := fun val hv =>
        hfl ((isFailed_iff hrec).mpr ⟨val, hv⟩)
      simp only [rejectStep, hworklist, hrec, hmid, hlat]
    · rw [hschedule]
      refine hsched.fail hdoomed (fun other ho => (hiff other).mpr (.inl ho)) ?_
      intro other hp hne hnot
      by_contra hopen
      refine hnot ((hiff other).mpr (.inr ⟨hp, ?_⟩))
      rw [stage_fail_of_ne err hne]
      exact hopen
    · rw [hschedule]
      exact hdoomed.fail hsched fun other ho => ((hiff other).mp ho).imp_right And.left
    · rw [hschedule]
      intro other ho
      by_cases heq : other = cur
      · subst heq
        rw [stage_fail_self]
        exact .inr (.inl ⟨err, rfl⟩)
      · rw [stage_fail_of_ne err heq]
        rcases (hiff other).mp ho with hin | ⟨hin, -⟩
        · exact hwait other (mem_cons_of_mem _ hin)
        · exact (hsched.parent cur other hin).1.imp_right .inl
    · rw [hschedule]
      refine ⟨rfl, rfl, rfl, fun other => ?_⟩
      by_cases heq : other = cur
      · subst heq
        rw [stage_fail_self]
        refine .inr ⟨?_, rfl⟩
        rcases hwait other mem_cons_self with hin | hin | hin
        · exact .inl hin
        · exact absurd hin hfl
        · exact .inr ⟨hin, hfl⟩
      · exact .inl (stage_fail_of_ne err heq)
    · rw [hschedule, stage_fail_self]
      exact ⟨err, rfl⟩

/-- A rejection lets the modules on its worklist fail, and all that wait for them. -/
theorem rejects {res : Except ModuleError ModuleGraph} (hret : Returns (rejectStep err) run res)
    (hsched : Scheduled succs root part Threw [] run.worklist run.graph.schedule) (hdoomed : Doomed
    succs Threw run.graph.schedule err run.worklist) (hwait : ∀ other ∈ run.worklist,
    run.graph.schedule.stage other = .waiting ∨ (run.graph.schedule.stage other).IsFailed ∨ other =
    mdl) :
    ∃ post, res = .ok post ∧ run.graph.KeepsRunning post ∧
      Scheduled succs root part Threw [] [] post.schedule ∧
      Rejected mdl err run.graph.schedule post.schedule ∧
      ∀ other ∈ run.worklist, (post.schedule.stage other).IsFailed := by
  induction hret with
  | @done run res hstep =>
    cases hworklist : run.worklist with
    | nil =>
      rw [rejectStep, hworklist] at hstep
      cases hstep
      rw [hworklist] at hsched
      exact ⟨run.graph, rfl, .refl _, hsched, .refl _, fun other hm => by cases hm⟩
    | cons cur rest =>
      rw [hworklist] at hsched hdoomed hwait
      obtain ⟨next, hn, -⟩ := rejectStep_cons hworklist hsched hdoomed hwait
      rw [hn] at hstep
      cases hstep
  | @round run next res hstep hrest ih =>
    cases hworklist : run.worklist with
    | nil =>
      rw [rejectStep, hworklist] at hstep
      cases hstep
    | cons cur rest =>
      rw [hworklist] at hsched hdoomed hwait
      obtain ⟨next', hn, hkeeps, hsched', hdoomed', hwait', hrejected, hcur, hm⟩ :=
        rejectStep_cons hworklist hsched hdoomed hwait
      rw [hstep] at hn
      cases hn
      obtain ⟨post, ha, hkeeps', hscheduledAfter, hrejected', hall⟩ := ih hsched' hdoomed' hwait'
      refine ⟨post, ha, hkeeps.trans hkeeps', hscheduledAfter, hrejected.trans hrejected',
        fun other ho => ?_⟩
      rcases mem_cons.mp ho with rfl | ho
      · exact hrejected'.isFailed hcur
      · exact hall other (hm other ho)

/-- A module that runs fails, and all that waits for it. -/
theorem completeEvaluation_reject (hsched : Scheduled succs root part Threw [] [] g.schedule)
    (hstd : g.schedule.stage mdl = .started)
    (hcause : ∃ reached, Path succs mdl reached ∧ Threw reached err) :
    ∃ post, g.completeEvaluation mdl (.error err) = .ok post ∧ g.KeepsRunning post ∧
      Scheduled succs root part Threw [] [] post.schedule ∧
      Rejected mdl err g.schedule post.schedule ∧ post.schedule.stage mdl = .failed err := by
  have hord : g.schedule.order mdl ≠ none := by
    rcases hsched.order_of_stage mdl with hsg | hsg | hsome
    · rw [hstd] at hsg
      cases hsg
    · rw [hstd] at hsg
      exact absurd hsg Stage.not_isFailed_started
    · exact hsome
  have hnotReady : mdl ∉ g.schedule.ready := by
    intro hready
    rcases (hsched.ready_stage mdl hready).1 with hsg | hsg
    · rw [hstd] at hsg
      cases hsg
    · rw [hstd] at hsg
      cases hsg
  have hdoomed : Doomed succs Threw g.schedule err [mdl] := by
    refine ⟨?_, ?_, ?_, ?_⟩
    · intro other ho
      exact mem_singleton.mp ho ▸ hord
    · intro other ho
      exact mem_singleton.mp ho ▸ hnotReady
    · intro other ho
      obtain rfl := mem_singleton.mp ho
      rw [hstd]
      exact Stage.not_isDone_started
    · intro other ho
      exact mem_singleton.mp ho ▸ hcause
  obtain ⟨post, ha, hkeeps, hscheduledAfter, hrejected, hall⟩ := rejects
    (returns_rejectEvaluationTree g mdl err) (hsched.doom [mdl]) hdoomed
    fun other ho => .inr (.inr (mem_singleton.mp ho))
  refine ⟨post, ha, hkeeps, hscheduledAfter, hrejected, ?_⟩
  rcases hrejected.stage mdl with hs | ⟨-, hfl⟩
  · obtain ⟨val, hv⟩ := hall mdl mem_cons_self
    rw [hs, hstd] at hv
    cases hv
  · exact hfl

/-- A module for which nothing waits fails alone. -/
theorem completeEvaluation_refuse (hrec : g.record mdl = .ok rec) (hparents : rec.asyncParents = [])
    (hopen : ¬ (g.schedule.stage mdl).IsFailed) :
    ∃ post, g.completeEvaluation mdl (.error err) = .ok post ∧ g.KeepsRunning post ∧
      post.schedule = g.schedule.fail mdl err := by
  obtain ⟨middle, hmid, hkeeps, hsched⟩ := takeParents_eq hrec
      (fun h => (nomatch h) : (errored err).stage ≠ .started)
  refine ⟨middle, ?_, hkeeps, hsched⟩
  have hround : rejectStep err ⟨g, [mdl]⟩ = .running ⟨middle, []⟩ := by
    simp only [rejectStep, hrec]
    split
    next val hv =>
      exact absurd ((isFailed_iff hrec).mpr ⟨val, hv⟩) hopen
    · simp only [hmid, hparents, pushParents]
  have hret : Returns (rejectStep err) ⟨g, [mdl]⟩ (.ok middle) := .round hround (.done rfl)
  exact (returns_rejectEvaluationTree g mdl err).unique hret

end Rejection

end ModuleGraph

end TachyonEngine.Vm
