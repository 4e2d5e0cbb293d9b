import TachyonEngine.Vm.ModuleSchedule

/-!
# The run of a ready module

A module is taken from the queue, its body runs, and it is done, fails or is suspended. A body that
was suspended settles in the same way. What holds of a schedule holds afterwards.
-/

namespace TachyonEngine.Vm

open Lib.Scheduling List
open Lib.Components (Path)

/-- How a body may end: it is suspended only at a top-level await, and one that has a top-level
await does not throw before. -/
def BodyOutcome.Fits (hasTopLevelAwait : Bool) : BodyOutcome → Prop
  | .completed _ => True
  | .thrown _ => hasTopLevelAwait = false
  | .suspended => hasTopLevelAwait = true
  | .failed => False

/-- The stage that a body brings its module to. -/
def BodyOutcome.Brings (stage : Stage Value) : BodyOutcome → Prop
  | .completed _ => stage.IsDone
  | .thrown error => stage = .failed error
  | .suspended => stage = .started
  | .failed => False

namespace ModuleGraph

/-! ## The queue -/

theorem perm_swapRemove {α : Type*} {list : List α} {idx : Nat} (h : idx < list.length) :
    list.Perm (list[idx] :: swapRemove list idx) := by
  cases list using reverseRecOn with
  | nil => cases h
  | append_singleton front last =>
    rw [swapRemove, getLast?_concat]
    dsimp only
    rw [length_append, length_singleton] at h
    by_cases heq : idx = front.length
    · subst heq
      rw [set_append_right _ _ le_rfl, Nat.sub_self, set_cons_zero, dropLast_concat,
        getElem_concat_length rfl]
      exact perm_append_singleton last front
    · have hlt : idx < front.length := by omega
      rw [set_append_left _ _ hlt, dropLast_concat, getElem_append_left hlt]
      have hfront : front.Perm (front[idx] :: front.eraseIdx idx) :=
        (getElem_cons_eraseIdx_perm hlt).symm
      have hset : (front.set idx last).Perm (last :: front.eraseIdx idx) :=
        set_perm_cons_eraseIdx hlt last
      calc (front ++ [last]).Perm (last :: front) := perm_append_singleton last front
        List.Perm _ (last :: front[idx] :: front.eraseIdx idx) := hfront.cons last
        List.Perm _ (front[idx] :: last :: front.eraseIdx idx) := List.Perm.swap _ _ _
        List.Perm _ (front[idx] :: front.set idx last) := hset.symm.cons _

section Queue

variable {g taken : ModuleGraph} {mdl : ModuleId}

theorem takeReadyModule_eq_none : g.takeReadyModule = none ↔ g.readyAsyncModules = [] := by
  rw [← argmin_eq_none (f := g.readyOrder), takeReadyModule]
  cases g.readyAsyncModules.argmin g.readyOrder with
  | none => exact iff_of_true rfl rfl
  | some mdl => exact iff_of_false (fun h => nomatch h) (fun h => nomatch h)

/-- The module that is taken is ready, and the others are left in some order. -/
theorem takeReadyModule_eq_some (h : g.takeReadyModule = some (mdl, taken)) :
    ∃ queue, taken = { g with readyAsyncModules := queue } ∧
      g.readyAsyncModules.Perm (mdl :: queue) := by
  rw [takeReadyModule] at h
  split at h
  · cases h
  next least hleast =>
    cases h
    have hm : mdl ∈ g.readyAsyncModules := argmin_mem (Option.mem_def.mpr hleast)
    refine ⟨_, rfl, ?_⟩
    have hperm := perm_swapRemove (idxOf_lt_length_of_mem hm)
    rwa [getElem_idxOf] at hperm

end Queue

/-! ## The end of a body -/

/-- How the evaluation of a module that ran goes on. -/
def resultStage : Except Value Value → Stage Value
  | .ok value => .done value
  | .error error => .failed error

/-- The module comes to a stage, and what waits for something may be released or fail. -/
structure Ended (mdl : ModuleId) (stage : Stage Value) (before after : Schedule ModuleId Value) :
    Prop where
  self : after.stage mdl = stage
  stage : ∀ other, other ≠ mdl → after.stage other = before.stage other ∨
    before.stage other = .waiting ∧ (after.stage other).IsFailed
  ready : ∀ other ∈ after.ready, other ∈ before.ready ∨ before.stage other = .waiting
  order : after.order = before.order

theorem Ended.trans {mdl : ModuleId} {stage stage' : Stage Value}
    {pre middle post : Schedule ModuleId Value} (h : Ended mdl stage pre middle)
    (hsg : stage ≠ .waiting) (h' : Ended mdl stage' middle post) : Ended mdl stage' pre post where
  self := h'.self
  stage := by
    intro other hne
    rcases h.stage other hne with hs | ⟨hwait, hfl⟩
    · rw [← hs]
      exact h'.stage other hne
    · refine .inr ⟨hwait, ?_⟩
      rcases h'.stage other hne with hs | ⟨-, ha⟩
      · rw [hs]
        exact hfl
      · exact ha
  ready := by
    intro other hready
    rcases h'.ready other hready with hmid | hmid
    · exact h.ready other hmid
    · by_cases heq : other = mdl
      · subst heq
        rw [h.self] at hmid
        exact absurd hmid hsg
      · rcases h.stage other heq with hs | ⟨hwait, -⟩
        · rw [hs] at hmid
          exact .inr hmid
        · exact .inr hwait
  order := h'.order.trans h.order

section Body

variable {g : ModuleGraph} {mdl : ModuleId} {rec : ModuleRecord}
  {succs : ModuleId → List ModuleId} {root : ModuleId → ModuleId} {part : ModuleId → Prop}
  {Threw : ModuleId → Value → Prop}

/-- A module that runs, or that is done, is done. -/
theorem completeEvaluation_ok (hrec : g.record mdl = .ok rec)
    (hsched : Scheduled succs root part Threw [] [] g.schedule) (val : Value)
    (hsg : g.schedule.stage mdl = .started ∨ (g.schedule.stage mdl).IsDone) :
    ∃ post, g.completeEvaluation mdl (.ok val) = .ok post ∧ g.KeepsRunning post ∧
      Scheduled succs root part Threw [] [] post.schedule ∧
      Ended mdl (.done val) g.schedule post.schedule := by
  have hself : mdl ∉ rec.asyncParents := by
    rw [← parents_eq hrec]
    intro hm
    obtain ⟨-, -, -, -, k, l, hk, hl, hlt⟩ := hsched.parent mdl mdl hm
    rw [hk] at hl
    cases hl
    exact lt_irrefl k hlt
  have hnodup : rec.asyncParents.Nodup := by
    rw [← parents_eq hrec]
    exact hsched.parents_nodup mdl
  have hrecs : ∀ parent ∈ rec.asyncParents, ∃ other, g.record parent = .ok other := by
    rw [← parents_eq hrec]
    intro parent hm
    obtain ⟨-, -, -, -, k, l, -, hl, -⟩ := hsched.parent mdl parent hm
    refine exists_record_of_order ?_
    rw [hl]
    exact Option.some_ne_none l
  obtain ⟨post, ha, hkeeps, hschedule⟩ := completeEvaluation_fulfil hrec hself hnodup hrecs val
  refine ⟨post, ha, hkeeps, ?_, ?_⟩
  · rw [hschedule]
    exact hsched.fulfil hsg val
  · rw [hschedule]
    refine ⟨stage_fulfil_self val, fun other hne => .inl (stage_fulfil_of_ne val hne), ?_, rfl⟩
    intro other hready
    rcases mem_ready_fulfil.mp hready with hb | ⟨-, hwait, -⟩
    · exact .inl hb
    · exact .inr hwait

/-- A module that runs comes to a result. -/
theorem completeEvaluation_eq (hrec : g.record mdl = .ok rec)
    (hsched : Scheduled succs root part Threw [] [] g.schedule)
    (hstd : g.schedule.stage mdl = .started) (res : Except Value Value)
    (hcause : ∀ err, res = .error err → Threw mdl err) :
    ∃ post, g.completeEvaluation mdl res = .ok post ∧ g.KeepsRunning post ∧
      Scheduled succs root part Threw [] [] post.schedule ∧
      Ended mdl (resultStage res) g.schedule post.schedule := by
  cases res with
  | ok val => exact completeEvaluation_ok hrec hsched val (.inl hstd)
  | error err =>
    obtain ⟨post, ha, hkeeps, hscheduledAfter, hrejected, hself⟩ :=
      completeEvaluation_reject hsched hstd ⟨mdl, .refl, hcause err rfl⟩
    refine ⟨post, ha, hkeeps, hscheduledAfter, hself, ?_, ?_, hrejected.order⟩
    · intro other hne
      rcases hrejected.stage other with hs | ⟨hb, hfl⟩
      · exact .inl hs
      · exact .inr ⟨hb.resolve_right fun h => hne h.1, err, hfl⟩
    · intro other hready
      rw [hrejected.ready] at hready
      exact .inl hready

end Body

/-! ## The run of a body -/

section Run

variable {g taken : ModuleGraph} {mdl : ModuleId} {rec : ModuleRecord}
  {succs : ModuleId → List ModuleId} {root : ModuleId → ModuleId} {part : ModuleId → Prop}
  {Threw : ModuleId → Value → Prop}

theorem keepsMarks_setEvaluation (g : ModuleGraph) (mdl : ModuleId)
    (evaluation : ModuleEvaluationState) : g.KeepsMarks (g.setEvaluation mdl evaluation) :=
  keepsMarks_modifyRecord g mdl _ (fun _ => ⟨rfl, rfl, rfl, rfl, rfl, rfl⟩) (fun _ => ⟨rfl, rfl⟩)

theorem schedule_setEvaluation (hrec : g.record mdl = .ok rec)
    (evaluation : ModuleEvaluationState) : (g.setEvaluation mdl evaluation).schedule =
      { g.schedule with
        stage := Function.update g.schedule.stage mdl evaluation.stage } := by
  rw [setEvaluation, schedule_modifyRecord _ hrec, ← order_eq hrec, ← parents_eq hrec,
    ← pending_eq hrec]
  rw [Function.update_eq_self, Function.update_eq_self, Function.update_eq_self]

/-- The record of a module that an evaluation takes to be running. -/
theorem KeepsRunning.evaluating {post : ModuleGraph} (h : g.KeepsRunning post) {rec' : ModuleRecord}
    (hrec' : post.record mdl = .ok rec') (heval : rec'.evaluation = .evaluating) :
    ∃ rec, g.record mdl = .ok rec ∧ rec.evaluation = .evaluating := by
  obtain ⟨rec, hrec, -⟩ := h.links.record hrec'
  rcases h.running mdl rec rec' hrec hrec' with hs | hended
  · exact ⟨rec, hrec, hs.symm.trans heval⟩
  · rw [heval] at hended
    exact absurd rfl hended

/-- The module that is taken starts. -/
theorem startReadyModule_eq (htake : g.takeReadyModule = some (mdl, taken))
    (hsched : Scheduled succs root part Threw [] [] g.schedule) :
    ∃ started rec queue, taken.startReadyModule mdl = .ok started ∧ g.KeepsMarks started ∧
      started.record mdl = .ok rec ∧ rec.evaluation = .evaluating ∧
      (∀ other, other ≠ mdl → started.record other = g.record other) ∧
      g.readyAsyncModules.Perm (mdl :: queue) ∧ started.schedule = g.schedule.start mdl queue := by
  obtain ⟨queue, rfl, hperm⟩ := takeReadyModule_eq_some htake
  have hready : mdl ∈ g.schedule.ready := hperm.mem_iff.mpr mem_cons_self
  obtain ⟨hsg, hord, -⟩ := hsched.ready_stage mdl hready
  obtain ⟨rec, hrec⟩ := exists_record_of_order hord
  have htaken : ({ g with readyAsyncModules := queue } : ModuleGraph).record mdl = .ok rec := hrec
  refine ⟨_, { rec with evaluation := .evaluating }, queue, ?_,
    (keepsMarks_counters g queue g.nextAsyncEvaluationOrder).trans
      (keepsMarks_setEvaluation _ mdl .evaluating),
    (record_modifyRecord_self htaken).trans rfl, rfl, fun other hne => record_modifyRecord_of_ne
      hne, hperm, ?_⟩
  · rw [startReadyModule, htaken]
    dsimp only
    rw [stage_eq hrec, ModuleEvaluationState.stage_eq_fresh,
      ModuleEvaluationState.stage_eq_waiting] at hsg
    rcases hsg with hsg | hsg
    · rw [hsg]
    · rw [hsg]
  · rw [schedule_setEvaluation htaken]
    rfl

/-- No body runs. -/
def Resting (g : ModuleGraph) : Prop :=
  ∀ mdl rec, g.record mdl = .ok rec → rec.evaluation ≠ .evaluating

theorem KeepsRunning.resting {post : ModuleGraph} (h : g.KeepsRunning post) (hresting : g.Resting) :
    post.Resting := by
  intro mdl rec' hrec' heval
  obtain ⟨rec, hrec, hb⟩ := h.evaluating hrec' heval
  exact hresting mdl rec hrec hb

variable (hrec : g.record mdl = .ok rec) (heval : rec.evaluation = .evaluating)

include hrec heval

theorem stage_of_evaluating : g.schedule.stage mdl = .started := by
  rw [stage_eq hrec, heval]
  rfl

variable (hsched : Scheduled succs root part Threw [] [] g.schedule)
  (hresting : ∀ other rec, g.record other = .ok rec → rec.evaluation = .evaluating → other = mdl)

include hsched hresting

/-- A body without a top-level await comes to its result at once. -/
theorem finishReadyModuleOutcome_eq (outcome : RunOutcome)
    (hcause : ∀ err, outcome = .thrown err → Threw mdl err) :
    ∃ post stage, g.finishReadyModuleOutcome mdl outcome = .ok post ∧ g.KeepsMarks post ∧
      Scheduled succs root part Threw [] [] post.schedule ∧ post.Resting ∧
      (match outcome with
        | .completed val => stage = .done val
        | .thrown err => stage = .failed err) ∧
      Ended mdl stage g.schedule post.schedule := by
  have hstd := stage_of_evaluating hrec heval
  -- the module itself does not run any more
  have hrests : ∀ {post : ModuleGraph} {stage : Stage Value}, g.KeepsRunning post →
      post.schedule.stage mdl = stage → stage ≠ .started → post.Resting := by
    intro post stage hkeeps hself hne other rec' hrec' ho
    obtain ⟨pre, hb, hrunning⟩ := hkeeps.evaluating hrec' ho
    obtain rfl := hresting other pre hb hrunning
    rw [stage_of_evaluating hrec' ho] at hself
    exact hne hself.symm
  cases outcome with
  | completed val =>
    obtain ⟨post, ha, hkeeps, hscheduledAfter, hended⟩ :=
      completeEvaluation_ok hrec hsched val (.inl hstd)
    refine ⟨post, .done val, ?_, hkeeps.toKeepsMarks, hscheduledAfter,
      hrests hkeeps hended.self (fun h => nomatch h), rfl, hended⟩
    simp only [finishReadyModuleOutcome, hrec, heval]
    exact ha
  | thrown err =>
    obtain ⟨post, ha, hkeeps, hscheduledAfter, hended⟩ :=
      completeEvaluation_eq hrec hsched hstd (.error err) fun err' heq => by
        cases heq
        exact hcause err rfl
    exact ⟨post, .failed err, ha, hkeeps.toKeepsMarks, hscheduledAfter,
      hrests hkeeps hended.self (fun h => nomatch h), rfl, hended⟩

/-- The evaluation of a body with a top-level await begins. -/
theorem beginAsyncEvaluation_eq (st : Value) :
    ∃ begun, g.beginAsyncEvaluation mdl st = .ok begun ∧ g.KeepsMarks begun ∧
      begun.Resting ∧ begun.schedule = g.schedule ∧
      begun.record mdl = .ok { rec with evaluation := .asyncEvaluating st } := by
  have hstd := stage_of_evaluating hrec heval
  have hord : rec.asyncEvaluationOrder.isSome = true := by
    rw [Option.isSome_iff_ne_none, ← order_eq hrec]
    rcases hsched.order_of_stage mdl with hsg | hsg | hsome
    · rw [hstd] at hsg
      cases hsg
    · rw [hstd] at hsg
      exact absurd hsg Stage.not_isFailed_started
    · exact hsome
  have hself : (g.setEvaluation mdl (.asyncEvaluating st)).record mdl =
      .ok { rec with evaluation := .asyncEvaluating st } :=
    (record_modifyRecord_self hrec).trans rfl
  refine ⟨_, ?_, keepsMarks_setEvaluation g mdl (.asyncEvaluating st), ?_, ?_, hself⟩
  · rw [beginAsyncEvaluation, hrec]
    dsimp only
    rw [if_neg (not_not.mpr heval), if_pos hord]
  · intro other rec' hrec' ho
    by_cases heq : other = mdl
    · subst heq
      rw [hself] at hrec'
      cases hrec'
      cases ho
    · rw [setEvaluation, record_modifyRecord_of_ne heq] at hrec'
      exact heq (hresting other rec' hrec' ho)
  · rw [schedule_setEvaluation hrec]
    have hsg : (ModuleEvaluationState.asyncEvaluating st).stage = g.schedule.stage mdl := hstd.symm
    rw [hsg, Function.update_eq_self]

/-- A ready module runs. -/
theorem executeReadyModule_eq (st : Value) (outcome : BodyOutcome)
    (hfits : outcome.Fits rec.hasTopLevelAwait)
    (hcause : ∀ err, outcome = .thrown err → Threw mdl err) :
    ∃ post stage, g.executeReadyModule mdl st outcome = .ok post ∧ g.KeepsMarks post ∧
      Scheduled succs root part Threw [] [] post.schedule ∧ post.Resting ∧
      outcome.Brings stage ∧ Ended mdl stage g.schedule post.schedule := by
  rw [executeReadyModule, hrec]
  dsimp only
  cases hawait : rec.hasTopLevelAwait with
  | false =>
    cases outcome with
    | completed val =>
      obtain ⟨post, stage, ha, hkeeps, hscheduledAfter, hrests, rfl, hended⟩ :=
        finishReadyModuleOutcome_eq hrec heval hsched hresting (.completed val)
          (fun err heq => nomatch heq)
      exact ⟨post, .done val, ha, hkeeps, hscheduledAfter, hrests, ⟨val, rfl⟩, hended⟩
    | thrown err =>
      obtain ⟨post, stage, ha, hkeeps, hscheduledAfter, hrests, rfl, hended⟩ :=
        finishReadyModuleOutcome_eq hrec heval hsched hresting (.thrown err) (fun err' heq => by
            cases heq
            exact hcause err rfl)
      exact ⟨post, .failed err, ha, hkeeps, hscheduledAfter, hrests, rfl, hended⟩
    | suspended =>
      rw [hawait] at hfits
      cases hfits
    | failed => cases hfits
  | true =>
    rw [if_pos rfl, runAsynchronously]
    obtain ⟨begun, hbegun, hkeeps, hrests, hschedule, hself⟩ :=
      beginAsyncEvaluation_eq hrec heval hsched hresting st
    have hbegunScheduled := hschedule ▸ hsched
    have hstd : begun.schedule.stage mdl = .started := by
      rw [hschedule]
      exact stage_of_evaluating hrec heval
    rw [hbegun]
    cases outcome with
    | completed val =>
      -- the module is done twice, the second time with the result of its entry
      obtain ⟨middle, hmid, hkeepsMiddle, hmiddleScheduled, hended⟩ :=
        completeEvaluation_ok hself hbegunScheduled val (.inl hstd)
      have hdone : (middle.schedule.stage mdl).IsDone := ⟨val, hended.self⟩
      obtain ⟨done, hdoneRecord⟩ := hkeepsMiddle.exists_record hself
      obtain ⟨post, ha, hkeepsAfter, hscheduledAfter, hendedAfter⟩ :=
        completeEvaluation_ok hdoneRecord hmiddleScheduled .undefined (.inr hdone)
      refine ⟨post, .done .undefined, ?_,
        (hkeeps.trans hkeepsMiddle.toKeepsMarks).trans hkeepsAfter.toKeepsMarks, hscheduledAfter,
        hkeepsAfter.resting (hkeepsMiddle.resting hrests), ⟨_, rfl⟩, ?_⟩
      · have hevaluated : done.evaluation = .evaluated val := by
          rw [← ModuleEvaluationState.stage_eq_done, ← stage_eq hdoneRecord]
          exact hended.self
        have hfin : begun.finishAsyncEvaluation mdl (.ok val) = .ok middle := by
          rw [finishAsyncEvaluation, hself]
          exact hmid
        dsimp only
        rw [hfin]
        dsimp only
        rw [finishReadyModuleOutcome, hdoneRecord]
        dsimp only
        rw [hevaluated]
        exact ha
      · rw [← hschedule]
        exact hended.trans (fun h => nomatch h) hendedAfter
    | thrown err =>
      rw [hawait] at hfits
      cases hfits
    | suspended =>
      refine ⟨begun, .started, ?_, hkeeps, hbegunScheduled, hrests, rfl, ?_⟩
      · simp only [finishReadyModuleOutcome, hself]
      · rw [hschedule]
        exact ⟨hschedule ▸ hstd, fun other _ => .inl rfl, fun other hready => .inl hready, rfl⟩
    | failed => cases hfits

end Run

end ModuleGraph

end TachyonEngine.Vm
