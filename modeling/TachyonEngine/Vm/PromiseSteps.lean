import TachyonEngine.Vm.PromiseSession
import TachyonEngine.Vm.PromiseView

/-!
# What the operations on promises do to the lists

Every operation of a resolution settles one promise, or queues one thenable, or changes none of the
lists. A promise that is settled is not changed by any of them.
-/

namespace TachyonEngine.Vm

open PromiseEngine Option

open Gc (RawHeapRef)
open Lib Lib.Attempt

/-- What a resolution of one promise may come to. -/
inductive Resolves (all : Promises) (tgt : Option RawHeapRef) : Promises → Prop
  | same : Resolves all tgt all
  | settles {reference : RawHeapRef} {st : PromiseState} {result : Value}
      (ht : tgt = some reference) (hst : st ≠ .pending) :
      Resolves all tgt (all.settle reference st result)
  | queues {promise thenable «then» : Value} {reference : RawHeapRef} {view : PromiseView}
      (ht : tgt = some reference) (hf : all.promises reference = some view)
      (href : promise.asHeapRef = some reference) :
      Resolves all tgt (all.push [.thenable promise thenable «then»])

namespace PromiseEngine

/-- A resolution of one promise that leaves the pairs alone. -/
structure Resolved (engine : PromiseEngine) (tgt : Option RawHeapRef) (post : PromiseEngine) :
    Prop where
  linked : post.WellLinked
  resolves : Resolves engine.view tgt post.view
  cells : post.cells = engine.cells

def IsPromise (engine : PromiseEngine) (value : Value) : Prop :=
  (value.asHeapRef.bind engine.promises).isSome

/-- A value is a promise that is settled. -/
def IsSettled (engine : PromiseEngine) (value : Value) : Prop :=
  ∃ object, value.asHeapRef.bind engine.promises = some object ∧ object.state ≠ .pending

variable {engine : PromiseEngine} {host : PromiseHost}

theorem Resolved.refl (h : engine.WellLinked) (tgt : Option RawHeapRef) :
    engine.Resolved tgt engine :=
  ⟨h, .same, rfl⟩

theorem Resolved.finishActive {tgt : Option RawHeapRef} {post : PromiseEngine}
    (h : engine.Resolved tgt post) :
    engine.Resolved tgt (post.modifyQueue PromiseJobQueue.finishActive) where
  linked := h.linked.of_same rfl rfl
  resolves := by
    exact h.resolves
  cells := h.cells

theorem isSettled_iff (engine : PromiseEngine) (val : Value) : engine.IsSettled val ↔
    ∃ view, val.asHeapRef.bind engine.view.promises = some view ∧ view.state ≠ .pending := by
  rw [IsSettled]
  cases val.asHeapRef with
  | none => simp
  | some ref => simp [view, viewOf]

variable {st : PromiseState}

theorem settle_isSettled {all : Promises} {ref : RawHeapRef}
    (hf : (all.promises ref).isSome) (hst : st ≠ .pending) (res : Value) :
    ∃ view, (all.settle ref st res).promises ref = some view ∧ view.state ≠ .pending := by
  obtain ⟨view, hview⟩ := isSome_iff_exists.mp hf
  by_cases hpend : view.state = .pending
  · refine ⟨⟨st, res, fun _ => []⟩, ?_, hst⟩
    simp only [Promises.settle, hview, if_pos hpend]
    exact if_pos rfl
  · exact ⟨view, by simpa only [Promises.settle, hview, if_neg hpend] using hview, hpend⟩

section

variable (h : engine.WellLinked)

include h

theorem ends_settle (promise : Value) (hst : st ≠ .pending)
    (res : Value) : Ends (settlePromise promise st res)
      (fun _ post => engine.Resolved promise.asHeapRef post ∧ post.IsSettled promise)
      (fun _ post => engine.Resolved promise.asHeapRef post ∧ ¬ engine.IsPromise promise)
      engine := by
  refine (ends_settlePromise h promise st res).imp ?_ ?_
  · rintro _ post ⟨ref, href, hf, hbecomes⟩
    refine ⟨⟨hbecomes.linked, ?_, hbecomes.cells⟩, ?_⟩
    · rw [hbecomes.view]
      exact .settles href hst
    · rw [isSettled_iff, href, hbecomes.view]
      apply settle_isSettled _ hst
      simpa only [view, isSome_map] using hf
  · rintro e post ⟨ha, hn⟩
    rw [ha]
    refine ⟨.refl h _, ?_⟩
    rw [IsPromise, hn]
    exact Bool.false_ne_true

variable {promise : Value}

/-- The settlement of a promise does not fail. -/
theorem ends_settle_promise (hp : engine.IsPromise promise) (hst : st ≠ .pending) (res : Value) :
    Ends (settlePromise promise st res) (fun _ post => engine.Resolved promise.asHeapRef post)
      (fun _ _ => False) engine :=
  (ends_settle h promise hst res).imp (fun _ _ ha => ha.1) (fun _ _ hfails => hfails.2 hp)

theorem ends_pushThenable (hp : engine.IsPromise promise) (thenable «then» : Value) :
    Ends (pushJob (.thenable promise thenable «then»))
      (fun _ post => engine.Resolved promise.asHeapRef post) (fun _ _ => False) engine := by
  obtain ⟨obj, hobject⟩ := isSome_iff_exists.mp hp
  obtain ⟨ref, href, hf⟩ := bind_eq_some_iff.mp hobject
  refine ⟨h.of_same rfl rfl, ?_, rfl⟩
  rw [view_modifyQueue]
  exact .queues href (view_promises hf) href

omit h in
theorem ends_complete {tgt : Option RawHeapRef} {post : PromiseEngine}
    (h : engine.Resolved tgt post)
    (mode : PromiseResolutionMode) :
    Ends (completePromiseResolution mode) (fun _ => engine.Resolved tgt)
    (fun _ _ => False) post := by
  cases mode with
  | reaction => exact h.finishActive
  | resolverCall | staticResolve | internal | asyncAwait => exact h

variable {pending : PendingResolution}

theorem ends_finishPromiseResolution (hp : engine.IsPromise pending.promise) («then» : Value) :
    Ends (finishPromiseResolution host pending «then»)
      (fun _ post => engine.Resolved pending.promise.asHeapRef post) (fun _ _ => False) engine := by
  rw [finishPromiseResolution]
  split
  · rw [ends_bind]
    refine (ends_pushThenable h hp _ _).imp ?_ (fun _ _ hfalse => hfalse.elim)
    intro _ post ha
    exact ends_complete ha _
  · rw [ends_bind]
    refine (ends_settle_promise h hp (by decide) _).imp ?_ (fun _ _ hfails => hfails)
    intro _ post ha
    exact ends_complete ha _

theorem ends_rejectPromiseResolution (hp : engine.IsPromise pending.promise) (reason : Value) :
    Ends (rejectPromiseResolution pending reason)
      (fun _ post => engine.Resolved pending.promise.asHeapRef post) (fun _ _ => False) engine := by
  rw [rejectPromiseResolution, ends_bind]
  refine (ends_settle_promise h hp (by decide) _).imp ?_ (fun _ _ hfails => hfails)
  intro _ post ha
  exact ends_complete ha _

end

end PromiseEngine

/-- Memory for an error object is granted, and the lookup does not fail. -/
def ResolutionAnswers.Granted (answers : ResolutionAnswers) : Prop :=
  answers.nativeError.isSome ∧ answers.lookup ≠ .fails

namespace PromiseEngine

variable {engine : PromiseEngine} {host : PromiseHost}

theorem ends_createNativeError {mem : Option Value} :
    Ends (createNativeError mem) (fun _ post => post = engine)
      (fun _ post => post = engine ∧ mem = none) engine := by
  cases mem with
  | none => exact ⟨rfl, rfl⟩
  | some err => exact rfl

theorem ends_beginPromiseResolution (h : engine.WellLinked) {promise : Value}
    (hpr : engine.IsPromise promise) (resolution : Value) (mode : PromiseResolutionMode)
    (answers : ResolutionAnswers) :
    Ends (beginPromiseResolution host promise resolution mode answers)
      (fun pending post => engine.Resolved promise.asHeapRef post ∧ ∀ p ∈ pending,
      engine.IsPromise p.promise)
      (fun _ post => engine.Resolved promise.asHeapRef post ∧ ¬ answers.Granted) engine := by
  have hn : ∀ p ∈ (none : Option PendingResolution), engine.IsPromise p.promise :=
    fun p hp => nomatch hp
  have href : ∀ post, post = engine ∧ answers.nativeError = none →
      engine.Resolved promise.asHeapRef post ∧ ¬ answers.Granted := by
    rintro post ⟨ha, hmemory⟩
    rw [ha]
    refine ⟨.refl h _, ?_⟩
    intro hgr
    rw [ResolutionAnswers.Granted, hmemory] at hgr
    exact absurd hgr.1 Bool.false_ne_true
  rw [beginPromiseResolution]
  split
  · rw [ends_bind]
    refine ends_createNativeError.imp ?_ (fun _ post hfails => href post hfails)
    intro err middle hmid
    rw [hmid, ends_bind]
    refine (ends_settle_promise h hpr (by decide) err).imp ?_ (fun _ _ hfalse => hfalse.elim)
    intro _ post ha
    rw [ends_bind]
    exact (ends_complete ha mode).imp (fun _ _ hfinal => ⟨hfinal, hn⟩)
      (fun _ _ hfalse => hfalse.elim)
  · split
    · rw [ends_bind]
      refine (ends_settle_promise h hpr (by decide) resolution).imp ?_
        (fun _ _ hfalse => hfalse.elim)
      intro _ post ha
      rw [ends_bind]
      exact (ends_complete ha mode).imp (fun _ _ hfinal => ⟨hfinal, hn⟩)
        (fun _ _ hfalse => hfalse.elim)
    · cases hlook : answers.lookup with
      | returns found =>
        rw [ends_bind]
        have hpend : engine.IsPromise (PendingResolution.mk mode promise resolution).promise := hpr
        exact (ends_finishPromiseResolution h hpend found).imp
          (fun _ _ ha => ⟨ha, hn⟩) (fun _ _ hfalse => hfalse.elim)
      | throws =>
        rw [ends_bind]
        refine ends_createNativeError.imp ?_ (fun _ post hfails => href post hfails)
        intro reason middle hmid
        rw [hmid, ends_bind]
        have hpend : engine.IsPromise (PendingResolution.mk mode promise resolution).promise := hpr
        exact (ends_rejectPromiseResolution h hpend reason).imp
          (fun _ _ ha => ⟨ha, hn⟩) (fun _ _ hfalse => hfalse.elim)
      | fails => exact ⟨.refl h _, fun hgr => absurd hlook hgr.2⟩
      | suspended =>
        refine ⟨.refl h _, ?_⟩
        intro p hp
        rw [← mem_some_iff.mp hp]
        exact hpr

theorem ends_beginPromiseReactionSettlement (h : engine.WellLinked) {capability : Value}
    (hcapability : (∃ resolve reject, host.capabilityKind capability = .generic resolve reject) ∨
      engine.IsPromise capability) (granted : Bool) (argument : Value) (reject : Bool)
    (answers : ResolutionAnswers) :
    Ends (beginPromiseReactionSettlement host granted capability argument reject answers)
      (fun pending post => engine.Resolved capability.asHeapRef post ∧
        ∀ p ∈ pending, engine.IsPromise p.promise)
      (fun _ post => engine.Resolved capability.asHeapRef post ∧
      ¬ (granted = true ∧ answers.Granted))
      engine := by
  have hn : ∀ p ∈ (none : Option PendingResolution), engine.IsPromise p.promise :=
    fun p hp => nomatch hp
  rw [beginPromiseReactionSettlement]
  split
  · split
    · exact ⟨.refl h _, hn⟩
    · next href => exact ⟨.refl h _, fun hgr => absurd hgr.1 href⟩
  next hk =>
    have hpr : engine.IsPromise capability :=
      hcapability.resolve_left fun ⟨resolve, reject, heq⟩ => hk resolve reject heq
    split
    · rw [ends_bind]
      refine (ends_settle_promise h hpr (by decide) argument).imp ?_ (fun _ _ hfalse => hfalse.elim)
      intro _ post ha
      exact ⟨ha.finishActive, hn⟩
    · exact (ends_beginPromiseResolution h hpr argument .reaction answers).imp (fun _ _ ha => ha)
        (fun _ _ hfails => ⟨hfails.1, fun hgr => hfails.2 hgr.2⟩)

/-! ## Pairs -/

/-- The pairs that are called stay called, and no pair changes its promise. -/
structure CellsKept (before post : List PromiseResolutionCell) : Prop where
  length : post.length = before.length
  record : ∀ {cell : Nat} {record : PromiseResolutionCell}, before[cell]? = some record →
    ∃ record', post[cell]? = some record' ∧
    record'.promise = record.promise ∧ (record.alreadyResolved = true →
      record'.alreadyResolved = true)

theorem CellsKept.refl (cells : List PromiseResolutionCell) : CellsKept cells cells :=
  ⟨rfl, fun h => ⟨_, h, rfl, id⟩⟩

/-- Nothing that code does with a pair counts any more. -/
def IsUsed (engine : PromiseEngine) (cell : Nat) : Prop :=
  ∃ rec, engine.cells[cell]? = some rec ∧
    (rec.alreadyResolved = true ∨ engine.IsSettled rec.promise)

/-- A resolution through a pair, which uses this pair up, or of a promise alone. -/
structure Acts (engine : PromiseEngine) (tgt : Option RawHeapRef) (called : Option Nat)
    (post : PromiseEngine) : Prop where
  linked : post.WellLinked
  resolves : Resolves engine.view tgt post.view
  cells : CellsKept engine.cells post.cells
  used : ∀ cell ∈ called, post.IsUsed cell

variable {tgt : Option RawHeapRef} {post : PromiseEngine}

theorem Resolved.acts (h : engine.Resolved tgt post) : engine.Acts tgt none post :=
  ⟨h.linked, h.resolves, by rw [h.cells]; exact .refl _, fun _ hcell => nomatch hcell⟩

/-- The engine behind the first call of a pair. -/
def claim (engine : PromiseEngine) (cell : Nat) (rec : PromiseResolutionCell) : PromiseEngine :=
  { engine with cells := engine.cells.set cell { rec with alreadyResolved := true } }

variable {cell : Nat} {rec : PromiseResolutionCell}

theorem ends_claimPromiseResolver (hf : engine.cells[cell]? = some rec) :
    Ends (claimPromiseResolver cell) (fun promise post =>
        (rec.alreadyResolved = true ∧ promise = none ∧ post = engine) ∨
          (rec.alreadyResolved = false ∧ promise = some rec.promise ∧ post = engine.claim cell rec))
      (fun _ _ => False) engine := by
  rw [claimPromiseResolver, ends_bind, ends_get, hf]
  simp only
  split
  · next hclaimed => exact .inl ⟨hclaimed, rfl, rfl⟩
  · next hopen => exact .inr ⟨by simpa using hopen, rfl, rfl⟩

theorem Acts.of_claim (hf : engine.cells[cell]? = some rec)
    (h : (engine.claim cell rec).Resolved tgt post) : engine.Acts tgt (some cell) post where
  linked := h.linked
  resolves := h.resolves
  cells := by
    have hlt : cell < engine.cells.length := (List.getElem?_eq_some_iff.mp hf).1
    rw [h.cells]
    refine ⟨List.length_set, ?_⟩
    intro other rec' ho
    by_cases heq : other = cell
    · rw [heq, hf] at ho
      cases ho
      refine ⟨{ rec with alreadyResolved := true }, ?_, rfl, fun _ => rfl⟩
      rw [heq, claim, List.getElem?_set_self hlt]
    · refine ⟨rec', ?_, rfl, id⟩
      rw [claim, List.getElem?_set_ne (Ne.symm heq)]
      exact ho
  used := by
    intro other ho
    cases ho
    refine ⟨{ rec with alreadyResolved := true }, ?_, .inl rfl⟩
    rw [h.cells, claim, List.getElem?_set_self (List.getElem?_eq_some_iff.mp hf).1]

theorem Acts.finishActive {called : Option Nat} (h : engine.Acts tgt called post) :
    engine.Acts tgt called (post.modifyQueue PromiseJobQueue.finishActive) where
  linked := h.linked.of_same rfl rfl
  resolves := by
    exact h.resolves
  cells := h.cells
  used := h.used

/-- A pair that was called acts no more. -/
theorem Acts.of_claimed (h : engine.WellLinked) (hf : engine.cells[cell]? = some rec)
    (hclaimed : rec.alreadyResolved = true) (tgt : Option RawHeapRef) :
    engine.Acts tgt (some cell) engine where
  linked := h
  resolves := .same
  cells := .refl _
  used := by
    intro other ho
    cases ho
    exact ⟨rec, hf, .inl hclaimed⟩

end PromiseEngine

/-! ## Actions -/

namespace PromiseAction

/-- The actions that resolve promises, where what they resolve is a promise. -/
def Able (host : PromiseHost) (engine : PromiseEngine) : PromiseAction → Prop
  | createPromise _ _ _ | createPair _ _ | register _ _ _ _ _ | checkpoint _ _ => False
  | callResolver cell _ _ _ | executorThrows cell _ | executorFails cell _ | thenableThrows
      cell _ =>
    ∃ rec, engine.cells[cell]? = some rec ∧ engine.IsPromise rec.promise
  | resolve promise _ _ _ => engine.IsPromise promise
  | lookupReturns pending _ | lookupThrows pending _ => engine.IsPromise pending.promise
  | settle _ st _ => st ≠ .pending
  | settleReaction _ capability _ _ _ =>
    (∃ resolve reject, host.capabilityKind capability = .generic resolve reject) ∨
    engine.IsPromise capability
  | finishJob => True

variable {engine : PromiseEngine} {host : PromiseHost}

/-- What a resolving action does and reports. -/
def Reports (engine : PromiseEngine) (action : PromiseAction) (report : ActionReport)
    (post : PromiseEngine) :
    Prop :=
  engine.Acts ((action.target engine).bind Value.asHeapRef) action.pair post ∧
    report.dispatch = none ∧
    ∀ p ∈ report.pending, engine.IsPromise p.promise

variable {action : PromiseAction}

variable {post : PromiseEngine}

theorem reports_none (h : engine.Acts ((action.target engine).bind Value.asHeapRef) action.pair
    post) : Reports engine action .none post :=
  ⟨h, rfl, fun _ hp => nomatch hp⟩

theorem reports_of_target {promise : Value} {report : ActionReport} (ht : action.target engine =
    some promise) (hacts : engine.Acts promise.asHeapRef action.pair post) (hdispatch :
    report.dispatch = none) (hpend : ∀ p ∈ report.pending, engine.IsPromise p.promise) :
    Reports engine action report post := by
  refine ⟨?_, hdispatch, hpend⟩
  rw [ht]
  exact hacts

/-- A settlement through a pair. -/
theorem ends_claim_settle (h : engine.WellLinked) {cell : Nat} {rec : PromiseResolutionCell}
    (hf : engine.cells[cell]? = some rec) (hp : engine.IsPromise rec.promise) (reason : Value) :
    Ends (do match ← claimPromiseResolver cell with
          | none => pure ()
          | some promise => settlePromise promise .rejected reason)
      (fun _ post => engine.Acts rec.promise.asHeapRef (some cell) post)
      (fun _ _ => False) engine := by
  have hlk : (engine.claim cell rec).WellLinked := h.of_same rfl rfl
  have hclaimed' : (engine.claim cell rec).IsPromise rec.promise := hp
  rw [ends_bind]
  refine (ends_claimPromiseResolver hf).imp ?_ (fun _ _ hfalse => hfalse.elim)
  rintro _ middle (⟨hclaimed, rfl, rfl⟩ | ⟨_, rfl, rfl⟩)
  · exact .of_claimed h hf hclaimed _
  · exact (ends_settle_promise hlk hclaimed' (by decide) reason).imp
      (fun _ _ ha => .of_claim hf ha) (fun _ _ hfalse => hfalse.elim)

theorem ends_run (h : engine.WellLinked) (hable : action.Able host engine) :
    Ends (action.run host) (Reports engine action)
      (fun _ post => engine.Acts ((action.target engine).bind Value.asHeapRef) action.pair post)
      engine := by
  cases action with
  | createPromise _ _ _ | createPair _ _ | register _ _ _ _ _ | checkpoint _ _ => exact hable.elim
  | callResolver cell reject resolution answers =>
    obtain ⟨rec, hf, hpr⟩ := hable
    have ht : target engine (callResolver cell reject resolution answers) = some rec.promise := by
      rw [target, hf, map_some]
    have hn : ∀ p ∈ (none : Option PendingResolution), engine.IsPromise p.promise :=
      fun p hp => nomatch hp
    rw [ht, run, ends_bind, beginPromiseResolverCall, ends_bind]
    refine (ends_claimPromiseResolver hf).imp ?_ (fun _ _ hfalse => hfalse.elim)
    rintro _ middle (⟨hclaimed, rfl, rfl⟩ | ⟨_, rfl, rfl⟩)
    · exact reports_of_target ht (.of_claimed h hf hclaimed _) rfl hn
    · have hlk : (engine.claim cell rec).WellLinked := h.of_same rfl rfl
      have hclaimed : (engine.claim cell rec).IsPromise rec.promise := hpr
      simp only
      split
      · rw [ends_bind]
        exact (ends_settle_promise hlk hclaimed (by decide) resolution).imp
          (fun _ _ ha => reports_of_target ht (.of_claim hf ha) rfl hn)
          (fun _ _ hfalse => hfalse.elim)
      · refine (ends_beginPromiseResolution hlk hclaimed resolution _ answers).imp ?_
          (fun _ _ hfails => .of_claim hf hfails.1)
        rintro pending post ⟨ha, hpend⟩
        exact reports_of_target ht (.of_claim hf ha) rfl hpend
  | executorThrows cell reason =>
    obtain ⟨rec, hf, hpr⟩ := hable
    have ht : target engine (executorThrows cell reason) = some rec.promise := by
      rw [target, hf, map_some]
    rw [run, ends_bind]
    exact (ends_claim_settle h hf hpr reason).imp
      (fun _ _ ha => reports_of_target ht ha rfl fun _ hp => nomatch hp)
      (fun _ _ hfalse => hfalse.elim)
  | executorFails cell thrown =>
    obtain ⟨rec, hf, hpr⟩ := hable
    have ht : target engine (executorFails cell thrown) = some rec.promise := by
      rw [target, hf, map_some]
    rw [run, ends_bind, ends_get, hf]
    rw [ends_bind]
    refine (ends_settle h rec.promise (by decide) thrown).imp ?_
      (fun _ _ hfails => absurd hpr hfails.2)
    -- the cell stays as it was
    rintro _ post ⟨ha, hset⟩
    refine reports_of_target ht ⟨ha.linked, ha.resolves, ha.acts.cells, ?_⟩ rfl
      fun _ hp => nomatch hp
    intro other ho
    cases ho
    exact ⟨rec, by rw [ha.cells]; exact hf, .inr hset⟩
  | thenableThrows cell reason =>
    obtain ⟨rec, hf, hpr⟩ := hable
    have ht : target engine (thenableThrows cell reason) = some rec.promise := by
      rw [target, hf, map_some]
    have hfinal : ∀ post, engine.Acts rec.promise.asHeapRef (some cell) post →
        Reports engine (thenableThrows cell reason) .none
          (post.modifyQueue PromiseJobQueue.finishActive) := fun post ha =>
      reports_of_target ht ha.finishActive rfl fun _ hp => nomatch hp
    have hsettle := ends_claim_settle h hf hpr reason
    rw [run, ends_bind, rejectPromiseThenable]
    rw [ends_bind] at hsettle ⊢
    refine hsettle.imp ?_ (fun _ _ hfalse => hfalse.elim)
    intro claimed middle hmid
    cases claimed with
    | none => exact hfinal middle hmid
    | some promise =>
      rw [ends_bind]
      exact hmid.imp (fun _ post ha => hfinal post ha) (fun _ _ hfalse => hfalse.elim)
  | resolve promise resolution mode answers =>
    rw [run, ends_bind]
    refine (ends_beginPromiseResolution h hable resolution mode answers).imp ?_
      (fun _ _ hfails => hfails.1.acts)
    rintro pending post ⟨ha, hpend⟩
    exact reports_of_target rfl ha.acts rfl hpend
  | lookupReturns pending found =>
    rw [run, ends_bind]
    exact (ends_finishPromiseResolution h hable found).imp
      (fun _ _ ha => reports_none ha.acts) (fun _ _ hfalse => hfalse.elim)
  | lookupThrows pending reason =>
    rw [run, ends_bind]
    exact (ends_rejectPromiseResolution h hable reason).imp
      (fun _ _ ha => reports_none ha.acts) (fun _ _ hfalse => hfalse.elim)
  | settle promise st res =>
    rw [run, ends_bind]
    exact (ends_settle h promise hable res).imp
      (fun _ _ ha => reports_none ha.1.acts) (fun _ _ hfails => hfails.1.acts)
  | settleReaction granted capability argument reject answers =>
    rw [run, ends_bind]
    refine (ends_beginPromiseReactionSettlement h hable granted argument reject answers).imp ?_
      (fun _ _ hfails => hfails.1.acts)
    rintro pending post ⟨ha, hpend⟩
    exact reports_of_target rfl ha.acts rfl hpend
  | finishJob =>
    exact reports_none (PromiseEngine.Resolved.refl h _).finishActive.acts

end PromiseAction

/-! ## Registrations -/

namespace PromiseEngine

variable {engine : PromiseEngine} {host : PromiseHost}

/-- The two reactions of a registration. -/
def bindingsOf (onFulfilled onRejected : Option Value) (capability : Value) (rejected : Bool) :
    PromiseBinding :=
  ⟨(if rejected then onRejected else onFulfilled).getD .undefined, capability⟩

/-- What a registration leaves: reactions that wait, or a job. -/
inductive Registers (engine : PromiseEngine) (source : Value) (bindings : Bool → PromiseBinding) :
    PromiseEngine → Prop
  | refused : Registers engine source bindings engine
  | waits {post : PromiseEngine} {reference : RawHeapRef} {object : PromiseObject}
      {sides : List Bool}
      (href : source.asHeapRef = some reference) (hf : engine.promises reference = some object)
      (hpend : object.state = .pending) (hsides : sides <+: [false, true])
      (hbecomes : engine.Becomes
        (sides.foldl (fun all side => all.append reference side (bindings side)) engine.view) post)
      (harena : post.reactions.map PromiseReaction.binding =
        engine.reactions.map PromiseReaction.binding ++ sides.map bindings) :
      Registers engine source bindings post
  | queues {reference : RawHeapRef} {object : PromiseObject}
      (href : source.asHeapRef = some reference)
      (hf : engine.promises reference = some object) (hset : object.state ≠ .pending) :
      Registers engine source bindings (engine.modifyQueue
        (·.push ((bindings (object.state = .rejected)).job object.result (object.state =
          .rejected))))

/-- One reaction is linked, unless memory is refused. -/
theorem ends_appendPromiseReaction (h : engine.WellLinked) {source : Value} {ref : RawHeapRef}
    {obj : PromiseObject} (href : source.asHeapRef = some ref)
    (hf : engine.promises ref = some obj) (hpend : obj.state = .pending) (granted : Bool)
    (capability : Value) (handler : Option Value) (rejected : Bool) :
    Ends (appendPromiseReaction granted source capability handler rejected)
      (fun _ post => engine.Becomes
          (engine.view.append ref rejected ⟨handler.getD .undefined, capability⟩) post ∧
        post.reactions.map PromiseReaction.binding =
          engine.reactions.map PromiseReaction.binding ++ [⟨handler.getD .undefined, capability⟩] ∧
        ∃ obj', post.promises ref = some obj' ∧ obj'.state = .pending)
      (fun _ post => post = engine) engine := by
  rw [appendPromiseReaction]
  split
  · rw [ends_bind]
    refine (ends_promiseSnapshot source).imp ?_ (fun _ _ hfails => hfails.1)
    rintro ⟨other, obj'⟩ middle ⟨hmid, href', hf'⟩
    rw [href] at href'
    cases href'
    rw [hf] at hf'
    cases hf'
    rw [hmid, ends_bind]
    have hn : PromiseReaction.next ⟨handler.getD .undefined, capability, none⟩ = none := rfl
    refine ⟨becomes_append h hf hpend rejected hn, ?_, ?_⟩
    · exact map_linkBehind binding_setNext _ _ _
    · refine ⟨_, if_pos rfl, ?_⟩
      rw [← hpend]
      cases rejected <;> rfl
  · exact rfl

theorem ends_performPromiseThen (h : engine.WellLinked) (mem : Bool → Bool) (source : Value)
    (onFulfilled onRejected : Option Value) (capability : Value) :
    Ends (performPromiseThenWithCapability mem source onFulfilled onRejected capability)
      (fun _ post => engine.Registers source (bindingsOf onFulfilled onRejected capability) post)
      (fun _ post => engine.Registers source (bindingsOf onFulfilled onRejected capability) post)
      engine := by
  rw [performPromiseThenWithCapability, ends_bind]
  refine (ends_promiseSnapshot source).imp ?_ ?_
  · rintro ⟨ref, obj⟩ middle ⟨hmid, href, hf⟩
    rw [hmid]
    simp only
    cases hst : obj.state with
    | pending =>
      rw [ends_bind]
      refine (ends_appendPromiseReaction h href hf hst (mem false) capability onFulfilled false).imp
        ?_ (fun _ post ha => by rw [ha]; exact .refused)
      rintro _ first ⟨hfirst, harena, obj', hf', hpend'⟩
      refine (ends_appendPromiseReaction hfirst.linked href hf' hpend' (mem true) capability
        onRejected
        true).imp ?_ ?_
      · rintro _ second ⟨hsec, harena', _⟩
        rw [hfirst.view] at hsec
        rw [harena, List.append_assoc] at harena'
        exact .waits href hf hst (List.prefix_refl [false, true]) (hfirst.trans hsec) harena'
      · intro _ second hsec
        rw [hsec]
        exact .waits href hf hst (⟨[true], rfl⟩ : [false] <+: [false, true]) hfirst harena
    | fulfilled | rejected =>
      have hset : obj.state ≠ .pending := by
        rw [hst]
        decide
      have hqueues : engine.Registers source (bindingsOf onFulfilled onRejected capability) _ :=
        .queues href hf hset
      rw [hst] at hqueues
      exact hqueues
  · rintro _ post ⟨ha, _⟩
    rw [ha]
    exact .refused

end PromiseEngine

/-! ## Steps of the checkpoint -/

def CheckpointAnswers.Granted (answers : CheckpointAnswers) : Prop :=
  answers.site = true ∧ answers.arguments = true ∧ answers.resolution.Granted

namespace PromiseEngine

variable {engine : PromiseEngine} {host : PromiseHost}

/-- The engine behind the first job. -/
def popped (engine : PromiseEngine) (result : Value) : PromiseEngine :=
  engine.modifyQueue fun queue => (queue.beginCheckpoint result).beginNext.2

theorem jobs_beginCheckpoint (queue : PromiseJobQueue) (res : Value) :
    (queue.beginCheckpoint res).jobs = queue.jobs := by
  rw [PromiseJobQueue.beginCheckpoint]
  split
  · rfl
  · rfl

theorem view_popped (engine : PromiseEngine) (res : Value) :
    (engine.popped res).view = { engine.view with jobs := engine.queue.jobs.tail } := by
  rw [popped, view_modifyQueue]
  simp only [PromiseJobQueue.beginNext, jobs_beginCheckpoint]

/-- The pairs behind a job. The job of a thenable makes one. -/
def CellsOf (engine : PromiseEngine) (job : PromiseJob) (post : PromiseEngine) : Prop :=
  post.cells = engine.cells ∨ ∃ promise thenable found, job = .thenable promise thenable found ∧
    post.cells = engine.cells ++ [⟨promise, false⟩]

/-- What a job starts, behind the queue without it. -/
structure Starts (engine : PromiseEngine) (job : PromiseJob) (rest : List PromiseJob)
    (tgt : Option RawHeapRef) (post : PromiseEngine) : Prop where
  linked : post.WellLinked
  resolves : Resolves { engine.view with jobs := rest } tgt post.view
  cells : engine.CellsOf job post

end PromiseEngine

/-- The promise that a job resolves itself. -/
def PromiseJob.target : PromiseJob → Option Value
  | .reaction _ capability _ _ => some capability
  | .thenable _ _ _ => none

namespace PromiseAction

variable {engine : PromiseEngine} {host : PromiseHost}

variable {job : PromiseJob} {rest : List PromiseJob}

theorem target_checkpoint (hjobs : engine.queue.jobs = job :: rest) (res : Value) (answers :
    CheckpointAnswers) : target engine (checkpoint res answers) = job.target := by
  rw [target, hjobs]
  cases job with
  | reaction _ _ _ _ | thenable _ _ _ => rfl

theorem ends_requireGranted {granted : Bool} {err : PromiseError} :
    Ends (requireGranted granted err) (fun _ post => post = engine)
      (fun _ post => post = engine ∧ granted = false) engine := by
  rw [requireGranted]
  split
  · exact rfl
  · next h => exact ⟨rfl, by simpa using h⟩

theorem ends_createPair (granted : Bool) (promise : Value) :
    Ends (createPromiseCapabilityArguments granted promise)
      (fun _ post => post = { engine with cells := engine.cells ++ [⟨promise, false⟩] })
      (fun _ post => post = engine ∧ granted = false) engine := by
  rw [createPromiseCapabilityArguments, ends_bind]
  split
  · exact rfl
  · next h => exact ⟨rfl, by simpa using h⟩

/-- What a reaction starts with. -/
theorem dispatchOf_reaction (host : PromiseHost) (handler capability argument : Value)
    (rejected : Bool) :
    (∃ kind, dispatchOf host (.reaction handler capability argument rejected) =
        .resumes kind capability argument rejected) ∨
      (dispatchOf host (.reaction handler capability argument rejected) = .passes capability
      argument rejected ∧
        ((∃ resolve reject, host.capabilityKind capability = .generic resolve reject) ∨
          host.capabilityKind capability = .promise)) ∨
      dispatchOf host (.reaction handler capability argument rejected) = .calls handler capability
      argument := by
  simp only [dispatchOf]
  split
  next resolve reject hk =>
    split
    · exact .inr (.inr rfl)
    · exact .inr (.inl ⟨rfl, .inl ⟨resolve, reject, hk⟩⟩)
  next hk =>
    split
    · exact .inr (.inr rfl)
    · exact .inr (.inl ⟨rfl, .inr hk⟩)
  · exact .inl ⟨_, rfl⟩

/-- A step of the checkpoint takes the first job and starts it. -/
theorem ends_checkpoint (h : engine.WellLinked) (hjobs : engine.queue.jobs = job :: rest) (hjob : ∀
    val, job.target = some val → host.capabilityKind val = .promise → engine.IsPromise val) (res :
    Value) (answers : CheckpointAnswers) : Ends (run host (checkpoint res answers))
      (fun report post => engine.Starts job rest (job.target.bind Value.asHeapRef) post ∧
        report.dispatch = some (dispatchOf host job) ∧ ∀ p ∈ report.pending,
        engine.IsPromise p.promise)
      (fun _ post => engine.Starts job rest (job.target.bind Value.asHeapRef) post ∧
      ¬ answers.Granted)
      engine := by
  have hview : (engine.popped res).view = { engine.view with jobs := rest } := by
    rw [view_popped, hjobs, List.tail_cons]
  have hlk : (engine.popped res).WellLinked := h.of_same rfl rfl
  have hn : (engine.queue.beginCheckpoint res).beginNext.1 = some job := by
    rw [PromiseJobQueue.beginNext, jobs_beginCheckpoint, hjobs, List.head?_cons]
  -- what does not resolve a promise leaves the queue without the job
  have hs : ∀ post : PromiseEngine, post.WellLinked → post.view = (engine.popped res).view →
      engine.CellsOf job post → engine.Starts job rest (job.target.bind Value.asHeapRef) post := by
    intro post ha hafterView hcells
    refine ⟨ha, ?_, hcells⟩
    rw [hafterView, hview]
    exact .same
  have hpopped : engine.Starts job rest (job.target.bind Value.asHeapRef) (engine.popped res) :=
    hs _ hlk rfl (.inl rfl)
  rw [run, ends_bind, promiseCheckpointStep, ends_bind, ends_modify, ends_bind, ends_get, ends_bind,
    ends_modify]
  have hst : (engine.modifyQueue fun queue => queue.beginCheckpoint res).modifyQueue
      (fun queue => queue.beginNext.2) = engine.popped res := rfl
  rw [hst]
  have hqueue : (engine.modifyQueue fun queue => queue.beginCheckpoint res).queue =
      engine.queue.beginCheckpoint res := rfl
  rw [hqueue, hn]
  simp only
  cases job with
  | thenable promise thenable found =>
    rw [ends_bind]
    refine (ends_createPair answers.arguments promise).imp ?_ ?_
    · intro _ middle hmid
      have hpair : engine.Starts (.thenable promise thenable found) rest
          ((PromiseJob.thenable promise thenable found).target.bind Value.asHeapRef) middle := by
        rw [hmid]
        exact hs _ (hlk.of_same rfl rfl) (view_of_same rfl rfl)
          (.inr ⟨promise, thenable, found, rfl, rfl⟩)
      rw [ends_bind]
      refine ends_requireGranted.imp ?_ ?_
      · intro _ post ha
        rw [ha]
        exact ⟨hpair, rfl, fun _ hp => nomatch hp⟩
      · rintro _ post ⟨ha, href⟩
        rw [ha]
        exact ⟨hpair, fun hgr => absurd (href.symm.trans hgr.1) Bool.false_ne_true⟩
    · rintro _ post ⟨ha, href⟩
      rw [ha]
      exact ⟨hpopped, fun hgr => absurd (href.symm.trans hgr.2.1) Bool.false_ne_true⟩
  | reaction handler capability argument rejected =>
    rcases dispatchOf_reaction host handler capability argument rejected with
      ⟨kind, hdispatch⟩ | ⟨hdispatch, hk⟩ | hdispatch
    · rw [hdispatch]
      refine ⟨hs _ (hlk.of_same rfl rfl) ?_ (.inl rfl), rfl, fun _ hp => nomatch hp⟩
      exact view_modifyQueue (engine.popped res) _
    · rw [hdispatch]
      rw [ends_bind]
      refine ends_requireGranted.imp ?_ ?_
      · intro _ middle hmid
        rw [hmid, ends_bind]
        -- the settlement runs behind the queue without the job
        have hstarts : ∀ post, (engine.popped res).Resolved capability.asHeapRef post →
            engine.Starts (.reaction handler capability argument rejected) rest capability.asHeapRef
              post := by
          intro post ha
          refine ⟨ha.linked, ?_, .inl ha.cells⟩
          have hrs := ha.resolves
          rw [hview] at hrs
          exact hrs
        have hcapability : (∃ resolve reject, host.capabilityKind capability = .generic resolve
          reject) ∨
            (engine.popped res).IsPromise capability :=
          hk.imp (fun hgeneric => hgeneric) (fun hpr => hjob capability rfl hpr)
        refine (ends_beginPromiseReactionSettlement hlk hcapability answers.arguments argument
          rejected answers.resolution).imp ?_ ?_
        · rintro pending post ⟨ha, hpend⟩
          exact ⟨hstarts post ha, rfl, hpend⟩
        · rintro _ post ⟨ha, hfails⟩
          exact ⟨hstarts post ha, fun hgr => hfails hgr.2⟩
      · rintro _ post ⟨ha, href⟩
        rw [ha]
        exact ⟨hpopped, fun hgr => absurd (href.symm.trans hgr.1) Bool.false_ne_true⟩
    · rw [hdispatch]
      rw [ends_bind]
      refine ends_requireGranted.imp ?_ ?_
      · intro _ middle hmid
        rw [hmid, ends_bind]
        refine ends_requireGranted.imp ?_ ?_
        · intro _ post ha
          rw [ha]
          exact ⟨hpopped, rfl, fun _ hp => nomatch hp⟩
        · rintro _ post ⟨ha, href⟩
          rw [ha]
          exact ⟨hpopped, fun hgr => absurd (href.symm.trans hgr.1) Bool.false_ne_true⟩
      · rintro _ post ⟨ha, href⟩
        rw [ha]
        exact ⟨hpopped, fun hgr => absurd (href.symm.trans hgr.2.1) Bool.false_ne_true⟩

/-- Without jobs a step of the checkpoint changes none of the lists. -/
theorem ends_checkpoint_empty (h : engine.WellLinked) (hjobs : engine.queue.jobs = []) (res : Value)
    (answers : CheckpointAnswers) : Ends (run host (checkpoint res answers))
      (fun report post => (post.WellLinked ∧ post.view = engine.view ∧ post.cells = engine.cells) ∧
        report = .none) (fun _ _ => False) engine := by
  have hview : (engine.popped res).view = engine.view := by
    rw [view_popped, hjobs, List.tail_nil]
    simp only [view, hjobs]
  have hlk : (engine.popped res).WellLinked := h.of_same rfl rfl
  have hn : (engine.queue.beginCheckpoint res).beginNext.1 = none := by
    rw [PromiseJobQueue.beginNext, jobs_beginCheckpoint, hjobs, List.head?_nil]
  rw [run, ends_bind, promiseCheckpointStep, ends_bind, ends_modify, ends_bind, ends_get, ends_bind,
    ends_modify]
  have hst : (engine.modifyQueue fun queue => queue.beginCheckpoint res).modifyQueue
      (fun queue => queue.beginNext.2) = engine.popped res := rfl
  rw [hst]
  have hqueue : (engine.modifyQueue fun queue => queue.beginCheckpoint res).queue =
      engine.queue.beginCheckpoint res := rfl
  rw [hqueue, hn]
  simp only
  split
  · exact ⟨⟨hlk, hview, rfl⟩, rfl⟩
  · refine ⟨⟨hlk.of_same rfl rfl, ?_, rfl⟩, rfl⟩
    exact (view_modifyQueue (engine.popped res) _).trans hview

end PromiseAction

end TachyonEngine.Vm
