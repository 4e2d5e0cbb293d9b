import TachyonEngine.Vm.PromiseLedger
import TachyonEngine.Vm.PromiseSteps

/-!
# The invariant of sessions

In every session that a run reaches the records are linked, the ledger speaks of their lists, and
what jobs and pairs are about are promises. A pair that was called is used up, unless its promise is
settled.
-/

namespace TachyonEngine.Vm

open PromiseEngine PromiseAction List Option

open Gc (RawHeapRef)
open Lib Lib.Attempt Promises

namespace PromiseSession

/-- What a job resolves itself is a promise, and so is what a thenable is called for. -/
def ProperJob (host : PromiseHost) (all : Promises) : PromiseJob → Prop
  | .reaction _ capability _ _ =>
    host.capabilityKind capability = .promise → (capability.asHeapRef.bind all.promises).isSome
  | .thenable promise _ _ => (promise.asHeapRef.bind all.promises).isSome

structure Proper (host : PromiseHost) (all : Promises) : Prop where
  jobs : ∀ job ∈ all.jobs, ProperJob host all job
  waiting : ∀ {ref view}, all.promises ref = some view → ∀ rejected,
    ∀ binding ∈ view.waiting rejected, host.capabilityKind binding.capability = .promise →
      (binding.capability.asHeapRef.bind all.promises).isSome

end PromiseSession

/-- No promise is lost, and the settled ones stay as they are. -/
structure Promises.Grows (before post : Promises) : Prop where
  keeps : ∀ {ref view}, before.promises ref = some view →
    ∃ view', post.promises ref = some view' ∧
      (view.state ≠ .pending → view'.state = view.state ∧ view'.result = view.result)

namespace Promises

variable {all post : Promises}

theorem Grows.refl (all : Promises) : all.Grows all := ⟨fun h => ⟨_, h, fun _ => ⟨rfl, rfl⟩⟩⟩

theorem Grows.trans {final : Promises} (h : all.Grows post) (hn : post.Grows final) :
    all.Grows final := by
  constructor
  intro ref view hf
  obtain ⟨view', hf', hkeeps⟩ := h.keeps hf
  obtain ⟨view'', hf'', hkeeps'⟩ := hn.keeps hf'
  refine ⟨view'', hf'', fun hset => ?_⟩
  obtain ⟨hst, hres⟩ := hkeeps hset
  rw [← hst] at hset ⊢
  rw [← hres]
  exact hkeeps' hset

theorem Grows.of_same (h : post.promises = all.promises) : all.Grows post := by
  constructor
  intro ref view hf
  rw [← h] at hf
  exact ⟨view, hf, fun _ => ⟨rfl, rfl⟩⟩

theorem Grows.isSome (h : all.Grows post) {val : Value}
    (hp : (val.asHeapRef.bind all.promises).isSome) :
    (val.asHeapRef.bind post.promises).isSome := by
  obtain ⟨view, hview⟩ := isSome_iff_exists.mp hp
  obtain ⟨ref, href, hf⟩ := bind_eq_some_iff.mp hview
  obtain ⟨view', hf', _⟩ := h.keeps hf
  rw [href, bind_some, hf']
  rfl

theorem grows_settle (all : Promises) (ref : RawHeapRef) (st : PromiseState) (res : Value) :
    all.Grows (all.settle ref st res) := by
  constructor
  intro other view hf
  cases hcase : all.promises ref with
  | none => exact ⟨view, by simpa only [Promises.settle, hcase] using hf, fun _ => ⟨rfl, rfl⟩⟩
  | some found =>
    by_cases hpend : found.state = .pending
    · by_cases heq : other = ref
      · rw [heq, hcase] at hf
        cases hf
        refine ⟨⟨st, res, fun _ => []⟩, ?_, fun hset => absurd hpend hset⟩
        simp only [Promises.settle, hcase, if_pos hpend]
        exact if_pos heq
      · refine ⟨view, ?_, fun _ => ⟨rfl, rfl⟩⟩
        simp only [Promises.settle, hcase, if_pos hpend]
        exact (if_neg heq).trans hf
    · refine ⟨view, ?_, fun _ => ⟨rfl, rfl⟩⟩
      simpa only [Promises.settle, hcase, if_neg hpend] using hf

theorem grows_append (all : Promises) (ref : RawHeapRef) (rejected : Bool)
    (binding : PromiseBinding) :
    all.Grows (all.append ref rejected binding) := by
  constructor
  intro other view hf
  cases hcase : all.promises ref with
  | none => exact ⟨view, by simpa only [Promises.append, hcase] using hf, fun _ => ⟨rfl, rfl⟩⟩
  | some found =>
    by_cases heq : other = ref
    · rw [heq, hcase] at hf
      cases hf
      simp only [Promises.append, hcase]
      exact ⟨_, if_pos heq, fun _ => ⟨rfl, rfl⟩⟩
    · simp only [Promises.append, hcase]
      exact ⟨view, (if_neg heq).trans hf, fun _ => ⟨rfl, rfl⟩⟩

theorem grows_create {ref : RawHeapRef} (hfr : all.promises ref = none) (st : PromiseState)
    (res : Value) : all.Grows (all.create ref st res) := by
  constructor
  intro other view hf
  have hne : other ≠ ref := by
    rintro rfl
    rw [hfr] at hf
    cases hf
  exact ⟨view, (if_neg hne).trans hf, fun _ => ⟨rfl, rfl⟩⟩

theorem grows_resolves {tgt : Option RawHeapRef} (h : Resolves all tgt post) : all.Grows post := by
  cases h with
  | same => exact Grows.refl all
  | settles _ _ => exact grows_settle _ _ _ _
  | queues _ _ _ => exact Grows.of_same rfl

end Promises

namespace PromiseSession

variable {host : PromiseHost} {all post : Promises}

theorem ProperJob.grows {job : PromiseJob} (h : ProperJob host all job) (hgr : all.Grows post) :
    ProperJob host post job := by
  cases job with
  | reaction _ _ _ _ => exact fun hk => hgr.isSome (h hk)
  | thenable _ _ _ => exact hgr.isSome h

section

variable (h : Proper host all)

include h

/-- New jobs, and no new reaction that waits. -/
theorem Proper.of_jobs (hgr : all.Grows post) {added : List PromiseJob}
    (hjobs : post.jobs = all.jobs ++ added) (hadded : ∀ job ∈ added, ProperJob host post job)
    (hwait : ∀ {ref view}, post.promises ref = some view → ∀ rejected,
      ∀ binding ∈ view.waiting rejected, ∃ other view', all.promises other = some view' ∧
        binding ∈ view'.waiting rejected) : Proper host post where
  jobs := by
    intro job hm
    rw [hjobs] at hm
    rcases mem_append.mp hm with hm | hm
    · exact (h.jobs job hm).grows hgr
    · exact hadded job hm
  waiting := by
    intro ref view hf rejected binding hm hk
    obtain ⟨other, view', hf', hm'⟩ := hwait hf rejected binding hm
    exact hgr.isSome (h.waiting hf' rejected binding hm' hk)

theorem Proper.settle (ref : RawHeapRef) (st : PromiseState) (res : Value) :
    Proper host (all.settle ref st res) := by
  have hgr := all.grows_settle ref st res
  refine h.of_jobs hgr (all.jobs_settle ref st res) ?_ ?_
  · intro job hm
    rw [settled] at hm
    split at hm
    · exact absurd hm not_mem_nil
    next view hf =>
      split at hm
      · obtain ⟨binding, hbinding, rfl⟩ := mem_map.mp hm
        exact fun hk => hgr.isSome (h.waiting hf _ binding hbinding hk)
      · exact absurd hm not_mem_nil
  · intro other view hf rejected binding hm
    cases hcase : all.promises ref with
    | none =>
      simp only [Promises.settle, hcase] at hf
      exact ⟨other, view, hf, hm⟩
    | some found =>
      simp only [Promises.settle, hcase] at hf
      split at hf
      · simp only [Promises.push, Promises.set] at hf
        split at hf
        · cases hf
          exact absurd hm not_mem_nil
        · exact ⟨other, view, hf, hm⟩
      · exact ⟨other, view, hf, hm⟩

variable {job : PromiseJob}

theorem Proper.push (hjob : ProperJob host all job) : Proper host (all.push [job]) := by
  refine h.of_jobs (.of_same rfl) rfl ?_ ?_
  · intro other hm
    rw [mem_singleton.mp hm]
    exact hjob
  · intro ref view hf rejected binding hm
    exact ⟨ref, view, hf, hm⟩

theorem Proper.resolves {tgt : Option RawHeapRef} (hrs : Resolves all tgt post) :
    Proper host post := by
  cases hrs with
  | same => exact h
  | settles _ _ => exact h.settle _ _ _
  | queues _ hf href =>
    apply h.push
    rw [ProperJob, href, bind_some, hf]
    rfl

/-- The queue without its first job. -/
theorem Proper.pop {rest : List PromiseJob} (hjobs : all.jobs = job :: rest) :
    Proper host { all with jobs := rest } where
  jobs := fun other hm => h.jobs other (by rw [hjobs]; exact mem_cons_of_mem _ hm)
  waiting := h.waiting

theorem Proper.create {ref : RawHeapRef} (hfr : all.promises ref = none)
    (st : PromiseState) (res : Value) : Proper host (all.create ref st res) := by
  refine h.of_jobs (grows_create hfr st res) (append_nil _).symm
    (fun _ hm => absurd hm not_mem_nil) ?_
  intro other view hf rejected binding hm
  simp only [Promises.create, Promises.set] at hf
  split at hf
  · cases hf
    exact absurd hm not_mem_nil
  · exact ⟨other, view, hf, hm⟩

theorem Proper.append (ref : RawHeapRef) (rejected : Bool) {binding : PromiseBinding}
    (hbinding : host.capabilityKind binding.capability = .promise →
      (binding.capability.asHeapRef.bind all.promises).isSome) :
    Proper host (all.append ref rejected binding) where
  jobs := by
    intro job hm
    have hjobs : (all.append ref rejected binding).jobs = all.jobs := by
      rw [Promises.append]
      split
      · rfl
      · rfl
    rw [hjobs] at hm
    exact (h.jobs job hm).grows (all.grows_append ref rejected binding)
  waiting := by
    intro other view hf side found hm hk
    apply (all.grows_append ref rejected binding).isSome
    cases hcase : all.promises ref with
    | none =>
      simp only [Promises.append, hcase] at hf
      exact h.waiting hf side found hm hk
    | some old =>
      simp only [Promises.append, hcase, Promises.set] at hf
      split at hf
      · cases hf
        simp only at hm
        split at hm
        · rcases mem_append.mp hm with hm | hm
          · exact h.waiting hcase side found hm hk
          · rw [mem_singleton.mp hm] at hk ⊢
            exact hbinding hk
        · exact h.waiting hcase side found hm hk
      · exact h.waiting hf side found hm hk

end

end PromiseSession

/-! ## What a step does -/

namespace PromiseSession

variable {host : PromiseHost} {sess : PromiseSession}

/-- An action takes a job out of the queue. -/
def takesJob : PromiseAction → Bool
  | .checkpoint _ _ => true
  | _ => false

/-- The effects of the actions. An action that fails reports nothing. -/
inductive Effect (host : PromiseHost) (engine : PromiseEngine) :
    PromiseAction → ActionReport → PromiseEngine → Prop
  | refused {action : PromiseAction} (hpair : action.pair = none) (hjob : takesJob action = false) :
      Effect host engine action .none engine
  | creates {ref : RawHeapRef} (hfr : engine.promises ref = none) (state : PromiseState)
      (result : Value) :
      Effect host engine (.createPromise (some ref) state result) .none
        (engine.setPromise ref (.mk state result none none none none))
  | pairs {promise : Value} (hp : engine.IsPromise promise) (granted : Bool) :
      Effect host engine (.createPair granted promise) .none
        { engine with cells := engine.cells ++ [⟨promise, false⟩] }
  | acts {action : PromiseAction} {report : ActionReport} {post : PromiseEngine}
      (hable : action.Able host engine) (hreports : action.Reports engine report post) :
      Effect host engine action report post
  | registers {mem : Bool → Bool} {source capability : Value} {onFulfilled onRejected :
      Option Value}
      {post : PromiseEngine} (hsettles : host.capabilityKind capability = .promise →
        engine.IsPromise capability)
      (hregs : engine.Registers source (PromiseEngine.bindingsOf onFulfilled onRejected
        capability) post) :
      Effect host engine (.register mem source onFulfilled onRejected capability) .none post
  | idles {result : Value} {answers : CheckpointAnswers} {post : PromiseEngine}
      (hjobs : engine.queue.jobs = []) (hlk : post.WellLinked) (hview : post.view = engine.view)
      (hcells : post.cells = engine.cells) : Effect host engine
        (.checkpoint result answers) .none post
  | starts {result : Value} {answers : CheckpointAnswers} {report : ActionReport}
      {post : PromiseEngine}
      {job : PromiseJob} {rest : List PromiseJob} (hjobs : engine.queue.jobs = job :: rest)
      (hstarts : engine.Starts job rest (job.target.bind Value.asHeapRef) post)
      (hdispatch : answers.Granted → report.dispatch = some (dispatchOf host job))
      (hpend : ∀ p ∈ report.pending, engine.IsPromise p.promise) :
      Effect host engine (.checkpoint result answers) report post

variable {action : PromiseAction}

/-- A step records the effect of its action. -/
theorem step_of_ends {effect : ActionReport → PromiseEngine → Prop} (h : Ends (action.run host)
    effect (fun _ => effect .none) sess.engine) :
    ∃ report post, effect report post ∧ sess.step host action = sess.record action report post := by
  rw [step]
  simp only [Ends] at h
  split at h
  · next report post hout => exact ⟨report, post, h, by rw [hout]⟩
  · next e post hout => exact ⟨.none, post, h, by rw [hout]⟩

/-! ## The invariant -/

structure Consistent (host : PromiseHost) (sess : PromiseSession) : Prop where
  linked : sess.engine.WellLinked
  ledger : Ledger sess.engine.view sess.log sess.registrations
  proper : Proper host sess.engine.view
  cells : ∀ record ∈ sess.engine.cells, sess.engine.IsPromise record.promise
  lookups : ∀ pending ∈ sess.lookups, sess.engine.IsPromise pending.promise
  called : ∀ cell ∈ sess.called, sess.engine.IsUsed cell

/-- A pair belongs to a promise. -/
theorem Consistent.record (h : sess.Consistent host) {cell : Nat}
    (hcell : cell < sess.engine.cells.length) : ∃ rec, sess.engine.cells[cell]? = some rec ∧
      sess.engine.IsPromise rec.promise :=
  ⟨sess.engine.cells[cell], getElem?_eq_getElem hcell, h.cells _ (getElem_mem hcell)⟩

theorem isPromise_iff (engine : PromiseEngine) (val : Value) :
    engine.IsPromise val ↔ (val.asHeapRef.bind engine.view.promises).isSome := by
  rw [PromiseEngine.IsPromise]
  cases val.asHeapRef with
  | none => rfl
  | some ref => simp only [bind_some, view, isSome_map]

theorem Consistent.effect_of_able (h : sess.Consistent host) (hable : action.Able host sess.engine)
    :
    ∃ report post, Effect host sess.engine action report post ∧
      sess.step host action = sess.record action report post := by
  apply step_of_ends
  exact (ends_run h.linked hable).imp (fun _ _ hreports => .acts hable hreports)
    (fun _ _ hfails => .acts hable (reports_none hfails))

theorem Consistent.effect (h : sess.Consistent host) (henabled : sess.Enabled host action) :
    ∃ report post, Effect host sess.engine action report post ∧
      sess.step host action = sess.record action report post := by
  cases action with
  | createPromise mem st res =>
    apply step_of_ends
    cases mem with
    | none => exact .refused rfl rfl
    | some ref => exact .creates (henabled ref rfl) st res
  | createPair granted promise =>
    apply step_of_ends
    rw [run, ends_bind]
    refine (ends_createPair granted promise).imp ?_ ?_
    · intro _ post ha
      rw [ha]
      exact .pairs henabled granted
    · rintro _ post ⟨ha, _⟩
      rw [ha]
      exact .refused rfl rfl
  | callResolver cell reject resolution answers => exact h.effect_of_able (h.record henabled)
  | executorThrows cell reason => exact h.effect_of_able (h.record henabled)
  | executorFails cell thrown => exact h.effect_of_able (h.record henabled)
  | thenableThrows cell reason => exact h.effect_of_able (h.record henabled)
  | resolve promise resolution mode answers => exact h.effect_of_able henabled
  | lookupReturns pending found => exact h.effect_of_able (h.lookups pending henabled)
  | lookupThrows pending reason => exact h.effect_of_able (h.lookups pending henabled)
  | settle promise st res => exact h.effect_of_able henabled
  | register mem source onFulfilled onRejected capability =>
    apply step_of_ends
    rw [run, ends_bind]
    exact (ends_performPromiseThen h.linked mem source onFulfilled onRejected capability).imp
      (fun _ _ hregs => .registers henabled hregs) (fun _ _ hregs => .registers henabled hregs)
  | checkpoint res answers =>
    apply step_of_ends
    cases hjobs : sess.engine.queue.jobs with
    | nil =>
      refine (ends_checkpoint_empty h.linked hjobs res answers).imp ?_
        (fun _ _ hfalse => hfalse.elim)
      rintro _ post ⟨⟨hlk, hview, hcells⟩, rfl⟩
      exact .idles hjobs hlk hview hcells
    | cons job rest =>
      have hjob : ∀ val, job.target = some val → host.capabilityKind val = .promise →
          sess.engine.IsPromise val := by
        intro val ht hk
        have hproper := h.proper.jobs job (by simp [view, hjobs])
        cases job with
        | reaction handler capability argument rejected =>
          cases ht
          exact (isPromise_iff _ _).mpr (hproper hk)
        | thenable promise thenable found => cases ht
      refine (ends_checkpoint h.linked hjobs hjob res answers).imp ?_ ?_
      · rintro report post ⟨hstarts, hdispatch, hpend⟩
        exact .starts hjobs hstarts (fun _ => hdispatch) hpend
      · rintro _ post ⟨hstarts, href⟩
        exact .starts hjobs hstarts (fun hgr => absurd hgr href) (fun _ hp => by cases hp)
  | settleReaction granted capability argument reject answers => exact h.effect_of_able henabled
  | finishJob =>
    have hable : finishJob.Able host sess.engine := trivial
    exact h.effect_of_able hable

/-! ## What an effect keeps -/

theorem job_logged (origin : Option Value) (job : PromiseJob) : (logged origin job).job = job := by
  cases job with
  | reaction _ _ _ _ | thenable _ _ _ => rfl

end PromiseSession

/-- The jobs of a resolution are those of the promise that it settles. -/
theorem Ledger.resolves {all post : Promises} {log : List LoggedJob} {registrations :
    List Registration} (h : Ledger all log registrations) {origin : Option Value}
    (hrs : Resolves all (origin.bind Value.asHeapRef) post) :
    Ledger post (log ++ (post.jobs.drop all.jobs.length).map (PromiseSession.logged origin))
    registrations := by
  cases hrs with
  | same => simpa using h
  | @settles ref st res ht hst =>
    rw [all.jobs_settle, drop_left]
    have hlogged : (all.settled ref st res).map (PromiseSession.logged origin) =
        (all.settled ref st res).map fun job => ⟨some ref, job⟩ := by
      apply map_congr_left
      intro job hm
      obtain ⟨binding, rfl⟩ : ∃ binding : PromiseBinding, job = binding.job res
        (st = .rejected) := by
        simp only [settled] at hm
        split at hm
        · exact absurd hm not_mem_nil
        · split at hm
          · obtain ⟨binding, _, rfl⟩ := mem_map.mp hm
            exact ⟨binding, rfl⟩
          · exact absurd hm not_mem_nil
      rw [PromiseBinding.job, PromiseSession.logged, ht]
    rw [hlogged]
    exact h.settle hst res
  | queues _ _ _ =>
    rw [Promises.push, drop_left]
    exact h.push _ _

namespace PromiseEngine

/-- No promise is lost, and no pair. -/
structure Evolves (engine post : PromiseEngine) : Prop where
  grows : engine.view.Grows post.view
  kept : ∀ {cell : Nat} {record : PromiseResolutionCell}, engine.cells[cell]? = some record →
    ∃ record', post.cells[cell]? = some record' ∧ record'.promise = record.promise ∧
      (record.alreadyResolved = true → record'.alreadyResolved = true)

variable {engine post : PromiseEngine}

variable {val : Value}

theorem Evolves.isPromise (h : engine.Evolves post) (hp : engine.IsPromise val) :
    post.IsPromise val := by
  rw [PromiseSession.isPromise_iff] at hp ⊢
  exact h.grows.isSome hp

theorem Evolves.isSettled (h : engine.Evolves post) (hset : engine.IsSettled val) :
    post.IsSettled val := by
  rw [isSettled_iff] at hset ⊢
  obtain ⟨view, hview, hst⟩ := hset
  obtain ⟨ref, href, hf⟩ := bind_eq_some_iff.mp hview
  obtain ⟨view', hf', hkeeps⟩ := h.grows.keeps hf
  refine ⟨view', by rw [href]; exact hf', ?_⟩
  rw [(hkeeps hst).1]
  exact hst

theorem Evolves.isUsed (h : engine.Evolves post) {cell : Nat} (hused : engine.IsUsed cell) :
    post.IsUsed cell := by
  obtain ⟨rec, hf, hrec⟩ := hused
  obtain ⟨rec', hf', hp, hres⟩ := h.kept hf
  refine ⟨rec', hf', ?_⟩
  rw [hp]
  exact hrec.imp hres h.isSettled

theorem Evolves.of_cells (hgr : engine.view.Grows post.view) {added : List PromiseResolutionCell}
    (hcells : post.cells = engine.cells ++ added) : engine.Evolves post where
  grows := hgr
  kept := by
    intro cell rec hf
    refine ⟨rec, ?_, rfl, id⟩
    rw [hcells, List.getElem?_append_left (List.getElem?_eq_some_iff.mp hf).1]
    exact hf

theorem Acts.evolves {tgt : Option RawHeapRef} {called : Option Nat}
    (h : engine.Acts tgt called post) :
    engine.Evolves post :=
  ⟨grows_resolves h.resolves, h.cells.record⟩

end PromiseEngine

/-! ## Registrations -/

section Registrations

variable {host : PromiseHost} {all : Promises} {log : List LoggedJob} {registrations :
  List Registration}
  {ref : RawHeapRef} {bindings : Bool → PromiseBinding}

/-- Reactions of one promise that wait, in turn. -/
def Promises.appends (all : Promises) (ref : RawHeapRef) (bindings : Bool → PromiseBinding)
    (sides : List Bool) : Promises :=
  sides.foldl (fun all side => all.append ref side (bindings side)) all

def waitingAt (ref : RawHeapRef) (bindings : Bool → PromiseBinding) (side : Bool) : Registration :=
  ⟨ref, (bindings side).handler, (bindings side).capability, side, true⟩

variable {view : PromiseView}

theorem Promises.append_pending (hf : all.promises ref = some view) (hpend : view.state = .pending)
    (side : Bool) (binding : PromiseBinding) :
    ∃ view', (all.append ref side binding).promises ref = some view' ∧ view'.state = .pending := by
  simp only [Promises.append, hf]
  exact ⟨_, if_pos rfl, hpend⟩

theorem Promises.jobs_append (all : Promises) (ref : RawHeapRef) (side : Bool)
    (binding : PromiseBinding) :
    (all.append ref side binding).jobs = all.jobs := by
  rw [Promises.append]
  split
  · rfl
  · rfl

theorem Promises.jobs_appends (all : Promises) (ref : RawHeapRef) (bindings : Bool → PromiseBinding)
    (sides : List Bool) : (all.appends ref bindings sides).jobs = all.jobs := by
  induction sides generalizing all with
  | nil => rfl
  | cons side rest ih => exact (ih _).trans (all.jobs_append ref side (bindings side))

theorem Promises.grows_appends (all : Promises) (ref : RawHeapRef)
    (bindings : Bool → PromiseBinding)
    (sides : List Bool) : all.Grows (all.appends ref bindings sides) := by
  induction sides generalizing all with
  | nil => exact .refl all
  | cons side rest ih => exact (all.grows_append ref side (bindings side)).trans (ih _)

theorem Ledger.appends (h : Ledger all log registrations) (hf : all.promises ref = some view) (hpend
    : view.state = .pending) (sides : List Bool) :
    Ledger (all.appends ref bindings sides) log
      (registrations ++ sides.map (waitingAt ref bindings)) := by
  induction sides generalizing all registrations view with
  | nil =>
    rw [map_nil, append_nil]
    exact h
  | cons side rest ih =>
    obtain ⟨view', hf', hpend'⟩ := append_pending hf hpend side (bindings side)
    have hrest := ih (h.append hf hpend side (bindings side)) hf' hpend'
    rw [append_assoc] at hrest
    exact hrest

theorem PromiseSession.Proper.appends (h : PromiseSession.Proper host all)
    (hbindings : ∀ side, host.capabilityKind (bindings side).capability = .promise →
      ((bindings side).capability.asHeapRef.bind all.promises).isSome) (sides : List Bool) :
    PromiseSession.Proper host (all.appends ref bindings sides) := by
  induction sides generalizing all with
  | nil => exact h
  | cons side rest ih =>
    refine ih (h.append ref side (hbindings side)) ?_
    intro other hk
    exact (all.grows_append ref side (bindings side)).isSome (hbindings other hk)

namespace PromiseSession

variable {engine post : PromiseEngine} {mem : Bool → Bool} {source capability : Value}
  {onFulfilled onRejected : Option Value}

theorem registered_same : registered engine engine
    (.register mem source onFulfilled onRejected capability) = [] := by
  simp only [registered, drop_length]
  cases source.asHeapRef with
  | none => rfl
  | some ref =>
    simp only
    cases engine.promises ref with
    | none => rfl
    | some obj =>
      simp only
      split
      · rfl
      · rfl

variable {obj : PromiseObject}

/-- The new nodes are the reactions that wait. -/
theorem registered_waits (href : source.asHeapRef = some ref) (hf : engine.promises ref = some obj)
    (hpend : obj.state = .pending) {sides : List Bool} (hsides : sides <+: [false, true]) (harena :
    post.reactions.map PromiseReaction.binding = engine.reactions.map PromiseReaction.binding ++
    sides.map bindings) :
    registered engine post (.register mem source onFulfilled onRejected capability) =
      sides.map (waitingAt ref bindings) := by
  simp only [registered, href, hf, if_pos hpend]
  have hdropped : (post.reactions.drop engine.reactions.length).map PromiseReaction.binding =
      sides.map bindings := by
    rw [map_drop, harena, ← length_map (f := PromiseReaction.binding), drop_left]
  have hzip : zipWith (fun (reaction : PromiseReaction) rejected =>
        (⟨ref, reaction.handler, reaction.capability, rejected, true⟩ : Registration))
        (post.reactions.drop engine.reactions.length) [false, true] =
      zipWith (fun (binding : PromiseBinding) rejected =>
        (⟨ref, binding.handler, binding.capability, rejected, true⟩ : Registration))
        (sides.map bindings) [false, true] := by
    rw [← hdropped, zipWith_map_left]
    rfl
  rw [hzip]
  obtain ⟨more, hmore⟩ := hsides
  rcases sides with _ | ⟨first, _ | ⟨second, _ | ⟨third, rest⟩⟩⟩
  · rfl
  · cases hmore
    rfl
  · cases hmore
    rfl
  · cases hmore

theorem registered_queues (href : source.asHeapRef = some ref) (hf : engine.promises ref = some obj)
    (hset : obj.state ≠ .pending) {binding : PromiseBinding} {rejected : Bool} :
    registered engine (engine.modifyQueue (·.push (binding.job obj.result rejected)))
        (.register mem source onFulfilled onRejected capability) =
      [⟨ref, binding.handler, binding.capability, rejected, false⟩] := by
  simp only [registered, href, hf, if_neg hset, modifyQueue, PromiseJobQueue.push, drop_left]
  rfl

end PromiseSession

end Registrations

/-! ## Steps -/

namespace PromiseSession

variable {host : PromiseHost} {engine post : PromiseEngine} {action : PromiseAction}
  {report : ActionReport}
  {log : List LoggedJob} {registrations : List Registration}

theorem queued_of_able (h : action.Able host engine) :
    queued engine post action = post.queue.jobs.drop engine.queue.jobs.length := by
  cases action with
  | checkpoint _ _ => exact h.elim
  | _ => rfl

theorem registered_of_able (h : action.Able host engine) : registered engine post action = [] := by
  cases action with
  | register _ _ _ _ _ => exact h.elim
  | _ => rfl

theorem queued_same (h : takesJob action = false) (hjobs : post.queue.jobs = engine.queue.jobs) :
    queued engine post action = [] := by
  cases action with
  | checkpoint _ _ => cases h
  | _ =>
    simp only [queued]
    rw [hjobs, drop_length]

theorem registered_self (engine : PromiseEngine) (action : PromiseAction) :
    registered engine engine action = [] := by
  cases action with
  | register _ _ _ _ _ => exact registered_same
  | _ => rfl

theorem queued_checkpoint {job : PromiseJob} {rest : List PromiseJob}
    (hjobs : engine.queue.jobs = job :: rest) (res : Value) (answers : CheckpointAnswers) :
    queued engine post (.checkpoint res answers) = post.queue.jobs.drop rest.length := by
  rw [queued, hjobs, length_cons, Nat.add_sub_cancel]

theorem queued_idles (hjobs : engine.queue.jobs = []) (hview : post.view = engine.view)
    (res : Value)
    (answers : CheckpointAnswers) : queued engine post (.checkpoint res answers) = [] := by
  have ha : post.queue.jobs = [] := (congrArg jobs hview).trans hjobs
  rw [queued, ha, drop_nil]

theorem queued_register {mem : Bool → Bool} {source capability : Value} {onFulfilled onRejected :
    Option Value}
    (job : PromiseJob) : queued engine (engine.modifyQueue (·.push job))
      (.register mem source onFulfilled onRejected capability) = [job] := by
  exact drop_left

section

variable (h : Effect host engine action report post)

include h

theorem Effect.linked (hlk : engine.WellLinked) : post.WellLinked := by
  cases h with
  | refused _ _ => exact hlk
  | creates hfr st res => exact (becomes_create hlk st res).linked
  | pairs _ _ => exact hlk.of_same rfl rfl
  | acts _ hreports => exact hreports.1.linked
  | registers _ hregs =>
    cases hregs with
    | refused => exact hlk
    | waits _ _ _ _ hbecomes _ => exact hbecomes.linked
    | queues _ _ _ => exact hlk.of_same rfl rfl
  | idles _ ha _ _ => exact ha
  | starts _ hstarts _ _ => exact hstarts.linked

omit h in
/-- An action that leaves the queue alone and registers nothing. -/
theorem ledger_same (haction : takesJob action = false)
    (hjobs : post.queue.jobs = engine.queue.jobs)
    (hreg : registered engine post action = []) (hledger : Ledger post.view log registrations) :
    Ledger post.view (log ++ (queued engine post action).map (logged (action.target engine)))
      (registrations ++ registered engine post action) := by
  rw [queued_same haction hjobs, hreg, map_nil, append_nil, append_nil]
  exact hledger

theorem Effect.ledger (hlk : engine.WellLinked) (hledger : Ledger engine.view log registrations) :
    Ledger post.view (log ++ (queued engine post action).map (logged (action.target engine)))
      (registrations ++ registered engine post action) := by
  cases h with
  | refused _ hjob => exact ledger_same hjob rfl (registered_self _ _) hledger
  | creates hfr st res =>
    refine ledger_same rfl rfl rfl ?_
    rw [(becomes_create hlk st res).view]
    exact hledger.create (view_absent hfr) st res
  | pairs _ _ => exact ledger_same rfl rfl rfl (hledger.of_same rfl)
  | acts hable hreports =>
    rw [queued_of_able hable, registered_of_able hable, append_nil]
    exact hledger.resolves hreports.1.resolves
  | registers _ hregs =>
    cases hregs with
    | refused => exact ledger_same rfl rfl registered_same hledger
    | waits href hf hpend hsides hbecomes harena =>
      have hjobs : post.queue.jobs = engine.queue.jobs :=
        (congrArg jobs hbecomes.view).trans (jobs_appends _ _ _ _)
      rw [queued_same rfl hjobs, registered_waits href hf hpend hsides harena,
        hbecomes.view, map_nil, append_nil]
      exact hledger.appends (view_promises hf) hpend _
    | queues href hf hset =>
      rw [registered_queues href hf hset, queued_register]
      simp only [map_singleton, logged, target, bind_some, href]
      exact hledger.register (view_promises hf) hset _ _
  | idles hjobs _ hview _ =>
    rw [queued_idles hjobs hview, hview]
    simpa [registered] using hledger
  | @starts _ _ _ _ _ rest hjobs hstarts _ _ =>
    rw [queued_checkpoint hjobs, target_checkpoint hjobs]
    have hrest : Ledger { engine.view with jobs := rest } log registrations := hledger.of_same rfl
    rw [show registered engine post _ = [] from rfl, append_nil]
    exact hrest.resolves hstarts.resolves

theorem Effect.proper (hlk : engine.WellLinked) (hproper : Proper host engine.view) :
    Proper host post.view := by
  cases h with
  | refused _ _ | pairs _ _ => exact hproper
  | creates hfr st res =>
    rw [(becomes_create hlk st res).view]
    exact hproper.create (view_absent hfr) st res
  | acts _ hreports => exact hproper.resolves hreports.1.resolves
  | @registers _ _ capability onFulfilled onRejected _ hsettles hregs =>
    -- both reactions settle the same capability
    have hbindings : ∀ side,
        host.capabilityKind (bindingsOf onFulfilled onRejected capability side).capability =
          .promise →
        ((bindingsOf onFulfilled onRejected capability side).capability.asHeapRef.bind
          engine.view.promises).isSome :=
      fun _ hk => (isPromise_iff _ _).mp (hsettles hk)
    cases hregs with
    | refused => exact hproper
    | waits _ _ _ _ hbecomes _ =>
      rw [hbecomes.view]
      exact hproper.appends hbindings _
    | queues _ _ _ =>
      exact hproper.push (hbindings _)
  | idles _ _ hview _ =>
    rw [hview]
    exact hproper
  | starts hjobs hstarts _ _ => exact (hproper.pop hjobs).resolves hstarts.resolves

theorem Effect.evolves (hlk : engine.WellLinked) : engine.Evolves post := by
  cases h with
  | refused _ _ => exact .of_cells (.refl _) (append_nil _).symm
  | creates hfr st res =>
    refine .of_cells ?_ (append_nil _).symm
    rw [(becomes_create hlk st res).view]
    exact grows_create (view_absent hfr) st res
  | pairs _ _ => exact .of_cells (.of_same rfl) rfl
  | acts _ hreports => exact hreports.1.evolves
  | registers _ hregs =>
    cases hregs with
    | refused => exact .of_cells (.refl _) (append_nil _).symm
    | waits _ _ _ _ hbecomes _ =>
      refine .of_cells ?_ (hbecomes.cells.trans (append_nil _).symm)
      rw [hbecomes.view]
      exact grows_appends _ _ _ _
    | queues _ _ _ => exact .of_cells (.of_same rfl) (append_nil _).symm
  | idles _ _ hview hcells =>
    refine .of_cells ?_ (hcells.trans (append_nil _).symm)
    rw [hview]
    exact .refl _
  | @starts _ _ _ _ _ rest _ hstarts _ _ =>
    have hrest : engine.view.Grows { engine.view with jobs := rest } := .of_same rfl
    have hgr := hrest.trans (grows_resolves hstarts.resolves)
    rcases hstarts.cells with hcells | ⟨_, _, _, _, hcells⟩
    · exact .of_cells hgr (hcells.trans (append_nil _).symm)
    · exact .of_cells hgr hcells

/-- The pairs behind a step are the old ones, and one of a promise. -/
theorem Effect.cells (hproper : Proper host engine.view) {rec : PromiseResolutionCell}
    (hm : rec ∈ post.cells) :
    (∃ old ∈ engine.cells, old.promise = rec.promise) ∨ engine.IsPromise rec.promise := by
  have hs : post.cells = engine.cells →
      (∃ old ∈ engine.cells, old.promise = rec.promise) ∨ engine.IsPromise rec.promise := by
    intro hcells
    rw [hcells] at hm
    exact .inl ⟨rec, hm, rfl⟩
  have hadded : ∀ promise, engine.IsPromise promise → post.cells = engine.cells ++
    [⟨promise, false⟩] →
      (∃ old ∈ engine.cells, old.promise = rec.promise) ∨ engine.IsPromise rec.promise := by
    intro promise hp hcells
    rw [hcells] at hm
    rcases mem_append.mp hm with hm | hm
    · exact .inl ⟨rec, hm, rfl⟩
    · rw [mem_singleton.mp hm]
      exact .inr hp
  cases h with
  | refused _ _ | creates _ _ _ => exact hs rfl
  | pairs hp _ => exact hadded _ hp rfl
  | acts _ hreports =>
    obtain ⟨cell, hlt, hcell⟩ := mem_iff_getElem.mp hm
    have hlen : cell < engine.cells.length := by
      rw [← hreports.1.cells.length]
      exact hlt
    obtain ⟨rec', hf, hp, _⟩ := hreports.1.cells.record (getElem?_eq_getElem hlen)
    rw [getElem?_eq_getElem hlt, hcell] at hf
    cases hf
    exact .inl ⟨_, getElem_mem hlen, hp.symm⟩
  | registers _ hregs =>
    cases hregs with
    | refused | queues _ _ _ => exact hs rfl
    | waits _ _ _ _ hbecomes _ => exact hs hbecomes.cells
  | idles _ _ _ hcells => exact hs hcells
  | starts hjobs hstarts _ _ =>
    rcases hstarts.cells with hcells | ⟨promise, thenable, found, hjob, hcells⟩
    · exact hs hcells
    · refine hadded promise ?_ hcells
      have hproperJob := hproper.jobs _ (by rw [show engine.view.jobs = _ from hjobs]; exact mem_cons_self)
      rw [hjob] at hproperJob
      exact (isPromise_iff _ _).mpr hproperJob

theorem Effect.pending {pending : PendingResolution} (hm : pending ∈ report.pending) :
    engine.IsPromise pending.promise := by
  cases h with
  | acts _ hreports => exact hreports.2.2 pending hm
  | starts _ _ _ hpend => exact hpend pending hm
  | _ => cases hm

theorem Effect.used {cell : Nat} (hpair : action.pair = some cell) : post.IsUsed cell := by
  cases h with
  | refused hn _ => cases hn.symm.trans hpair
  | acts _ hreports => exact hreports.1.used cell hpair
  | _ => cases hpair

end

/-- Every step keeps the invariant. -/
theorem Consistent.step {sess : PromiseSession} (h : sess.Consistent host)
    (henabled : sess.Enabled host action) : (sess.step host action).Consistent host := by
  obtain ⟨report, post, heffect, hstep⟩ := h.effect henabled
  have hevolves := heffect.evolves h.linked
  rw [hstep]
  constructor
  · exact heffect.linked h.linked
  · exact heffect.ledger h.linked h.ledger
  · exact heffect.proper h.linked h.proper
  · intro rec hm
    rcases heffect.cells h.proper hm with ⟨old, hold, hp⟩ | hp
    · rw [← hp]
      exact hevolves.isPromise (h.cells old hold)
    · exact hevolves.isPromise hp
  · intro pending hm
    apply hevolves.isPromise
    rcases mem_append.mp hm with hm | hm
    · exact h.lookups pending (diff_subset _ _ hm)
    · exact heffect.pending (mem_toList.mp hm)
  · exact forall_mem_append.mpr ⟨fun cell hm => heffect.used (mem_toList.mp hm), fun
      cell hm => hevolves.isUsed (h.called cell hm)⟩

theorem consistent_new (host : PromiseHost) : PromiseSession.new.Consistent host where
  linked := ⟨fun _ _ => [], by
    constructor
    · intro ref obj hf
      cases hf
    · intro ref obj hf
      cases hf
    · intro ref _ rejected
      rfl
    · intro ref other rejected side idx hi
      exact absurd hi not_mem_nil⟩
  ledger := ledger_new
  proper := by
    constructor
    · intro job hm
      exact absurd hm not_mem_nil
    · intro ref view hf
      cases hf
  cells := fun _ hm => absurd hm not_mem_nil
  lookups := fun _ hm => absurd hm not_mem_nil
  called := fun _ hm => absurd hm not_mem_nil

end PromiseSession

/-- The invariant holds in every session that a run reaches. -/
theorem PromiseRun.consistent {host : PromiseHost} {Meets : PromiseSession → PromiseAction → Prop}
    {sess : PromiseSession} (h : PromiseRun host Meets sess) : sess.Consistent host := by
  induction h with
  | new => exact PromiseSession.consistent_new host
  | step _ henabled _ ih => exact ih.step henabled

end TachyonEngine.Vm
