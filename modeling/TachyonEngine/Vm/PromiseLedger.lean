import TachyonEngine.Vm.PromiseSession
import TachyonEngine.Vm.PromiseView

/-!
# The ledger of reactions and jobs

What the jobs that were ever queued have to do with the reactions that were ever registered. Nothing
is queued for a pending promise; for a settled one there is one job for each reaction of the kind of
the settlement, in the order of registration, and those of the reactions that had waited stand
together.
-/

namespace TachyonEngine.Vm

open List

open Gc (RawHeapRef)

def Registration.binding (registration : Registration) : PromiseBinding :=
  ⟨registration.handler, registration.capability⟩

/-- The job of a reaction. -/
def Registration.job (result : Value) (registration : Registration) : PromiseJob :=
  .reaction registration.handler registration.capability result registration.rejected

/-- The reactions of one kind of one promise, in the order of registration. -/
def registeredAt (registrations : List Registration) (ref : RawHeapRef) (rejected : Bool) :
    List Registration :=
  registrations.filter fun registration => registration.source = ref ∧
    registration.rejected = rejected

/-- The jobs of one promise, in the order of the queue. -/
def jobsOf (log : List LoggedJob) (ref : RawHeapRef) : List PromiseJob :=
  (log.filter fun entry => entry.origin = some ref).map LoggedJob.job

/-- The jobs of the reactions that had waited stand together. -/
def Together (log : List LoggedJob) (registrations : List Registration) (ref : RawHeapRef)
    (rejected : Bool) (result : Value) : Prop :=
  ((registeredAt registrations ref rejected).filter Registration.waited).map
    (fun registration => ⟨some ref, registration.job result⟩) <:+: log

structure Ledger (all : Promises) (log : List LoggedJob) (registrations : List Registration) :
    Prop where
  waiting : ∀ {ref view}, all.promises ref = some view → view.state = .pending →
    ∀ rejected, view.waiting rejected = (registeredAt registrations ref rejected).map
      Registration.binding
  waited : ∀ {ref view}, all.promises ref = some view → view.state = .pending →
    ∀ registration ∈ registrations, registration.source = ref → registration.waited = true
  silent : ∀ {ref view}, all.promises ref = some view → view.state = .pending → jobsOf log ref = []
  absent : ∀ {ref}, all.promises ref = none →
    (∀ registration ∈ registrations, registration.source ≠ ref) ∧ jobsOf log ref = []
  produced : ∀ {ref view}, all.promises ref = some view → view.state ≠ .pending → jobsOf log ref =
      (registeredAt registrations ref (view.state = .rejected)).map (Registration.job view.result)
  together : ∀ {ref view}, all.promises ref = some view → view.state ≠ .pending →
    Together log registrations ref (view.state = .rejected) view.result

section Steps

variable {all : Promises} {log : List LoggedJob} {registrations : List Registration}
  {ref : RawHeapRef}

theorem jobsOf_append (log added : List LoggedJob) (ref : RawHeapRef) :
    jobsOf (log ++ added) ref = jobsOf log ref ++ jobsOf added ref := by
  rw [jobsOf, filter_append, map_append]
  rfl

/-- Jobs of one promise are no jobs of another one. -/
theorem jobsOf_map (origin ref : RawHeapRef) (jobs : List PromiseJob) :
    jobsOf (jobs.map fun job => ⟨some origin, job⟩) ref = if origin = ref then jobs else [] := by
  induction jobs with
  | nil => simp [jobsOf]
  | cons job rest ih =>
    simp only [jobsOf, map_cons] at ih ⊢
    by_cases heq : origin = ref
    · rw [if_pos heq] at ih ⊢
      rw [filter_cons_of_pos (by simp [heq]), map_cons, ih]
    · rw [if_neg heq] at ih ⊢
      rw [filter_cons_of_neg (by simp [heq]), ih]

theorem registeredAt_append (registrations added : List Registration) (ref : RawHeapRef)
    (rejected : Bool) : registeredAt (registrations ++ added) ref rejected =
      registeredAt registrations ref rejected ++ registeredAt added ref rejected :=
  filter_append ..

theorem registeredAt_singleton (registration : Registration) (ref : RawHeapRef) (rejected : Bool) :
    registeredAt [registration] ref rejected =
      if registration.source = ref ∧ registration.rejected = rejected then
      [registration] else [] := by
  rw [registeredAt, filter_singleton]
  by_cases h : registration.source = ref ∧ registration.rejected = rejected
  · simp [h]
  · simp [h]

/-- The registrations of a promise that waits all wait. -/
theorem filter_waited (h : ∀ registration ∈ registrations, registration.source = ref →
    registration.waited = true) (rejected : Bool) :
    (registeredAt registrations ref rejected).filter Registration.waited =
      registeredAt registrations ref rejected := by
  apply filter_eq_self.mpr
  intro registration hm
  obtain ⟨hm, hk⟩ := mem_filter.mp hm
  rw [decide_eq_true_iff] at hk
  exact h registration hm hk.1

section

variable (h : Ledger all log registrations)

include h

variable {view : PromiseView}

/-- The jobs of a settlement are those of the reactions that were registered. -/
theorem Ledger.jobs_eq (hf : all.promises ref = some view) (hpend : view.state = .pending) (rejected
    : Bool) (res : Value) :
    (view.waiting rejected).map (PromiseBinding.job res rejected) =
      (registeredAt registrations ref rejected).map (Registration.job res) := by
  rw [h.waiting hf hpend, map_map]
  apply map_congr_left
  intro registration hm
  obtain ⟨_, hk⟩ := mem_filter.mp hm
  rw [decide_eq_true_iff] at hk
  simp only [Function.comp, PromiseBinding.job, Registration.binding, Registration.job, hk.2]

omit h in
/-- What other promises register and queue does not matter. -/
theorem Together.append {rejected : Bool} {res : Value}
    (h : Together log registrations ref rejected res) (added : List LoggedJob) :
    Together (log ++ added) registrations ref rejected res :=
  List.IsInfix.trans h (prefix_append log added).isInfix

theorem Ledger.create (hfr : all.promises ref = none) (st : PromiseState)
    (res : Value) : Ledger (all.create ref st res) log registrations := by
  obtain ⟨hn, hsilent⟩ := h.absent hfr
  have hempty : ∀ rejected, registeredAt registrations ref rejected = [] := by
    intro rejected
    apply filter_eq_nil_iff.mpr
    intro registration hm
    simp [hn registration hm]
  constructor
  · intro other view hf hpend rejected
    simp only [Promises.create, Promises.set] at hf
    split_ifs at hf with heq
    · cases hf
      rw [heq, hempty]
      rfl
    · exact h.waiting hf hpend rejected
  · intro other view hf hpend registration hm hsource
    simp only [Promises.create, Promises.set] at hf
    split at hf
    · next heq => exact absurd (hsource.trans heq) (hn registration hm)
    · exact h.waited hf hpend registration hm hsource
  · intro other view hf hpend
    simp only [Promises.create, Promises.set] at hf
    split_ifs at hf with heq
    · rw [heq]
      exact hsilent
    · exact h.silent hf hpend
  · intro other hf
    simp only [Promises.create, Promises.set] at hf
    split_ifs at hf
    exact h.absent hf
  · intro other view hf hset
    simp only [Promises.create, Promises.set] at hf
    split_ifs at hf with heq
    · rw [heq, hsilent, hempty]
      rfl
    · exact h.produced hf hset
  · intro other view hf hset
    simp only [Promises.create, Promises.set] at hf
    split_ifs at hf with heq
    · rw [Together, heq, hempty]
      exact nil_infix
    · exact h.together hf hset

/-- The jobs that a settlement queues. -/
def Promises.settled (all : Promises) (ref : RawHeapRef) (state : PromiseState) (result : Value) :
    List PromiseJob :=
  match all.promises ref with
  | none => []
  | some view =>
    if view.state = .pending then
      (view.waiting (state = .rejected)).map (PromiseBinding.job result (state = .rejected))
    else []

omit h in
theorem Promises.jobs_settle (all : Promises) (ref : RawHeapRef) (st : PromiseState) (res : Value) :
    (all.settle ref st res).jobs = all.jobs ++ all.settled ref st res := by
  simp only [Promises.settle, Promises.settled]
  cases all.promises ref with
  | none => exact (append_nil _).symm
  | some view =>
    by_cases hpend : view.state = .pending
    · simp only [if_pos hpend]
      rfl
    · simp only [if_neg hpend, append_nil]

theorem Ledger.settle {st : PromiseState} (hst : st ≠ .pending)
    (res : Value) : Ledger (all.settle ref st res)
      (log ++ (all.settled ref st res).map fun job => ⟨some ref, job⟩) registrations := by
  cases hcase : all.promises ref with
  | none => simpa [Promises.settle, Promises.settled, hcase] using h
  | some view =>
    by_cases hpend : view.state = .pending
    · have hall : all.settle ref st res = (all.set ref ⟨st, res, fun _ => []⟩).push
          ((view.waiting (st = .rejected)).map (PromiseBinding.job res (st = .rejected))) := by
        simp only [Promises.settle, hcase, if_pos hpend]
      have hjobs : all.settled ref st res =
          (registeredAt registrations ref (st = .rejected)).map (Registration.job res) := by
        simp only [Promises.settled, hcase, if_pos hpend]
        exact h.jobs_eq hcase hpend _ res
      -- another promise keeps its record and its jobs
      have ho : ∀ {other}, other ≠ ref →
          (all.settle ref st res).promises other = all.promises other ∧
            jobsOf (log ++ (all.settled ref st res).map fun job => ⟨some ref, job⟩) other =
              jobsOf log other := by
        intro other hne
        refine ⟨?_, ?_⟩
        · rw [hall]
          exact if_neg hne
        · rw [jobsOf_append, jobsOf_map, if_neg (Ne.symm hne), append_nil]
      have hself : (all.settle ref st res).promises ref = some ⟨st, res, fun _ => []⟩ := by
        rw [hall]
        exact if_pos rfl
      constructor
      · intro other view' hf hpend' rejected
        by_cases heq : other = ref
        · rw [heq, hself] at hf
          cases hf
          exact absurd hpend' hst
        · rw [(ho heq).1] at hf
          exact h.waiting hf hpend' rejected
      · intro other view' hf hpend' registration hm hsource
        by_cases heq : other = ref
        · rw [heq, hself] at hf
          cases hf
          exact absurd hpend' hst
        · rw [(ho heq).1] at hf
          exact h.waited hf hpend' registration hm hsource
      · intro other view' hf hpend'
        by_cases heq : other = ref
        · rw [heq, hself] at hf
          cases hf
          exact absurd hpend' hst
        · rw [(ho heq).1] at hf
          rw [(ho heq).2]
          exact h.silent hf hpend'
      · intro other hf
        by_cases heq : other = ref
        · rw [heq, hself] at hf
          cases hf
        · rw [(ho heq).1] at hf
          rw [(ho heq).2]
          exact h.absent hf
      · intro other view' hf hset
        by_cases heq : other = ref
        · rw [heq, hself] at hf
          cases hf
          rw [heq, jobsOf_append, h.silent hcase hpend, jobsOf_map, if_pos rfl, hjobs, nil_append]
        · rw [(ho heq).1] at hf
          rw [(ho heq).2]
          exact h.produced hf hset
      · intro other view' hf hset
        by_cases heq : other = ref
        · rw [heq, hself] at hf
          cases hf
          rw [Together, heq, filter_waited (h.waited hcase hpend), hjobs, map_map]
          exact (suffix_append log _).isInfix
        · rw [(ho heq).1] at hf
          exact (h.together hf hset).append _
    · simpa [Promises.settle, Promises.settled, hcase, hpend] using h

/-- The job of a thenable belongs to no promise. -/
theorem Ledger.push (jobs : List PromiseJob) (job : PromiseJob) :
    Ledger (all.push jobs) (log ++ [⟨none, job⟩]) registrations := by
  have hjobs : ∀ other, jobsOf (log ++ [⟨none, job⟩]) other = jobsOf log other := by
    intro other
    simp [jobsOf]
  constructor
  · exact h.waiting
  · exact h.waited
  · intro other view hf hpend
    rw [hjobs]
    exact h.silent hf hpend
  · intro other hf
    rw [hjobs]
    exact h.absent hf
  · intro other view hf hset
    rw [hjobs]
    exact h.produced hf hset
  · intro other view hf hset
    exact (h.together hf hset).append _

/-- The ledger does not speak of the queue. -/
theorem Ledger.of_same {post : Promises} (hpromises : post.promises = all.promises) :
    Ledger post log registrations := by
  constructor
  · intro other view hf
    rw [hpromises] at hf
    exact h.waiting hf
  · intro other view hf
    rw [hpromises] at hf
    exact h.waited hf
  · intro other view hf
    rw [hpromises] at hf
    exact h.silent hf
  · intro other hf
    rw [hpromises] at hf
    exact h.absent hf
  · intro other view hf
    rw [hpromises] at hf
    exact h.produced hf
  · intro other view hf
    rw [hpromises] at hf
    exact h.together hf

/-- A reaction waits. -/
theorem Ledger.append (hf : all.promises ref = some view) (hpend : view.state = .pending) (rejected
    : Bool) (binding : PromiseBinding) :
    Ledger (all.append ref rejected binding) log
      (registrations ++ [⟨ref, binding.handler, binding.capability, rejected, true⟩]) := by
  have hself : (all.append ref rejected binding).promises ref = some
      { view with
        waiting := fun side => if side = rejected then view.waiting side ++
          [binding] else view.waiting side } := by
    simp only [Promises.append, hf]
    exact if_pos rfl
  have ho : ∀ {other}, other ≠ ref →
      (all.append ref rejected binding).promises other = all.promises other ∧ ∀ side,
        registeredAt (registrations ++ [⟨ref, binding.handler, binding.capability, rejected, true⟩])
          other side = registeredAt registrations other side := by
    intro other hne
    refine ⟨?_, ?_⟩
    · simp only [Promises.append, hf]
      exact if_neg hne
    · intro side
      rw [registeredAt_append, registeredAt_singleton, if_neg fun hs => hne hs.1.symm, append_nil]
  constructor
  · intro other view' hview hpend' side
    by_cases heq : other = ref
    · rw [heq, hself] at hview
      cases hview
      simp only
      rw [heq, registeredAt_append, registeredAt_singleton, h.waiting hf hpend]
      by_cases hside : side = rejected
      · rw [if_pos hside, if_pos ⟨rfl, hside.symm⟩, map_append]
        rfl
      · rw [if_neg hside, if_neg fun hs => hside hs.2.symm, append_nil]
    · rw [(ho heq).1] at hview
      rw [(ho heq).2]
      exact h.waiting hview hpend' side
  · intro other view' hview hpend' registration hm hsource
    rcases mem_append.mp hm with hm | hm
    · by_cases heq : other = ref
      · exact h.waited hf hpend registration hm (hsource.trans heq)
      · rw [(ho heq).1] at hview
        exact h.waited hview hpend' registration hm hsource
    · rw [mem_singleton.mp hm]
  · intro other view' hview hpend'
    by_cases heq : other = ref
    · rw [heq]
      exact h.silent hf hpend
    · rw [(ho heq).1] at hview
      exact h.silent hview hpend'
  · intro other hview
    by_cases heq : other = ref
    · rw [heq, hself] at hview
      cases hview
    · rw [(ho heq).1] at hview
      refine ⟨?_, (h.absent hview).2⟩
      exact forall_mem_append.mpr ⟨(h.absent hview).1, forall_mem_singleton.mpr (Ne.symm
        heq)⟩
  · intro other view' hview hset
    by_cases heq : other = ref
    · rw [heq, hself] at hview
      cases hview
      exact absurd hpend hset
    · rw [(ho heq).1] at hview
      rw [(ho heq).2]
      exact h.produced hview hset
  · intro other view' hview hset
    by_cases heq : other = ref
    · rw [heq, hself] at hview
      cases hview
      exact absurd hpend hset
    · rw [(ho heq).1] at hview
      rw [Together, (ho heq).2]
      exact h.together hview hset

/-- A reaction of a settled promise becomes a job at once. -/
theorem Ledger.register (hf : all.promises ref = some view) (hset : view.state ≠ .pending) (jobs :
    List PromiseJob) (binding : PromiseBinding) : Ledger (all.push jobs)
      (log ++ [⟨some ref, binding.job view.result (view.state = .rejected)⟩])
      (registrations ++ [⟨ref, binding.handler, binding.capability, view.state = .rejected,
      false⟩]) := by
  have ho : ∀ {other}, other ≠ ref →
      jobsOf (log ++ [⟨some ref, binding.job view.result (view.state = .rejected)⟩]) other =
        jobsOf log other ∧
        ∀ side, registeredAt
          (registrations ++ [⟨ref, binding.handler, binding.capability,
            view.state = .rejected, false⟩])
          other side = registeredAt registrations other side := by
    intro other hne
    refine ⟨?_, ?_⟩
    · simp [jobsOf, Ne.symm hne]
    · intro side
      rw [registeredAt_append, registeredAt_singleton, if_neg fun hs => hne hs.1.symm, append_nil]
  have hne_of_pending : ∀ {other view'}, all.promises other = some view' → view'.state = .pending →
      other ≠ ref := by
    rintro other view' hview hpend rfl
    rw [hf] at hview
    cases hview
    exact hset hpend
  constructor
  · intro other view' hview hpend side
    rw [(ho (hne_of_pending hview hpend)).2]
    exact h.waiting hview hpend side
  · intro other view' hview hpend registration hm hsource
    rcases mem_append.mp hm with hm | hm
    · exact h.waited hview hpend registration hm hsource
    · rw [mem_singleton.mp hm] at hsource
      exact absurd hsource.symm (hne_of_pending hview hpend)
  · intro other view' hview hpend
    rw [(ho (hne_of_pending hview hpend)).1]
    exact h.silent hview hpend
  · intro other hview
    have hne : other ≠ ref := by
      rintro rfl
      rw [show all.promises other = none from hview] at hf
      cases hf
    rw [(ho hne).1]
    refine ⟨?_, (h.absent hview).2⟩
    exact forall_mem_append.mpr ⟨(h.absent hview).1, forall_mem_singleton.mpr (Ne.symm
      hne)⟩
  · intro other view' hview hset'
    by_cases heq : other = ref
    · rw [heq] at hview
      rw [show all.promises ref = some view' from hview] at hf
      cases hf
      rw [heq, jobsOf_append, registeredAt_append, registeredAt_singleton, h.produced hview hset']
      simp [jobsOf, Registration.job, PromiseBinding.job]
    · rw [(ho heq).1, (ho heq).2]
      exact h.produced hview hset'
  · intro other view' hview hset'
    by_cases heq : other = ref
    · rw [heq] at hview
      rw [show all.promises ref = some view' from hview] at hf
      cases hf
      have htogether := (h.together hview hset').append
        [⟨some ref, binding.job view.result (view.state = .rejected)⟩]
      rw [Together] at htogether ⊢
      rw [heq, registeredAt_append, registeredAt_singleton, if_pos ⟨rfl, rfl⟩, filter_append]
      simpa using htogether
    · rw [Together, (ho heq).2]
      exact (h.together hview hset').append _

end

end Steps

theorem ledger_new : Ledger PromiseSession.new.engine.view [] [] := by
  constructor
  · intro ref view hf
    cases hf
  · intro ref view hf
    cases hf
  · intro ref view hf
    cases hf
  · intro ref _
    exact ⟨by simp, rfl⟩
  · intro ref view hf
    cases hf
  · intro ref view hf
    cases hf

end TachyonEngine.Vm
