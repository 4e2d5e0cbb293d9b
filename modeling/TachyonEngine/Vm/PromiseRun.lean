import TachyonEngine.Vm.PromiseInvariant

/-!
# Runs of promises

In every session that a careful run reaches, a pair acts on its first call only, a settled promise
stays as it is, every reaction of the kind of the settlement has one job, and the jobs run in the
order in which they were queued. A run is careful if no native executor fails behind a call of its
pair, and if no step of the checkpoint is refused what it needs for the job it took.
-/

namespace TachyonEngine.Vm

open Gc (RawHeapRef)
open Lib Lib.Attempt List

/-! ## What a session promises -/

namespace PromiseSession

/-- A step does not meet what makes the pairs and the queue go wrong. -/
def Careful (host : PromiseHost) (sess : PromiseSession) : PromiseAction → Prop
  | .executorFails cell _ => cell ∈ sess.called →
      ∃ rec, sess.engine.cells[cell]? = some rec ∧ sess.engine.IsSettled rec.promise
  | .callResolver cell false resolution _ => cell ∈ sess.called →
      ∃ rec, sess.engine.cells[cell]? = some rec ∧
        (rec.alreadyResolved = true ∨ host.isObject resolution = false ∨ resolution = rec.promise)
  | .checkpoint _ answers => sess.engine.queue.jobs ≠ [] → answers.Granted
  | _ => True

/-- The jobs ran in the order in which they were queued, and the others are still there. -/
def InOrder (host : PromiseHost) (sess : PromiseSession) : Prop :=
  sess.ran = (sess.log.take sess.ran.length).map (fun entry => dispatchOf host entry.job) ∧
    sess.engine.queue.jobs = (sess.log.drop sess.ran.length).map LoggedJob.job

end PromiseSession

/-! ## The order of the jobs -/

theorem Resolves.jobs {all post : Promises} {tgt : Option RawHeapRef} (h : Resolves all tgt post) :
    post.jobs = all.jobs ++ post.jobs.drop all.jobs.length := by
  cases h with
  | same => rw [drop_length, append_nil]
  | settles _ _ => rw [all.jobs_settle, drop_left]
  | queues _ _ _ => rw [Promises.push, drop_left]

namespace PromiseSession

variable {host : PromiseHost} {engine post : PromiseEngine} {action : PromiseAction}
  {report : ActionReport}
  {sess : PromiseSession}

/-- An effect queues its jobs behind the others, and takes the first one where the checkpoint
runs. -/
theorem Effect.jobs (h : Effect host engine action report post) :
    (report.dispatch = none ∧ post.queue.jobs = engine.queue.jobs ++ queued engine post action) ∨
      ∃ res answers job rest, action = .checkpoint res answers ∧ engine.queue.jobs = job :: rest ∧
        (answers.Granted → report.dispatch = some (dispatchOf host job)) ∧
        post.queue.jobs = rest ++ queued engine post action := by
  have hs : takesJob action = false → report.dispatch = none → post.queue.jobs = engine.queue.jobs →
      report.dispatch = none ∧ post.queue.jobs = engine.queue.jobs ++ queued engine post
        action := by
    intro haction hdispatch hjobs
    rw [queued_same haction hjobs, append_nil]
    exact ⟨hdispatch, hjobs⟩
  cases h with
  | refused _ hjob => exact .inl (hs hjob rfl rfl)
  | creates _ _ _ | pairs _ _ => exact .inl (hs rfl rfl rfl)
  | acts hable hreports =>
    rw [queued_of_able hable]
    exact .inl ⟨hreports.2.1, hreports.1.resolves.jobs⟩
  | registers _ hregs =>
    cases hregs with
    | refused => exact .inl (hs rfl rfl rfl)
    | waits _ _ _ _ hbecomes _ =>
      exact .inl (hs rfl rfl ((congrArg Promises.jobs hbecomes.view).trans
        (Promises.jobs_appends _ _ _ _)))
    | queues _ _ _ =>
      rw [queued_register]
      exact .inl ⟨rfl, rfl⟩
  | idles hjobs _ hview _ =>
    rw [queued_idles hjobs hview, append_nil]
    exact .inl ⟨rfl, congrArg Promises.jobs hview⟩
  | @starts res answers _ _ job rest hjobs hstarts hdispatch _ =>
    rw [queued_checkpoint hjobs]
    exact .inr ⟨res, answers, job, rest, rfl, hjobs, hdispatch, hstarts.resolves.jobs⟩

theorem InOrder.length_le (h : sess.InOrder host) : sess.ran.length ≤ sess.log.length := by
  have hlen := congrArg length h.1
  rw [length_map, length_take] at hlen
  omega

/-- What is logged is what is queued. -/
theorem map_job_logged (origin : Option Value) (jobs : List PromiseJob) :
    (jobs.map (logged origin)).map LoggedJob.job = jobs := by
  rw [map_map]
  conv => rhs; rw [← map_id jobs]
  exact map_congr_left fun job _ => job_logged origin job

theorem InOrder.record (h : sess.InOrder host)
    (heffect : Effect host sess.engine action report post)
    (hcareful : sess.Careful host action) : (sess.record action report post).InOrder host := by
  have hle := h.length_le
  obtain ⟨hran, hjobs⟩ := h
  rcases heffect.jobs with ⟨hdispatch, ha⟩ | ⟨res, answers, job, rest, rfl, hfirst, hdispatch, ha⟩
  · simp only [InOrder, PromiseSession.record, hdispatch, Option.toList_none, append_nil]
    rw [take_append_of_le_length hle, drop_append_of_le_length hle, map_append, map_job_logged,
      ← hjobs]
    exact ⟨hran, ha⟩
  · have hgr : answers.Granted := hcareful (by rw [hfirst]; exact cons_ne_nil _ _)
    -- the first job of the queue is the first entry of the log that has not run
    rw [hfirst] at hjobs
    obtain ⟨ent, later, hdrop, he, hlat⟩ := map_eq_cons_iff.mp hjobs.symm
    have hlt : sess.ran.length < sess.log.length := by
      have hlen := congrArg length hdrop
      rw [length_drop, length_cons] at hlen
      omega
    have hget : sess.log[sess.ran.length]? = some ent := by
      rw [← head?_drop, hdrop, head?_cons]
    have htail : sess.log.drop (sess.ran.length + 1) = later := by
      rw [← tail_drop, hdrop, tail_cons]
    simp only [InOrder, PromiseSession.record, hdispatch hgr, Option.toList_some, length_append,
      length_singleton]
    rw [take_append_of_le_length hlt, drop_append_of_le_length hlt, map_append, map_job_logged,
      take_add_one, hget, htail, hlat]
    refine ⟨?_, ha⟩
    rw [Option.toList_some, map_append, ← hran, map_singleton, he]

end PromiseSession

/-! ## Pairs that are used up -/

namespace PromiseEngine

variable {host : PromiseHost} {engine : PromiseEngine} {cell : Nat} {rec : PromiseResolutionCell}

end PromiseEngine

namespace PromiseSession

variable {host : PromiseHost} {action : PromiseAction} {sess : PromiseSession} {cell : Nat}

end PromiseSession

/-! ## Runs -/

section Runs

variable {host : PromiseHost} {Meets : PromiseSession → PromiseAction → Prop}
  {sess later : PromiseSession}

theorem PromisePath.consistent (h : PromisePath host Meets sess later)
    (hst : sess.Consistent host) :
    later.Consistent host := by
  induction h with
  | refl => exact hst
  | step _ henabled _ ih => exact ih.step henabled

theorem PromisePath.grows (h : PromisePath host Meets sess later) (hst : sess.Consistent host) :
    sess.engine.view.Grows later.engine.view := by
  induction h with
  | refl => exact .refl _
  | step hpath henabled _ ih =>
    have hconsistent := hpath.consistent hst
    obtain ⟨report, post, heffect, hstep⟩ := hconsistent.effect henabled
    rw [hstep]
    exact ih.trans (heffect.evolves hconsistent.linked).grows

theorem PromiseRun.inOrder (h : PromiseRun host (PromiseSession.Careful host) sess) :
    sess.InOrder host := by
  induction h with
  | new => exact ⟨rfl, rfl⟩
  | step hrun henabled hcareful ih =>
    obtain ⟨report, post, heffect, hstep⟩ := hrun.consistent.effect henabled
    rw [hstep]
    exact ih.record heffect hcareful

end Runs

/-! ## Two runs -/

def steps (host : PromiseHost) (sess : PromiseSession) (actions : List PromiseAction) :
    PromiseSession :=
  actions.foldl (PromiseSession.step host) sess

/-- Every action can come next and meets the condition. -/
def Follows (host : PromiseHost) (Meets : PromiseSession → PromiseAction → Prop) :
    PromiseSession → List PromiseAction → Prop
  | _, [] => True
  | sess, action :: rest =>
    sess.Enabled host action ∧ Meets sess action ∧ Follows host Meets (sess.step host action) rest

theorem PromiseRun.steps {host : PromiseHost} {Meets : PromiseSession → PromiseAction → Prop}
    {sess : PromiseSession} (h : PromiseRun host Meets sess) {actions : List PromiseAction}
    (hfol : Follows host Meets sess actions) : PromiseRun host Meets (steps host sess actions) := by
  induction actions generalizing sess with
  | nil => exact h
  | cons action rest ih =>
    obtain ⟨henabled, hmeets, hrest⟩ := hfol
    exact ih (h.step henabled hmeets) hrest

end TachyonEngine.Vm
