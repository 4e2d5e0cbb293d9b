import TachyonEngine.Lib.Postorder

/-!
# Schedules

Jobs that wait for the jobs they request. A request may lead back, so a job does not wait for all of
its component: it waits for what it requests outside of it, by way of the root of the other
component, and for the members that were registered before it. When a job is done its parents are
told; when it fails they fail with it.

`Scheduled` is what holds between two steps. Where the root of a component is done, everything that
it reaches is.
-/

namespace TachyonEngine.Lib.Scheduling

open Lib.Components (Path)

universe u v

variable {V : Type u} {α : Type v}

inductive Stage (α : Type v) where
  | fresh
  | waiting
  | started
  | done (value : α)
  | failed (error : α)

def Stage.isWaiting : Stage α → Bool
  | .waiting => true
  | _ => false

theorem Stage.isWaiting_iff {stage : Stage α} : stage.isWaiting = true ↔ stage = .waiting := by
  cases stage with
  | waiting => exact iff_of_true rfl rfl
  | fresh | started | done val | failed err =>
    exact iff_of_false (fun h => nomatch h) (fun h => nomatch h)

def Stage.IsDone (stage : Stage α) : Prop := ∃ value, stage = .done value

def Stage.IsFailed (stage : Stage α) : Prop := ∃ error, stage = .failed error

/-- The parents of a job are those that wait for it. -/
structure Schedule (V : Type u) (α : Type v) where
  stage : V → Stage α
  order : V → Option Nat
  parents : V → List V
  pending : V → Nat
  ready : List V
  next : Nat

/-- A job that was registered, or that failed when it should have been. -/
def Schedule.Touched (sched : Schedule V α) (job : V) : Prop :=
  sched.order job ≠ none ∨ (sched.stage job).IsFailed

/-! ## Operations -/

namespace Schedule

variable [DecidableEq V] (sched : Schedule V α) (job : V)

/-- A job without dependencies is ready at once. -/
def enqueue : Schedule V α :=
  { sched with
    order := Function.update sched.order job (some sched.next)
    ready := sched.ready ++ [job]
    next := sched.next + 1 }

def await (dependencies : List V) : Schedule V α :=
  { sched with
    stage := Function.update sched.stage job .waiting
    order := Function.update sched.order job (some sched.next)
    parents := fun dependency =>
      if dependency ∈ dependencies then sched.parents dependency ++ [job]
      else sched.parents dependency
    pending := Function.update sched.pending job dependencies.length
    next := sched.next + 1 }

/-- The job leaves the queue, of which the rest is left in some order. -/
def start (queue : List V) : Schedule V α :=
  { sched with
    stage := Function.update sched.stage job .started
    ready := queue }

def fulfil (value : α) : Schedule V α :=
  { sched with
    stage := Function.update sched.stage job (.done value)
    parents := Function.update sched.parents job []
    pending := fun parent =>
      if parent ∈ sched.parents job ∧ (sched.stage parent).isWaiting then
        sched.pending parent - 1
      else sched.pending parent
    ready := sched.ready ++ (sched.parents job).filter fun parent =>
        (sched.stage parent).isWaiting && decide (sched.pending parent = 1) }

/-- One job fails. Its parents are left to whoever lets it fail. -/
def fail (error : α) : Schedule V α :=
  { sched with
    stage := Function.update sched.stage job (.failed error)
    parents := Function.update sched.parents job [] }

end Schedule

/-! ## Components and invariant -/

/-- Every vertex of a closed part has a root in its component. -/
structure Rooted (succs : V → List V) (root : V → V) (part : V → Prop) : Prop where
  successor : ∀ vertex, part vertex → ∀ next ∈ succs vertex, part next
  mem_root : ∀ vertex, part vertex → part (root vertex)
  to_root : ∀ vertex, part vertex → Path succs vertex (root vertex)
  from_root : ∀ vertex, part vertex → Path succs (root vertex) vertex
  unique : ∀ vertex other, part vertex → part other → Path succs vertex other →
    Path succs other vertex → root vertex = root other

/-- What a walk leaves that is about to register the jobs of `rest`. It is about the orders and the
failures alone. -/
structure Walked (succs : V → List V) (root : V → V) (part : V → Prop) (rest : List V)
    (sched : Schedule V α) : Prop where
  entered : ∀ job k, sched.order job = some k → root job ≠ job →
    ∃ parent, root parent = root job ∧ job ∈ succs parent ∧
      ((∃ l, sched.order parent = some l ∧ k < l) ∨
        (parent = root job ∧ (sched.stage parent).IsFailed) ∨
        (parent ∈ rest ∧ ¬ sched.Touched parent))
  closed : ∀ job, sched.Touched job → ∀ request ∈ succs job, sched.Touched request ∨ request ∈ rest
  unregistered : ∀ job, (sched.stage job).IsFailed → sched.order job = none → root job = job
  mem_part : ∀ job, sched.Touched job → part job

/-- The jobs of `rest` are about to be registered, those of `doomed` are about to fail. -/
structure Scheduled (succs : V → List V) (root : V → V) (part : V → Prop) (Threw : V → α → Prop)
    (rest doomed : List V) (sched : Schedule V α) : Prop extends
    Walked succs root part rest sched where
  ready_nodup : sched.ready.Nodup
  ready_stage : ∀ job ∈ sched.ready,
    (sched.stage job = .fresh ∨ sched.stage job = .waiting) ∧ sched.order job ≠ none ∧
      ∀ dependency, job ∉ sched.parents dependency
  ready_of_fresh : ∀ job, sched.stage job = .fresh → sched.order job ≠ none → job ∈ sched.ready
  ready_of_waiting : ∀ job, sched.stage job = .waiting → sched.pending job = 0 → job ∈ sched.ready
  order_lt : ∀ job k, sched.order job = some k → k < sched.next
  order_of_stage : ∀ job, sched.stage job = .fresh ∨ (sched.stage job).IsFailed ∨
    sched.order job ≠ none
  parents_nodup : ∀ dependency, (sched.parents dependency).Nodup
  parent : ∀ dependency, ∀ job ∈ sched.parents dependency,
    (sched.stage job = .waiting ∨ (sched.stage job).IsFailed) ∧
      Path succs job dependency ∧ ¬ (sched.stage dependency).IsDone ∧
      ¬ (sched.stage dependency).IsFailed ∧
      ∃ k l, sched.order dependency = some k ∧ sched.order job = some l ∧ k < l
  blockers : ∀ job, sched.stage job = .waiting → job ∉ doomed → ∃ blockers : List V,
    blockers.Nodup ∧ blockers.length = sched.pending job ∧
      ∀ dependency, job ∈ sched.parents dependency ↔ dependency ∈ blockers
  outer : ∀ job, sched.order job ≠ none → ¬ (sched.stage job).IsFailed → job ∉ doomed →
    ∀ request ∈ succs job, root request ≠ root job →
      (sched.stage (root request)).IsDone ∨ job ∈ sched.parents (root request)
  inner : ∀ job k, sched.order job = some k → ¬ (sched.stage job).IsFailed → job ∉ doomed →
    ∀ request ∈ succs job, root request = root job → ∀ j, sched.order request = some j →
      j < k → (sched.stage request).IsDone ∨ job ∈ sched.parents request
  young : ∀ job, sched.order job ≠ none → ∀ reached, Path succs job reached →
    ¬ sched.Touched reached → sched.stage job = .fresh ∨ sched.stage job = .waiting
  cause : ∀ job error, sched.stage job = .failed error →
    ∃ reached, Path succs job reached ∧ Threw reached error

section

variable {succs : V → List V} {root : V → V} {part : V → Prop} {Threw : V → α → Prop}
  {sched : Schedule V α}

variable {vertex reached : V}

theorem Rooted.part_of_path (h : Rooted succs root part) (hv : part vertex) (hpath : Path succs
    vertex reached) : part reached := by
  induction hpath with
  | refl => exact hv
  | tail _ hedge ih => exact h.successor _ ih _ hedge

theorem Rooted.root_root (h : Rooted succs root part) (hv : part vertex) :
    root (root vertex) = root vertex :=
  h.unique _ _ (h.mem_root vertex hv) hv (h.from_root vertex hv) (h.to_root vertex hv)

/-- Members of one component lead to each other. -/
theorem Rooted.path_of_root_eq (h : Rooted succs root part) {other : V} (hv : part vertex) (ho :
    part other) (heq : root vertex = root other) : Path succs vertex other := by
  have hroot := h.to_root vertex hv
  rw [heq] at hroot
  exact hroot.trans (h.from_root other ho)

/-! ## What is done -/

variable {stage : Stage α}

theorem Stage.IsDone.not_waiting (h : stage.IsDone) : stage ≠ .waiting := by
  obtain ⟨val, rfl⟩ := h
  exact fun h => nomatch h

theorem Stage.IsDone.not_failed (h : stage.IsDone) : ¬ stage.IsFailed := by
  obtain ⟨val, rfl⟩ := h
  rintro ⟨err, h⟩
  cases h

variable {job : V}

/-- What a touched job reaches is touched. -/
theorem Walked.touched_of_path (h : Walked succs root part [] sched) (hjob : sched.Touched job)
    (hpath : Path succs job reached) : sched.Touched reached := by
  induction hpath with
  | refl => exact hjob
  | tail _ hedge ih => exact (h.closed _ ih _ hedge).resolve_right (fun hm => nomatch hm)

variable (h : Scheduled succs root part Threw [] [] sched)

include h

theorem Scheduled.order_of_done (hdone : (sched.stage job).IsDone) : sched.order job ≠ none := by
  rcases h.order_of_stage job with hfr | hfl | hord
  · obtain ⟨val, hv⟩ := hdone
    rw [hfr] at hv
    cases hv
  · exact absurd hfl hdone.not_failed
  · exact hord

theorem Scheduled.notMem_parents_of_done (hdone : (sched.stage job).IsDone) (dep : V) :
    job ∉ sched.parents dep := by
  intro hm
  rcases (h.parent dep job hm).1 with hwait | hfl
  · exact hdone.not_waiting hwait
  · exact hdone.not_failed hfl

section

variable (hrooted : Rooted succs root part)

include hrooted

variable {top : V}

/-- The other members of a component are done when its root waits for nothing more. -/
theorem Scheduled.members_done (htop : root top = top) (hord : sched.order top ≠ none) (hfl : ¬
    (sched.stage top).IsFailed) (hfree : ∀ dep, top ∉ sched.parents dep) {member : V} (hpart : part
    member) (hmember : root member = top) (hne : member ≠ top) : (sched.stage member).IsDone := by
  -- a member is entered from one with a greater order, and the orders are bounded
  have hdone : ∀ (bound : Nat) (member : V) (k : Nat), sched.order member = some k →
      sched.next - k ≤ bound → root member = top → member ≠ top →
      (sched.stage member).IsDone := by
    intro bound
    induction bound with
    | zero =>
      intro member k hk hbound
      have hlt := h.order_lt member k hk
      omega
    | succ bound ih =>
      intro member k hk hbound hroot hne
      obtain ⟨parent, hp, hedge, hlat⟩ := h.entered member k hk (by rw [hroot]; exact Ne.symm hne)
      rw [hroot] at hp hlat
      rcases hlat with ⟨l, hl, hlt⟩ | ⟨rfl, hparentFailed⟩ | ⟨hm, -⟩
      · by_cases heq : parent = top
        · subst heq
          rcases h.inner parent l hl hfl (fun hm => nomatch hm) member hedge (hroot.trans htop.symm)
            k hk hlt with hdone | hm
          · exact hdone
          · exact absurd hm (hfree member)
        · have hparentDone := ih parent l hl (by omega) hp heq
          rcases h.inner parent l hl hparentDone.not_failed (fun hm => nomatch hm) member hedge
            (hroot.trans hp.symm) k hk hlt with hdone | hm
          · exact hdone
          · exact absurd hm (h.notMem_parents_of_done hparentDone member)
      · exact absurd hparentFailed hfl
      · cases hm
  have hpath : Path succs top member := by
    have hpath := hrooted.from_root member hpart
    rw [hmember] at hpath
    exact hpath
  have htou := h.touched_of_path (.inl hord) hpath
  cases hk : sched.order member with
  | some k => exact hdone _ member k hk le_rfl hmember hne
  | none =>
    have hunregistered := htou.resolve_left (fun hsome => hsome hk)
    exact absurd ((h.unregistered member hunregistered hk).symm.trans hmember) hne

/-- Where the root of a component is done, everything that it reaches is. -/
theorem Scheduled.reached_done {reached : V} (htop : root top = top) (hdone : (sched.stage
    top).IsDone) (hpath : Path succs top reached) : (sched.stage reached).IsDone := by
  have hmembers : ∀ member, part member → (sched.stage (root member)).IsDone →
      (sched.stage member).IsDone := by
    intro member hpart hroot
    by_cases heq : member = root member
    · rw [heq]
      exact hroot
    · exact h.members_done hrooted (hrooted.root_root hpart)
        (h.order_of_done hroot) hroot.not_failed
        (h.notMem_parents_of_done hroot) hpart rfl heq
  have hpart : part top := h.mem_part top (.inl (h.order_of_done hdone))
  have hboth : part reached ∧ (sched.stage (root reached)).IsDone := by
    induction hpath with
    | refl =>
      rw [htop]
      exact ⟨hpart, hdone⟩
    | @tail cur next _ hedge ih =>
      obtain ⟨hcur, hcurrentRoot⟩ := ih
      have hcurrentDone := hmembers cur hcur hcurrentRoot
      refine ⟨hrooted.successor cur hcur next hedge, ?_⟩
      by_cases heq : root next = root cur
      · rw [heq]
        exact hcurrentRoot
      · rcases h.outer cur (h.order_of_done hcurrentDone) hcurrentDone.not_failed
          (fun hm => nomatch hm) next hedge heq with hn | hm
        · exact hn
        · exact absurd hm (h.notMem_parents_of_done hcurrentDone (root next))
  exact hmembers reached hboth.1 hboth.2

omit hrooted in
theorem Scheduled.not_failed_of_ready {job : V} (hready : job ∈ sched.ready) :
    ¬ (sched.stage job).IsFailed := by
  rintro ⟨err, herr⟩
  rcases (h.ready_stage job hready).1 with hsg | hsg
  · rw [hsg] at herr
    cases herr
  · rw [hsg] at herr
    cases herr

end

/-- While a registered job is neither done nor failed, and none is ready, one that it reaches
runs. -/
theorem Scheduled.exists_started (hidle : sched.ready = []) (htou : sched.Touched job) (hdone : ¬
    (sched.stage job).IsDone) (hfl : ¬ (sched.stage job).IsFailed) :
    ∃ reached, Path succs job reached ∧ sched.stage reached = .started := by
  obtain ⟨k, hk⟩ := Option.ne_none_iff_exists'.mp (htou.resolve_right hfl)
  induction k using Nat.strong_induction_on generalizing job with
  | _ k ih =>
    cases hsg : sched.stage job with
    | started => exact ⟨job, .refl, hsg⟩
    | done val => exact absurd ⟨val, hsg⟩ hdone
    | failed err => exact absurd ⟨err, hsg⟩ hfl
    | fresh =>
      have hready := h.ready_of_fresh job hsg (by rw [hk]; exact Option.some_ne_none k)
      rw [hidle] at hready
      cases hready
    | waiting =>
      obtain ⟨blockers, -, hlen, hiff⟩ := h.blockers job hsg (fun hm => nomatch hm)
      cases blockers with
      | nil =>
        have hready := h.ready_of_waiting job hsg hlen.symm
        rw [hidle] at hready
        cases hready
      | cons blocker others =>
        obtain ⟨-, hpath, hblockerDone, hblockerFailed, k', l, hk', hl, hlt⟩ :=
          h.parent blocker job ((hiff blocker).mpr List.mem_cons_self)
        rw [hk] at hl
        cases hl
        obtain ⟨reached, hreached, hstd⟩ := ih k' hlt
          (.inl (by rw [hk']; exact Option.some_ne_none k'))
          hblockerDone hblockerFailed hk'
        exact ⟨reached, hpath.trans hreached, hstd⟩

end

end TachyonEngine.Lib.Scheduling
