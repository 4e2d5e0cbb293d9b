import TachyonEngine.Lib.SchedulingSteps

/-!
# Registration

A walk registers the jobs that a root reaches, in the order in which it leaves them. Where the walk
leaves each component by its root, and no other member requests what has failed, every job waits for
enough.
-/

namespace TachyonEngine.Lib.Scheduling

open Lib.Components (Path)
open Lib.Postorder List Function

universe u v

variable {V : Type u} {α : Type v}

/-- What the order of a walk has to be like. -/
structure Enterable (succs : V → List V) (root : V → V) (order : List V) (begun : Schedule V α) :
    Prop where
  fresh : ∀ job ∈ order, begun.stage job = .fresh → begun.order job = none
  root_last : ∀ pre job post, order = pre ++ job :: post → ¬ begun.Touched job →
    root job = job ∨ root job ∈ post
  clean : ∀ job ∈ order, ¬ begun.Touched job → root job ≠ job → ∀ request ∈ succs job,
    root request ≠ root job → ∀ reached, Path succs request reached →
      ¬ (begun.stage reached).IsFailed

/-- What holds after the jobs of `before` were registered. -/
structure Registering (succs : V → List V) (root : V → V) (part : V → Prop) (Threw : V → α → Prop)
    (begun : Schedule V α) (pre rest : List V) (sched : Schedule V α) : Prop where
  scheduled : Scheduled succs root part Threw rest [] sched
  fresh : ∀ job ∈ rest, sched.stage job = .fresh → sched.order job = none
  old : ∀ job ∈ rest, sched.Touched job → ∀ request ∈ succs job, sched.Touched request
  passed : ∀ job ∈ pre, sched.Touched job
  grown : ∀ job, begun.Touched job → sched.Touched job
  blamed : ∀ job, (sched.stage job).IsFailed →
    ∃ reached, Path succs job reached ∧ (begun.stage reached).IsFailed

/-- What a job waits for when it is registered. -/
def Dependency (succs : V → List V) (root : V → V) (sched : Schedule V α)
    (job dependency : V) : Prop :=
  ∃ request ∈ succs job,
    (root request ≠ root job ∧ dependency = root request ∧ ¬ (sched.stage (root request)).IsDone) ∨
    (root request = root job ∧ dependency = request ∧ sched.order request ≠ none)

/-- A job is registered that waits for the dependencies, and is ready where there are none. -/
structure Admits (sched next : Schedule V α) (job : V) (dependencies : List V) : Prop where
  stage_of_ne : ∀ other, other ≠ job → next.stage other = sched.stage other
  stage : next.stage job = .fresh ∧ dependencies = [] ∨ next.stage job = .waiting
  order_of_ne : ∀ other, other ≠ job → next.order other = sched.order other
  order : next.order job = some sched.next
  next_eq : next.next = sched.next + 1
  parents : ∀ dependency other, other ∈ next.parents dependency ↔
    other ∈ sched.parents dependency ∨ dependency ∈ dependencies ∧ other = job
  parents_nodup : ∀ dependency, (next.parents dependency).Nodup
  ready_nodup : next.ready.Nodup
  ready : ∀ other, other ∈ next.ready ↔ other ∈ sched.ready ∨ other = job ∧ next.stage job = .fresh
  pending_of_ne : ∀ other, other ≠ job → next.pending other = sched.pending other
  pending : next.stage job = .waiting → dependencies.Nodup ∧ dependencies ≠ [] ∧
    next.pending job = dependencies.length

variable {succs : V → List V} {root : V → V} {part : V → Prop} {Threw : V → α → Prop}
  {begun sched next : Schedule V α} {top job other : V} {order pre post dependencies : List V}

theorem Admits.isDone_iff (h : Admits sched next job dependencies)
    (hfresh : sched.stage job = .fresh)
    (other : V) : (next.stage other).IsDone ↔ (sched.stage other).IsDone := by
  refine stage_iff_of_ne h.stage_of_ne (iff_of_false ?_ ?_) other
  · exact Stage.not_isDone_of_open (h.stage.imp_left And.left)
  · rw [hfresh]
    exact Stage.not_isDone_fresh

theorem Admits.isFailed_iff (h : Admits sched next job dependencies)
    (hfresh : sched.stage job = .fresh) (other : V) :
    (next.stage other).IsFailed ↔ (sched.stage other).IsFailed := by
  refine stage_iff_of_ne h.stage_of_ne (iff_of_false ?_ ?_) other
  · exact Stage.not_isFailed_of_open (h.stage.imp_left And.left)
  · rw [hfresh]
    exact Stage.not_isFailed_fresh

/-- Before the first job. -/
theorem Scheduled.registering (h : Scheduled succs root part Threw [] [] begun)
    (henter : Enterable succs root order begun) :
    Registering succs root part Threw begun [] order begun where
  scheduled :=
    { h with
      entered := by
        intro job k hk hroot
        obtain ⟨parent, hp, hedge, hcases⟩ := h.entered job k hk hroot
        refine ⟨parent, hp, hedge, ?_⟩
        rcases hcases with hlat | hfl | ⟨hm, -⟩
        · exact .inl hlat
        · exact .inr (.inl hfl)
        · cases hm
      closed := fun job hjob req hreq =>
        .inl ((h.closed job hjob req hreq).resolve_right fun hm => nomatch hm) }
  fresh := henter.fresh
  old := fun job _ hjob req hreq =>
    (h.closed job hjob req hreq).resolve_right fun hm => nomatch hm
  passed := fun job hm => nomatch hm
  grown := fun _ hjob => hjob
  blamed := fun job hjob => ⟨job, .refl, hjob⟩

/-- After the last job. -/
theorem Registering.finish (h : Registering succs root part Threw begun pre [] sched) :
    Scheduled succs root part Threw [] [] sched :=
  h.scheduled

section Register

variable (hpost : Postordered succs top order) (horder : order = pre ++ job :: post)
  (h : Registering succs root part Threw begun pre (job :: post) sched)

include h

/-- A job that is not fresh was registered before. -/
theorem Registering.skip (hsg : sched.stage job ≠ .fresh) :
    Registering succs root part Threw begun (pre ++ [job]) post sched := by
  have htou : sched.Touched job := ((h.scheduled.order_of_stage job).resolve_left hsg).symm
  refine ⟨{ h.scheduled with entered := ?_, closed := ?_ }, ?_, ?_, ?_, h.grown, h.blamed⟩
  · intro other k hk hroot
    obtain ⟨parent, hp, hedge, hcases⟩ := h.scheduled.entered other k hk hroot
    refine ⟨parent, hp, hedge, hcases.imp_right (Or.imp_right ?_)⟩
    rintro ⟨hm, hnot⟩
    rcases mem_cons.mp hm with rfl | hm
    · exact absurd htou hnot
    · exact ⟨hm, hnot⟩
  · intro other ho req hreq
    rcases h.scheduled.closed other ho req hreq with hin | hin
    · exact .inl hin
    · rcases mem_cons.mp hin with rfl | hin
      · exact .inl htou
      · exact .inr hin
  · exact fun other ho => h.fresh other (mem_cons_of_mem _ ho)
  · exact fun other ho => h.old other (mem_cons_of_mem _ ho)
  · intro other ho
    rcases mem_append.mp ho with ho | ho
    · exact h.passed other ho
    · exact mem_singleton.mp ho ▸ htou

include hpost horder

/-- What a request outside of the component reaches was registered. -/
theorem Registering.touched_of_request (hrooted : Rooted succs root part) (hpart : part job)
    {req reached : V} (hreq : req ∈ succs job) (hout : root req ≠ root job)
    (hpath : Path succs req reached) : sched.Touched reached := by
  refine h.passed reached (hpost.mem_before horder hreq (fun hback => hout ?_) hpath)
  exact hrooted.unique req job (hrooted.successor job hpart req hreq) hpart hback (.single hreq)

/-- What a job requests was registered, is the job itself, or is left. -/
theorem Registering.request_cases {req : V} (hreq : req ∈ succs job) :
    sched.Touched req ∨ req = job ∨ req ∈ post := by
  have hm : req ∈ order := by
    refine (hpost.mem_iff req).mpr (((hpost.mem_iff job).mp ?_).tail hreq)
    rw [horder]
    exact mem_append_right _ mem_cons_self
  rw [horder, mem_append, mem_cons] at hm
  exact hm.imp_left (h.passed req)

/-- What the registration of a job leaves as it was, if nothing but the job changes. -/
theorem Registering.moved (hoff : ∀ other, other ≠ job →
      next.stage other = sched.stage other ∧ next.order other = sched.order other)
    (hjob : next.Touched job) (hpart : part job) :
    (∀ other, sched.Touched other → next.Touched other) ∧
    (∀ other ∈ post, next.Touched other → sched.Touched other) ∧
    (∀ other, next.Touched other → ∀ req ∈ succs other, next.Touched req ∨ req ∈ post) ∧
    (∀ other, next.Touched other → part other) ∧
    (∀ other ∈ post, next.stage other = .fresh → next.order other = none) ∧
    (∀ other ∈ post, next.Touched other → ∀ req ∈ succs other, next.Touched req) ∧
    ∀ other ∈ pre ++ [job], next.Touched other := by
  have hne : ∀ other ∈ post, other ≠ job := by
    rintro other hm rfl
    exact hpost.notMem_after horder hm
  have htou : ∀ other, other ≠ job → (next.Touched other ↔ sched.Touched other) := by
    intro other ho
    rw [Schedule.Touched, Schedule.Touched, (hoff other ho).1, (hoff other ho).2]
  have hgrown : ∀ other, sched.Touched other → next.Touched other := by
    intro other ho
    by_cases heq : other = job
    · exact heq ▸ hjob
    · exact (htou other heq).mpr ho
  refine ⟨hgrown, fun other hm => (htou other (hne other hm)).mp, ?_, ?_, ?_, ?_, ?_⟩
  · intro other ho req hreq
    by_cases heq : other = job
    · subst heq
      rcases h.request_cases hpost horder hreq with hin | rfl | hin
      · exact .inl (hgrown req hin)
      · exact .inl hjob
      · exact .inr hin
    · rcases h.scheduled.closed other ((htou other heq).mp ho) req hreq with hin | hin
      · exact .inl (hgrown req hin)
      · rcases mem_cons.mp hin with rfl | hin
        · exact .inl hjob
        · exact .inr hin
  · intro other ho
    by_cases heq : other = job
    · exact heq ▸ hpart
    · exact h.scheduled.mem_part other ((htou other heq).mp ho)
  · intro other hm ho
    rw [(hoff other (hne other hm)).1] at ho
    rw [(hoff other (hne other hm)).2]
    exact h.fresh other (mem_cons_of_mem _ hm) ho
  · intro other hm ho req hreq
    exact hgrown req (h.old other (mem_cons_of_mem _ hm)
      ((htou other (hne other hm)).mp ho) req hreq)
  · intro other hm
    rcases mem_append.mp hm with hm | hm
    · exact hgrown other (h.passed other hm)
    · exact mem_singleton.mp hm ▸ hjob

omit hpost horder

variable (hfresh : sched.stage job = .fresh)

include hfresh

theorem Registering.order_none : sched.order job = none := h.fresh job mem_cons_self hfresh

theorem Registering.untouched : ¬ sched.Touched job := by
  rintro (hsome | hfl)
  · exact hsome (h.order_none hfresh)
  · rw [hfresh] at hfl
    exact Stage.not_isFailed_fresh hfl

theorem Registering.notMem_parents (dep : V) : job ∉ sched.parents dep := by
  intro hm
  obtain ⟨-, -, -, -, k, l, -, hl, -⟩ := h.scheduled.parent dep job hm
  rw [h.order_none hfresh] at hl
  cases hl

theorem Registering.parents_nil : sched.parents job = [] := by
  refine eq_nil_iff_forall_not_mem.mpr fun other hm => ?_
  obtain ⟨-, -, -, -, k, l, hk, -, -⟩ := h.scheduled.parent job other hm
  rw [h.order_none hfresh] at hk
  cases hk

theorem Registering.notMem_ready : job ∉ sched.ready := fun hready =>
  (h.scheduled.ready_stage job hready).2.1 (h.order_none hfresh)

include hpost horder

/-- The member from which the walk entered the job comes later, and is not registered yet. -/
theorem Registering.entered_from (hrooted : Rooted succs root part) (hpart : part job)
    (henter : Enterable succs root order begun) (hroot : root job ≠ job) :
    ∃ parent ∈ post, root parent = root job ∧ job ∈ succs parent ∧ ¬ sched.Touched parent := by
  have hnot : ¬ begun.Touched job := fun hin => h.untouched hfresh (h.grown job hin)
  have hlat := (henter.root_last pre job post horder hnot).resolve_left hroot
  obtain ⟨parent, hm, hedge, hpath⟩ := hpost.exists_parent horder hlat (hrooted.to_root job hpart)
  refine ⟨parent, hm, ?_, hedge, fun htou => ?_⟩
  · exact hrooted.unique parent job (hrooted.part_of_path hpart hpath) hpart (.single hedge) hpath
  · exact h.untouched hfresh (h.old parent (mem_cons_of_mem _ hm) htou job hedge)

/-! ## Refusal -/

section Refuse

variable [DecidableEq V] (hrooted : Rooted succs root part) (hpart : part job)
  (henter : Enterable succs root order begun)

include hrooted hpart henter

/-- A job fails when what it requests has failed. -/
theorem Registering.refuse {req : V} {err : α} (hreq : req ∈ succs job)
    (hout : root req ≠ root job) (hfl : sched.stage (root req) = .failed err) :
    Registering succs root part Threw begun (pre ++ [job]) post (sched.fail job err) := by
  have hself : (Stage.failed err).IsFailed := ⟨err, rfl⟩
  have hn := h.order_none hfresh
  have hnil := h.parents_nil hfresh
  have hto : Path succs job (root req) :=
    .head hreq (hrooted.to_root req (hrooted.successor job hpart req hreq))
  obtain ⟨blamed, hblamedPath, hblamed⟩ := h.blamed (root req) ⟨err, hfl⟩
  -- only the root of a component requests what has failed
  have hroot : root job = job := by
    by_contra hroot
    have hnot : ¬ begun.Touched job := fun hin => h.untouched hfresh (h.grown job hin)
    have hm : job ∈ order := by
      rw [horder]
      exact mem_append_right _ mem_cons_self
    refine henter.clean job hm hnot hroot req hreq hout blamed ?_ hblamed
    exact (hrooted.to_root req (hrooted.successor job hpart req hreq)).trans hblamedPath
  have hparents : (sched.fail job err).parents = sched.parents := by
    change update sched.parents job [] = sched.parents
    rw [← hnil]
    exact update_eq_self job sched.parents
  have hnotDone : ¬ (sched.stage job).IsDone := by
    rw [hfresh]
    exact Stage.not_isDone_fresh
  have hjob : (sched.fail job err).Touched job := by
    refine .inr ?_
    rw [stage_fail_self]
    exact hself
  obtain ⟨hgrown, hs, hcl, hmember, hfreshAfter, hold, hpassed⟩ := h.moved hpost horder
    (fun other hne => ⟨stage_fail_of_ne err hne, rfl⟩) hjob hpart
  have hne_of_order : ∀ {other : V}, sched.order other ≠ none → other ≠ job := by
    rintro other hsome rfl
    exact hsome hn
  refine ⟨?_, hfreshAfter, hold, hpassed, fun other ho => hgrown other (h.grown other ho), ?_⟩
  · refine
      { entered := ?_
        closed := hcl
        unregistered := ?_
        mem_part := hmember
        ready_nodup := h.scheduled.ready_nodup
        ready_stage := ?_
        ready_of_fresh := fun other ho =>
          h.scheduled.ready_of_fresh other (stage_of_fail ho Stage.not_isFailed_fresh).1
        ready_of_waiting := fun other ho =>
          h.scheduled.ready_of_waiting other (stage_of_fail ho Stage.not_isFailed_waiting).1
        order_lt := h.scheduled.order_lt
        order_of_stage := ?_
        parents_nodup := ?_
        parent := ?_
        blockers := ?_
        outer := ?_
        inner := ?_
        young := ?_
        cause := ?_ }
    · intro other k hk ho
      obtain ⟨parent, hp, hedge, hcases⟩ := h.scheduled.entered other k hk ho
      refine ⟨parent, hp, hedge, ?_⟩
      rcases hcases with hlat | ⟨heq, hin⟩ | ⟨hm, hnot⟩
      · exact .inl hlat
      · exact .inr (.inl ⟨heq, isFailed_fail hin⟩)
      · rcases mem_cons.mp hm with rfl | hlat
        · rw [stage_fail_self]
          exact .inr (.inl ⟨hroot.symm.trans hp, hself⟩)
        · exact .inr (.inr ⟨hlat, fun hin => hnot (hs parent hlat hin)⟩)
    · intro other ho hn
      by_cases heq : other = job
      · subst heq
        exact hroot
      · rw [stage_fail_of_ne err heq] at ho
        exact h.scheduled.unregistered other ho hn
    · intro other hready
      have hne := hne_of_order (h.scheduled.ready_stage other hready).2.1
      rw [stage_fail_of_ne err hne, hparents]
      exact h.scheduled.ready_stage other hready
    · intro other
      by_cases heq : other = job
      · subst heq
        rw [stage_fail_self]
        exact .inr (.inl hself)
      · rw [stage_fail_of_ne err heq]
        exact h.scheduled.order_of_stage other
    · rw [hparents]
      exact h.scheduled.parents_nodup
    · rw [hparents]
      intro dep other hm
      have hne : other ≠ job := by
        rintro rfl
        exact h.notMem_parents hfresh dep hm
      have hne' : dep ≠ job := by
        rintro rfl
        rw [hnil] at hm
        cases hm
      rw [stage_fail_of_ne err hne, stage_fail_of_ne err hne']
      exact h.scheduled.parent dep other hm
    · rw [hparents]
      exact fun other ho hdoomed =>
        h.scheduled.blockers other (stage_of_fail ho Stage.not_isFailed_waiting).1 hdoomed
    · intro other hsome hnot hdoomed req hreq hout
      rw [stage_fail_of_ne err (hne_of_order hsome)] at hnot
      rw [isDone_fail hnotDone, hparents]
      exact h.scheduled.outer other hsome hnot hdoomed req hreq hout
    · intro other k hk hnot hdoomed req hreq hins j hj hlt
      have hsome : sched.order other ≠ none := fun heq => by
        rw [show sched.order other = some k from hk] at heq
        cases heq
      rw [stage_fail_of_ne err (hne_of_order hsome)] at hnot
      rw [isDone_fail hnotDone, hparents]
      exact h.scheduled.inner other k hk hnot hdoomed req hreq hins j hj hlt
    · intro other hsome reached hpath hnot
      rw [stage_fail_of_ne err (hne_of_order hsome)]
      exact h.scheduled.young other hsome reached hpath fun hin => hnot (hgrown reached hin)
    · intro other err' herr
      by_cases heq : other = job
      · subst heq
        rw [stage_fail_self] at herr
        cases herr
        obtain ⟨reached, hpath, hthrew⟩ := h.scheduled.cause (root req) err hfl
        exact ⟨reached, hto.trans hpath, hthrew⟩
      · rw [stage_fail_of_ne err heq] at herr
        exact h.scheduled.cause other err' herr
  · intro other ho
    by_cases heq : other = job
    · subst heq
      exact ⟨blamed, hto.trans hblamedPath, hblamed⟩
    · rw [stage_fail_of_ne err heq] at ho
      exact h.blamed other ho

end Refuse

/-! ## Registration of a job that may run -/

section Admit

variable (hrooted : Rooted succs root part) (hpart : part job)
  (henter : Enterable succs root order begun) (hadm : Admits sched next job dependencies)
  (hdeps : ∀ dep, dep ∈ dependencies ↔ Dependency succs root sched job dep)
  (hclean : ∀ req ∈ succs job, root req ≠ root job → ¬ (sched.stage (root req)).IsFailed)

include hrooted hpart hclean

/-- What a job waits for was registered, and is open. -/
theorem Registering.dependency_open {dep : V} (hdep : Dependency succs root sched job dep) :
    dep ≠ job ∧ Path succs job dep ∧ ¬ (sched.stage dep).IsDone ∧ ¬ (sched.stage dep).IsFailed ∧
      ∃ k, sched.order dep = some k := by
  obtain ⟨req, hreq, ⟨hout, rfl, hnotDone⟩ | ⟨hins, rfl, hsome⟩⟩ := hdep
  · have hto := hrooted.to_root req (hrooted.successor job hpart req hreq)
    have hnotFailed := hclean req hreq hout
    have hin := h.touched_of_request hpost horder hrooted hpart hreq hout hto
    refine ⟨?_, .head hreq hto, hnotDone, hnotFailed, ?_⟩
    · intro heq
      rw [heq] at hin
      exact h.untouched hfresh hin
    · exact Option.ne_none_iff_exists'.mp (hin.resolve_right hnotFailed)
  · have hback := hrooted.path_of_root_eq (hrooted.successor job hpart dep hreq) hpart hins
    have hsg := h.scheduled.young dep hsome job hback (h.untouched hfresh)
    refine ⟨?_, .single hreq, Stage.not_isDone_of_open hsg, Stage.not_isFailed_of_open hsg,
      Option.ne_none_iff_exists'.mp hsome⟩
    rintro rfl
    exact hsome (h.order_none hfresh)

include hadm hdeps

theorem Registering.parent_admit (dep : V) (hm : other ∈ next.parents dep) :
    (next.stage other = .waiting ∨ (next.stage other).IsFailed) ∧ Path succs other dep ∧
      ¬ (next.stage dep).IsDone ∧ ¬ (next.stage dep).IsFailed ∧
      ∃ k l, next.order dep = some k ∧ next.order other = some l ∧ k < l := by
  rcases (hadm.parents dep other).mp hm with hm | ⟨hm, rfl⟩
  · have hne : other ≠ job := by
      rintro rfl
      exact h.notMem_parents hfresh dep hm
    have hne' : dep ≠ job := by
      rintro rfl
      rw [h.parents_nil hfresh] at hm
      cases hm
    rw [hadm.stage_of_ne other hne, hadm.stage_of_ne dep hne', hadm.order_of_ne other hne,
      hadm.order_of_ne dep hne']
    exact h.scheduled.parent dep other hm
  · obtain ⟨hne, hpath, hnotDone, hnotFailed, k, hk⟩ :=
      h.dependency_open hpost horder hfresh hrooted hpart hclean ((hdeps dep).mp hm)
    rw [hadm.stage_of_ne dep hne, hadm.order_of_ne dep hne]
    refine ⟨.inl (hadm.stage.resolve_left ?_), hpath, hnotDone, hnotFailed, k, sched.next, hk,
      hadm.order, h.scheduled.order_lt dep k hk⟩
    rintro ⟨-, rfl⟩
    cases hm

omit hpost horder hrooted hpart hclean

theorem Registering.outer_admit (hsome : next.order other ≠ none)
    (hnot : ¬ (next.stage other).IsFailed)
    {req : V} (hreq : req ∈ succs other) (hout : root req ≠ root other) :
    (next.stage (root req)).IsDone ∨ other ∈ next.parents (root req) := by
  rw [hadm.isDone_iff hfresh, hadm.parents]
  by_cases heq : other = job
  · subst heq
    by_cases hin : (sched.stage (root req)).IsDone
    · exact .inl hin
    · exact .inr (.inr ⟨(hdeps _).mpr ⟨req, hreq, .inl ⟨hout, rfl, hin⟩⟩, rfl⟩)
  · rw [hadm.order_of_ne other heq] at hsome
    rw [hadm.isFailed_iff hfresh] at hnot
    exact (h.scheduled.outer other hsome hnot not_mem_nil req hreq hout).imp_right .inl

theorem Registering.inner_admit {k j : Nat} (hk : next.order other = some k)
    (hnot : ¬ (next.stage other).IsFailed) {req : V} (hreq : req ∈ succs other)
    (hins : root req = root other) (hj : next.order req = some j) (hlt : j < k) :
    (next.stage req).IsDone ∨ other ∈ next.parents req := by
  rw [hadm.isDone_iff hfresh, hadm.parents]
  by_cases heq : other = job
  · subst heq
    have hne : req ≠ other := by
      rintro rfl
      rw [hk] at hj
      cases hj
      exact lt_irrefl _ hlt
    rw [hadm.order_of_ne req hne] at hj
    refine .inr (.inr ⟨(hdeps _).mpr ⟨req, hreq, .inr ⟨hins, rfl, ?_⟩⟩, rfl⟩)
    rw [hj]
    exact Option.some_ne_none j
  · rw [hadm.order_of_ne other heq] at hk
    rw [hadm.isFailed_iff hfresh] at hnot
    have hne : req ≠ job := by
      rintro rfl
      rw [hadm.order] at hj
      cases hj
      exact absurd hlt (Nat.lt_asymm (h.scheduled.order_lt other k hk))
    rw [hadm.order_of_ne req hne] at hj
    exact (h.scheduled.inner other k hk hnot not_mem_nil req hreq hins j hj hlt).imp_right .inl

omit hdeps

theorem Registering.ready_stage_admit (hm : other ∈ next.ready) :
    (next.stage other = .fresh ∨ next.stage other = .waiting) ∧ next.order other ≠ none ∧
      ∀ dep, other ∉ next.parents dep := by
  rcases (hadm.ready other).mp hm with hm | ⟨rfl, hjobFresh⟩
  · obtain ⟨hotherStage, hsome, hfree⟩ := h.scheduled.ready_stage other hm
    have hne : other ≠ job := by
      rintro rfl
      exact hsome (h.order_none hfresh)
    rw [hadm.stage_of_ne other hne, hadm.order_of_ne other hne]
    refine ⟨hotherStage, hsome, fun dep hin => ?_⟩
    rcases (hadm.parents dep other).mp hin with hin | ⟨-, heq⟩
    · exact hfree dep hin
    · exact hne heq
  · refine ⟨.inl hjobFresh, by rw [hadm.order]; exact Option.some_ne_none _, fun dep hin => ?_⟩
    rcases (hadm.parents dep other).mp hin with hin | ⟨hin, -⟩
    · exact h.notMem_parents hfresh dep hin
    · rcases hadm.stage with ⟨-, hempty⟩ | hwait
      · rw [hempty] at hin
        cases hin
      · rw [hjobFresh] at hwait
        cases hwait

theorem Registering.blockers_admit (ho : next.stage other = .waiting) : ∃ blockers : List V,
    blockers.Nodup ∧ blockers.length = next.pending other ∧
      ∀ dep, other ∈ next.parents dep ↔ dep ∈ blockers := by
  by_cases heq : other = job
  · subst heq
    obtain ⟨hnodup, -, hlen⟩ := hadm.pending ho
    refine ⟨dependencies, hnodup, hlen.symm, fun dep => ?_⟩
    rw [hadm.parents]
    exact ⟨fun hm => (hm.resolve_left (h.notMem_parents hfresh dep)).1, fun hm => .inr ⟨hm, rfl⟩⟩
  · rw [hadm.stage_of_ne other heq] at ho
    obtain ⟨blockers, hnodup, hlen, hiff⟩ := h.scheduled.blockers other ho not_mem_nil
    refine ⟨blockers, hnodup, hlen.trans (hadm.pending_of_ne other heq).symm, fun dep => ?_⟩
    rw [hadm.parents, ← hiff]
    exact or_iff_left fun hm => heq hm.2

include hpost horder hrooted hpart henter

/-- The parent of the job is left; that of another one may be the job. -/
theorem Registering.entered_admit (hs : ∀ other ∈ post, next.Touched other → sched.Touched other)
    {k : Nat} (hk : next.order other = some k) (hroot : root other ≠ other) :
    ∃ parent, root parent = root other ∧ other ∈ succs parent ∧
      ((∃ l, next.order parent = some l ∧ k < l) ∨
        (parent = root other ∧ (next.stage parent).IsFailed) ∨
        (parent ∈ post ∧ ¬ next.Touched parent)) := by
  by_cases heq : other = job
  · subst heq
    obtain ⟨parent, hm, hp, hedge, hnot⟩ :=
      h.entered_from hpost horder hfresh hrooted hpart henter hroot
    exact ⟨parent, hp, hedge, .inr (.inr ⟨hm, fun hin => hnot (hs parent hm hin)⟩)⟩
  · rw [hadm.order_of_ne other heq] at hk
    obtain ⟨parent, hp, hedge, hcases⟩ := h.scheduled.entered other k hk hroot
    refine ⟨parent, hp, hedge, ?_⟩
    rcases hcases with ⟨l, hl, hlt⟩ | ⟨hrootEq, hin⟩ | ⟨hm, hnot⟩
    · have hne : parent ≠ job := by
        rintro rfl
        rw [h.order_none hfresh] at hl
        cases hl
      exact .inl ⟨l, (hadm.order_of_ne parent hne).trans hl, hlt⟩
    · exact .inr (.inl ⟨hrootEq, (hadm.isFailed_iff hfresh parent).mpr hin⟩)
    · rcases mem_cons.mp hm with rfl | hlat
      · exact .inl ⟨sched.next, hadm.order, h.scheduled.order_lt other k hk⟩
      · exact .inr (.inr ⟨hlat, fun hin => hnot (hs parent hlat hin)⟩)

include hdeps hclean

/-- A job is registered with all that it waits for. -/
theorem Registering.admit : Registering succs root part Threw begun (pre ++ [job]) post next := by
  have hjob : next.Touched job := .inl (by rw [hadm.order]; exact Option.some_ne_none _)
  have hnotFailed : ¬ (next.stage job).IsFailed :=
    Stage.not_isFailed_of_open (hadm.stage.imp_left And.left)
  obtain ⟨hgrown, hs, hcl, hmember, hfreshAfter, hold, hpassed⟩ := h.moved hpost horder
    (fun other hne => ⟨hadm.stage_of_ne other hne, hadm.order_of_ne other hne⟩) hjob hpart
  refine ⟨?_, hfreshAfter, hold, hpassed, fun other ho => hgrown other (h.grown other ho),
    fun other ho => h.blamed other ((hadm.isFailed_iff hfresh other).mp ho)⟩
  refine
    { entered := fun _ _ => h.entered_admit hpost horder hfresh hrooted hpart henter hadm hs
      closed := hcl
      unregistered := ?_
      mem_part := hmember
      ready_nodup := hadm.ready_nodup
      ready_stage := fun _ => h.ready_stage_admit hfresh hadm
      ready_of_fresh := ?_
      ready_of_waiting := ?_
      order_lt := ?_
      order_of_stage := ?_
      parents_nodup := hadm.parents_nodup
      parent := fun dep _ => h.parent_admit hpost horder hfresh hrooted hpart hadm hdeps hclean dep
      blockers := fun _ ho _ => h.blockers_admit hfresh hadm ho
      outer := fun _ hsome hnot _ _ => h.outer_admit hfresh hadm hdeps hsome hnot
      inner := fun _ _ hk hnot _ _ hreq hins _ => h.inner_admit hfresh hadm hdeps hk hnot hreq hins
      young := ?_
      cause := ?_ }
  · intro other ho hnoOrder
    have hne : other ≠ job := by
      rintro rfl
      exact hnotFailed ho
    rw [hadm.order_of_ne other hne] at hnoOrder
    exact h.scheduled.unregistered other ((hadm.isFailed_iff hfresh other).mp ho) hnoOrder
  · intro other ho hsome
    by_cases heq : other = job
    · subst heq
      exact (hadm.ready other).mpr (.inr ⟨rfl, ho⟩)
    · rw [hadm.stage_of_ne other heq] at ho
      rw [hadm.order_of_ne other heq] at hsome
      exact (hadm.ready other).mpr (.inl (h.scheduled.ready_of_fresh other ho hsome))
  · intro other ho hz
    by_cases heq : other = job
    · subst heq
      obtain ⟨-, hne, hlen⟩ := hadm.pending ho
      exact absurd (eq_nil_of_length_eq_zero (hlen.symm.trans hz)) hne
    · rw [hadm.stage_of_ne other heq] at ho
      rw [hadm.pending_of_ne other heq] at hz
      exact (hadm.ready other).mpr (.inl (h.scheduled.ready_of_waiting other ho hz))
  · intro other k hk
    rw [hadm.next_eq]
    by_cases heq : other = job
    · subst heq
      rw [hadm.order] at hk
      cases hk
      exact Nat.lt_succ_self _
    · rw [hadm.order_of_ne other heq] at hk
      exact Nat.lt_succ_of_lt (h.scheduled.order_lt other k hk)
  · intro other
    by_cases heq : other = job
    · subst heq
      exact .inr hjob.symm
    · rw [hadm.stage_of_ne other heq, hadm.order_of_ne other heq]
      exact h.scheduled.order_of_stage other
  · intro other hsome reached hpath hnot
    by_cases heq : other = job
    · exact heq ▸ hadm.stage.imp_left And.left
    · rw [hadm.stage_of_ne other heq]
      rw [hadm.order_of_ne other heq] at hsome
      exact h.scheduled.young other hsome reached hpath fun hin => hnot (hgrown reached hin)
  · intro other err herr
    have hne : other ≠ job := by
      rintro rfl
      exact hnotFailed ⟨err, herr⟩
    rw [hadm.stage_of_ne other hne] at herr
    exact h.scheduled.cause other err herr

end Admit

section Operations

variable [DecidableEq V] (hrooted : Rooted succs root part)
  (hpart : part job) (henter : Enterable succs root order begun)

include hrooted hpart henter

theorem Registering.enqueue (hn : ∀ dep, ¬ Dependency succs root sched job dep)
    (hclean : ∀ req ∈ succs job, root req ≠ root job → ¬ (sched.stage (root req)).IsFailed) :
    Registering succs root part Threw begun (pre ++ [job]) post (sched.enqueue job) := by
  have hadm : Admits sched (sched.enqueue job) job [] :=
    { stage_of_ne := fun _ _ => rfl
      stage := .inl ⟨hfresh, rfl⟩
      order_of_ne := fun other hne => update_of_ne hne _ _
      order := update_self _ _ _
      next_eq := rfl
      parents := fun dep other => (or_iff_left fun hm => nomatch hm.1).symm
      parents_nodup := h.scheduled.parents_nodup
      ready_nodup := by
        refine h.scheduled.ready_nodup.append (nodup_singleton job) ?_
        intro other hm hjob
        obtain rfl := mem_singleton.mp hjob
        exact h.notMem_ready hfresh hm
      ready := by
        intro other
        change other ∈ sched.ready ++ [job] ↔ _ ∨ other = job ∧ sched.stage job = .fresh
        rw [mem_append, mem_singleton, and_iff_left hfresh]
      pending_of_ne := fun _ _ => rfl
      pending := by
        intro hwait
        change sched.stage job = .waiting at hwait
        rw [hfresh] at hwait
        cases hwait }
  exact h.admit hpost horder hfresh hrooted hpart henter hadm
    (fun dep => iff_of_false not_mem_nil (hn dep)) hclean

theorem Registering.await (hnodup : dependencies.Nodup) (hsome : dependencies ≠ [])
    (hdeps : ∀ dep, dep ∈ dependencies ↔ Dependency succs root sched job dep)
    (hclean : ∀ req ∈ succs job, root req ≠ root job → ¬ (sched.stage (root req)).IsFailed) :
    Registering succs root part Threw begun (pre ++ [job]) post (sched.await job dependencies) := by
  have hwait : (sched.await job dependencies).stage job = .waiting := update_self _ _ _
  have hadm : Admits sched (sched.await job dependencies) job dependencies :=
    { stage_of_ne := fun other hne => update_of_ne hne _ _
      stage := .inr hwait
      order_of_ne := fun other hne => update_of_ne hne _ _
      order := update_self _ _ _
      next_eq := rfl
      parents := by
        intro dep other
        change other ∈ (if dep ∈ dependencies then _ else _) ↔ _
        split_ifs with hm
        · rw [mem_append, mem_singleton, and_iff_right hm]
        · exact (or_iff_left fun hin => hm hin.1).symm
      parents_nodup := by
        intro dep
        change (if dep ∈ dependencies then _ else _ : List V).Nodup
        split
        · refine (h.scheduled.parents_nodup dep).append (nodup_singleton job) ?_
          intro other hm hjob
          obtain rfl := mem_singleton.mp hjob
          exact h.notMem_parents hfresh dep hm
        · exact h.scheduled.parents_nodup dep
      ready_nodup := h.scheduled.ready_nodup
      ready := by
        intro other
        refine (or_iff_left ?_).symm
        rintro ⟨-, hsg⟩
        rw [hwait] at hsg
        cases hsg
      pending_of_ne := fun other hne => update_of_ne hne _ _
      pending := fun _ => ⟨hnodup, hsome, update_self _ _ _⟩ }
  exact h.admit hpost horder hfresh hrooted hpart henter hadm hdeps hclean

end Operations

end Register

end TachyonEngine.Lib.Scheduling
