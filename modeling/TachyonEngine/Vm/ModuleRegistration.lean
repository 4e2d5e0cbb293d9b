import TachyonEngine.Vm.EvaluationWalk

/-!
# The registration of modules

A module is scanned, and it fails, is queued or waits. Over a linked graph the scan finds the
dependencies of the schedule, so that registration along a walk keeps what holds of a schedule. It
comes to no error while the counter of the orders lasts.
-/

namespace TachyonEngine.Vm

open Lib.Loop Lib.Scheduling List Function
open Lib.Components (Path Mark Closed)
open Lib.Postorder (Postordered)

namespace ModuleGraph

/-! ## Components of linked modules -/

def rootOf (g : ModuleGraph) (mdl : ModuleId) : ModuleId :=
  match g.mark mdl with
  | .closed cycleRoot => cycleRoot
  | _ => mdl

def IsLinked (g : ModuleGraph) (mdl : ModuleId) : Prop :=
  ∃ cycleRoot, g.mark mdl = .closed cycleRoot

theorem rootOf_eq {g : ModuleGraph} {mdl cycleRoot : ModuleId}
    (h : g.mark mdl = .closed cycleRoot) : g.rootOf mdl = cycleRoot := by
  rw [rootOf, h]

theorem Linkable.rooted {g : ModuleGraph} (h : Linkable g) :
    Rooted g.requested g.rootOf g.IsLinked where
  successor := by
    rintro mdl ⟨cycleRoot, hmark⟩ req hreq
    exact h.startable.closed.edge mdl cycleRoot hmark req hreq
  mem_root := by
    rintro mdl ⟨cycleRoot, hmark⟩
    rw [rootOf_eq hmark]
    exact ⟨cycleRoot, (h.startable.closed.root mdl cycleRoot hmark).1⟩
  to_root := by
    rintro mdl ⟨cycleRoot, hmark⟩
    rw [rootOf_eq hmark]
    exact (h.startable.closed.root mdl cycleRoot hmark).2.1
  from_root := by
    rintro mdl ⟨cycleRoot, hmark⟩
    rw [rootOf_eq hmark]
    exact (h.startable.closed.root mdl cycleRoot hmark).2.2
  unique := by
    rintro mdl other ⟨cycleRoot, hmark⟩ ⟨otherRoot, ho⟩ hpath hback
    rw [rootOf_eq hmark, rootOf_eq ho]
    exact h.startable.closed.unique mdl cycleRoot other otherRoot hmark ho hpath hback

/-- A linked module, as the records have it. -/
theorem IsLinked.record {g : ModuleGraph} {mdl : ModuleId} (h : g.IsLinked mdl) :
    ∃ rec, g.record mdl = .ok rec ∧ rec.status = .linked (g.rootOf mdl) := by
  obtain ⟨cycleRoot, hmark⟩ := h
  rw [rootOf_eq hmark]
  exact exists_linked hmark

/-! ## Scanning -/

section Scan

variable {g : ModuleGraph} {cycleRoot : ModuleId}

/-- What a module waits for on behalf of a request. -/
def Wants (g : ModuleGraph) (cycleRoot target dependency : ModuleId) : Prop :=
  (g.rootOf target ≠ cycleRoot ∧ dependency = g.rootOf target ∧
      ¬ (g.schedule.stage (g.rootOf target)).IsDone) ∨
    (g.rootOf target = cycleRoot ∧ dependency = target ∧ g.schedule.order target ≠ none)

/-- What a scan finds out about the targets of its requests. -/
def ScanFinds (g : ModuleGraph) (cycleRoot : ModuleId) (targets dependencies : List ModuleId) :
    Scan → Prop
  | .failed error => ∃ target ∈ targets, g.rootOf target ≠ cycleRoot ∧
      g.schedule.stage (g.rootOf target) = .failed error
  | .pending all => all.Nodup ∧ (∀ target ∈ targets, g.rootOf target ≠ cycleRoot →
        ¬ (g.schedule.stage (g.rootOf target)).IsFailed) ∧
      ∀ dependency, dependency ∈ all ↔ dependency ∈ dependencies ∨
        ∃ target ∈ targets, g.Wants cycleRoot target dependency

/-- The request at the head adds what it wants. -/
theorem ScanFinds.cons {tgt : ModuleId} {targets dependencies dependencies' : List ModuleId}
    {scan : Scan} (h : ScanFinds g cycleRoot targets dependencies' scan)
    (hclean : g.rootOf tgt ≠ cycleRoot → ¬ (g.schedule.stage (g.rootOf tgt)).IsFailed)
    (hiff : ∀ dep, dep ∈ dependencies' ↔ dep ∈ dependencies ∨ g.Wants cycleRoot tgt dep) :
    ScanFinds g cycleRoot (tgt :: targets) dependencies scan := by
  cases scan with
  | failed err =>
    obtain ⟨other, ho, hfl⟩ := h
    exact ⟨other, mem_cons_of_mem _ ho, hfl⟩
  | pending all =>
    obtain ⟨hnodup, hos, hall⟩ := h
    refine ⟨hnodup, ?_, fun dep => ?_⟩
    · intro other ho
      rcases mem_cons.mp ho with rfl | ho
      · exact hclean
      · exact hos other ho
    · rw [hall, hiff, or_assoc]
      simp only [mem_cons, exists_eq_or_imp]

theorem nodup_concat {dependencies : List ModuleId} {dep : ModuleId} (h : dependencies.Nodup)
    (hm : dep ∉ dependencies) : (dependencies ++ [dep]).Nodup := by
  refine h.append (nodup_singleton dep) fun other ho hself => ?_
  exact hm (mem_singleton.mp hself ▸ ho)

theorem scan_eq {requests : List ModuleIdentity} {dependencies : List ModuleId}
    (hnodup : dependencies.Nodup) (hf : ∀ req ∈ requests, ∃ tgt, g.findSpecifier req = some tgt)
    (hlk : ∀ tgt ∈ requests.filterMap g.findSpecifier, g.IsLinked tgt ∧ g.IsLinked (g.rootOf tgt)) :
    ∃ scan, g.scanRegistrationEdges cycleRoot requests dependencies = .ok scan ∧
      ScanFinds g cycleRoot (requests.filterMap g.findSpecifier) dependencies scan := by
  induction requests generalizing dependencies with
  | nil =>
    refine ⟨.pending dependencies, rfl, hnodup, fun tgt hm => (nomatch hm), fun dep => ?_⟩
    exact (or_iff_left fun ⟨tgt, hm, _⟩ => nomatch hm).symm
  | cons req requests ih =>
    obtain ⟨tgt, ht⟩ := hf req mem_cons_self
    rw [filterMap_cons_some ht] at hlk ⊢
    have hrest := fun {dependencies : List ModuleId} (h : dependencies.Nodup) =>
      ih h (fun other ho => hf other (mem_cons_of_mem _ ho))
        fun other ho => hlk other (mem_cons_of_mem _ ho)
    obtain ⟨hself, hroot⟩ := hlk tgt mem_cons_self
    obtain ⟨rec, hrec, hstat⟩ := hself.record
    obtain ⟨rootRecord, hrootRecord, -⟩ := hroot.record
    have hspecifier : g.moduleBySpecifier req = .ok tgt := by
      rw [moduleBySpecifier, ht]
    have hord := order_eq hrec
    have hsg := stage_eq hrootRecord
    rw [scanRegistrationEdges, hspecifier]
    dsimp only
    rw [hrec]
    dsimp only
    rw [hstat]
    dsimp only
    by_cases hins : g.rootOf tgt = cycleRoot
    · rw [if_pos hins]
      have hclean : g.rootOf tgt ≠ cycleRoot →
          ¬ (g.schedule.stage (g.rootOf tgt)).IsFailed := fun h => absurd hins h
      have hwants : ∀ dep, g.Wants cycleRoot tgt dep ↔
          dep = tgt ∧ rec.asyncEvaluationOrder.isSome := by
        intro dep
        rw [Wants, hord, Option.isSome_iff_ne_none]
        constructor
        · rintro (⟨hout, -⟩ | ⟨-, h⟩)
          · exact absurd hins hout
          · exact h
        · exact fun h => .inr ⟨hins, h⟩
      split_ifs with hadd
      · obtain ⟨scan, hscan, hfinds⟩ := hrest (nodup_concat hnodup hadd.2)
        refine ⟨scan, hscan, hfinds.cons hclean fun dep => ?_⟩
        rw [mem_append, mem_singleton, hwants, and_iff_left hadd.1]
      · obtain ⟨scan, hscan, hfinds⟩ := hrest hnodup
        refine ⟨scan, hscan, hfinds.cons hclean fun dep => ?_⟩
        rw [hwants]
        refine (or_iff_left_of_imp ?_).symm
        rintro ⟨rfl, hsome⟩
        by_contra hm
        exact hadd ⟨hsome, hm⟩
    · rw [if_neg hins, hrootRecord]
      dsimp only
      have hwants : ∀ dep, g.Wants cycleRoot tgt dep ↔
          dep = g.rootOf tgt ∧ ¬ (g.schedule.stage (g.rootOf tgt)).IsDone := by
        intro dep
        constructor
        · rintro (⟨-, h⟩ | ⟨h, -⟩)
          · exact h
          · exact absurd h hins
        · exact fun h => .inl ⟨hins, h⟩
      -- a root that is neither done nor failed is awaited
      have hopen : ∀ {stage : Stage Value}, rootRecord.evaluation.stage = stage → ¬ stage.IsDone →
          ¬ stage.IsFailed → ∃ scan,
          (if g.rootOf tgt ∈ dependencies then
            g.scanRegistrationEdges cycleRoot requests dependencies
          else g.scanRegistrationEdges cycleRoot requests (dependencies ++ [g.rootOf tgt])) =
            .ok scan ∧ ScanFinds g cycleRoot
              (tgt :: requests.filterMap g.findSpecifier) dependencies scan := by
        intro stage heq hdone hfl
        rw [heq] at hsg
        rw [hsg] at hwants
        have hclean : g.rootOf tgt ≠ cycleRoot → ¬ (g.schedule.stage (g.rootOf tgt)).IsFailed := by
          rw [hsg]
          exact fun _ => hfl
        split_ifs with hm
        · obtain ⟨scan, hscan, hfinds⟩ := hrest hnodup
          refine ⟨scan, hscan, hfinds.cons hclean fun dep => ?_⟩
          rw [hwants, and_iff_left hdone]
          exact (or_iff_left_of_imp fun heq => heq ▸ hm).symm
        · obtain ⟨scan, hscan, hfinds⟩ := hrest (nodup_concat hnodup hm)
          refine ⟨scan, hscan, hfinds.cons hclean fun dep => ?_⟩
          rw [mem_append, mem_singleton, hwants, and_iff_left hdone]
      cases heval : rootRecord.evaluation with
      | errored err =>
        refine ⟨.failed err, rfl, tgt, mem_cons_self, hins, ?_⟩
        rw [hsg, heval]
        rfl
      | evaluated val =>
        rw [heval] at hsg
        have hdone : (g.schedule.stage (g.rootOf tgt)).IsDone := ⟨val, hsg⟩
        obtain ⟨scan, hscan, hfinds⟩ := hrest hnodup
        refine ⟨scan, hscan, hfinds.cons (fun _ => hdone.not_failed) fun dep => ?_⟩
        rw [hwants]
        exact (or_iff_left fun h => h.2 hdone).symm
      | unevaluated =>
        exact hopen (congrArg ModuleEvaluationState.stage heval) Stage.not_isDone_fresh
          Stage.not_isFailed_fresh
      | waiting =>
        exact hopen (congrArg ModuleEvaluationState.stage heval) Stage.not_isDone_waiting
          Stage.not_isFailed_waiting
      | evaluating | asyncEvaluating st =>
        exact hopen (congrArg ModuleEvaluationState.stage heval) Stage.not_isDone_started
          Stage.not_isFailed_started

end Scan

/-! ## Publication -/

section Publish

variable {g : ModuleGraph} {mdl : ModuleId}

theorem publishParents_eq {dependencies : List ModuleId} (hnodup : dependencies.Nodup)
    (hrecs : ∀ dep ∈ dependencies, ∃ rec, g.record dep = .ok rec) :
    g.KeepsRunning (g.publishParents mdl dependencies) ∧
      (g.publishParents mdl dependencies).schedule =
        { g.schedule with
          parents := fun dep =>
            if dep ∈ dependencies then g.schedule.parents dep ++ [mdl]
            else g.schedule.parents dep } := by
  induction dependencies generalizing g with
  | nil =>
    refine ⟨.refl g, ?_⟩
    simp only [publishParents, foldl_nil, not_mem_nil, if_false]
  | cons first dependencies ih =>
    obtain ⟨hfr, hnodup⟩ := nodup_cons.mp hnodup
    obtain ⟨rec, hrec⟩ := hrecs first mem_cons_self
    have hkeeps := keepsRunning_modifyRecord g first (fun rec =>
      { rec with asyncParents := rec.asyncParents ++ [mdl] })
      (fun rec => ⟨rfl, rfl, rfl, rfl, rfl, rfl⟩) (fun rec => ⟨rfl, rfl⟩) (fun rec => .inl rfl)
    have hsched := schedule_modifyRecord (fun rec =>
      { rec with asyncParents := rec.asyncParents ++ [mdl] }) hrec
    rw [← stage_eq hrec, ← order_eq hrec, ← parents_eq hrec, ← pending_eq hrec,
      update_eq_self, update_eq_self, update_eq_self] at hsched
    obtain ⟨hkeeps', hsched'⟩ := @ih (g.modifyRecord first fun rec =>
      { rec with asyncParents := rec.asyncParents ++ [mdl] }) hnodup fun other ho => by
        obtain ⟨rec', hrec'⟩ := hrecs other (mem_cons_of_mem _ ho)
        exact hkeeps.exists_record hrec'
    refine ⟨hkeeps.trans hkeeps', ?_⟩
    refine hsched'.trans ?_
    rw [hsched, Schedule.mk.injEq]
    refine ⟨rfl, rfl, funext fun other => ?_, rfl, rfl, rfl⟩
    dsimp only
    by_cases heq : other = first
    · subst heq
      rw [if_neg hfr, update_self, if_pos mem_cons_self]
    · rw [update_of_ne heq]
      simp only [mem_cons, heq, false_or]

/-- A module with nothing to wait for is queued. -/
theorem queueReadyModule_eq {rec : ModuleRecord} (hrec : g.record mdl = .ok rec)
    (hfr : rec.evaluation = .unevaluated) (hcounter : g.nextAsyncEvaluationOrder + 1 < 2 ^ 64) :
    ∃ post, g.queueReadyModule mdl = .ok post ∧ g.KeepsRunning post ∧
      post.schedule = g.schedule.enqueue mdl := by
  have hcounters := keepsRunning_counters g (g.readyAsyncModules ++ [mdl])
    (g.nextAsyncEvaluationOrder + 1)
  have hkeeps := keepsRunning_modifyRecord ({ g with
    readyAsyncModules := g.readyAsyncModules ++ [mdl]
    nextAsyncEvaluationOrder := g.nextAsyncEvaluationOrder + 1 }) mdl (fun rec =>
      { rec with asyncEvaluationOrder := some g.nextAsyncEvaluationOrder })
    (fun rec => ⟨rfl, rfl, rfl, rfl, rfl, rfl⟩) (fun rec => ⟨rfl, rfl⟩) (fun rec => .inl rfl)
  refine ⟨_, ?_, hcounters.trans hkeeps, ?_⟩
  · rw [queueReadyModule, hrec]
    dsimp only
    rw [if_neg (not_not.mpr hfr), nextEvaluationOrder, if_neg (Nat.not_le_of_lt hcounter)]
    rfl
  · have hrec' : ({ g with
        readyAsyncModules := g.readyAsyncModules ++ [mdl]
        nextAsyncEvaluationOrder := g.nextAsyncEvaluationOrder + 1 } : ModuleGraph).record mdl =
          .ok rec := hrec
    rw [schedule_modifyRecord _ hrec', Schedule.mk.injEq]
    refine ⟨?_, rfl, ?_, ?_, rfl, rfl⟩
    · exact (congrArg _ (stage_eq hrec').symm).trans (update_eq_self _ _)
    · exact (congrArg _ (parents_eq hrec').symm).trans (update_eq_self _ _)
    · exact (congrArg _ (pending_eq hrec').symm).trans (update_eq_self _ _)

/-- A module waits for its dependencies. -/
theorem awaitDependencies_eq {rec : ModuleRecord} {dependencies : List ModuleId}
    (hrec : g.record mdl = .ok rec) (hnodup : dependencies.Nodup)
    (hrecs : ∀ dep ∈ dependencies, ∃ rec, g.record dep = .ok rec)
    (hself : mdl ∉ dependencies) (hsm : g.records.length < 2 ^ 32)
    (hcounter : g.nextAsyncEvaluationOrder + 1 < 2 ^ 64) :
    ∃ post, (g.publishParents mdl dependencies).awaitDependencies mdl dependencies = .ok post ∧
      g.KeepsRunning post ∧ post.schedule = g.schedule.await mdl dependencies := by
  obtain ⟨hkeeps, hsched⟩ := @publishParents_eq g mdl dependencies hnodup hrecs
  obtain ⟨rec', hrec'⟩ := hkeeps.exists_record hrec
  have hlen : dependencies.length < 2 ^ 32 := by
    refine lt_of_le_of_lt (length_le_records hnodup fun dep hdep => ?_) hsm
    obtain ⟨other, ho⟩ := hrecs dep hdep
    exact record_lt ho
  have hn : (g.publishParents mdl dependencies).nextAsyncEvaluationOrder =
      g.nextAsyncEvaluationOrder := congrArg Schedule.next hsched
  have hcounters := keepsRunning_counters (g.publishParents mdl dependencies)
    (g.publishParents mdl dependencies).readyAsyncModules (g.nextAsyncEvaluationOrder + 1)
  have hkeeps' := keepsRunning_modifyRecord ({ g.publishParents mdl dependencies with
    nextAsyncEvaluationOrder := g.nextAsyncEvaluationOrder + 1 }) mdl (fun rec =>
      { rec with
        pendingAsyncDependencies := dependencies.length
        asyncEvaluationOrder := some g.nextAsyncEvaluationOrder
        evaluation := .waiting })
    (fun rec => ⟨rfl, rfl, rfl, rfl, rfl, rfl⟩) (fun rec => ⟨rfl, rfl⟩)
    (fun rec => .inr fun h => nomatch h)
  refine ⟨_, ?_, (hkeeps.trans hcounters).trans hkeeps', ?_⟩
  · rw [awaitDependencies, if_neg (Nat.not_le_of_lt hlen), nextEvaluationOrder, hn,
      if_neg (Nat.not_le_of_lt hcounter)]
    rfl
  · have hrec'' : ({ g.publishParents mdl dependencies with
        nextAsyncEvaluationOrder := g.nextAsyncEvaluationOrder + 1 } : ModuleGraph).record mdl =
          .ok rec' := hrec'
    have hparents : rec'.asyncParents = g.schedule.parents mdl := by
      rw [← parents_eq hrec', hsched]
      exact if_neg hself
    have hb : ({ g.publishParents mdl dependencies with
        nextAsyncEvaluationOrder := g.nextAsyncEvaluationOrder + 1 } : ModuleGraph).schedule =
          { g.schedule with
            parents := fun dep =>
              if dep ∈ dependencies then g.schedule.parents dep ++ [mdl]
              else g.schedule.parents dep
            next := g.nextAsyncEvaluationOrder + 1 } :=
      congrArg (fun sched : Schedule ModuleId Value =>
        { sched with next := g.nextAsyncEvaluationOrder + 1 }) hsched
    rw [schedule_modifyRecord _ hrec'', hb, Schedule.await, Schedule.mk.injEq]
    refine ⟨rfl, rfl, ?_, rfl, rfl, rfl⟩
    rw [hparents]
    exact update_eq_self_iff.mpr (if_neg hself).symm

end Publish

/-! ## Registration -/

/-- What registration does to the schedule, apart from what it adds. -/
structure Registered (modules : List ModuleId) (before after : Schedule ModuleId Value) : Prop where
  next : after.next ≤ before.next + modules.length
  ready : ∀ mdl ∈ after.ready, mdl ∈ before.ready ∨ mdl ∈ modules
  stage : ∀ mdl, after.stage mdl = before.stage mdl ∨ mdl ∈ modules ∧ before.stage mdl = .fresh ∧
      (after.stage mdl = .waiting ∨ (after.stage mdl).IsFailed)

theorem Registered.refl (modules : List ModuleId) (pre : Schedule ModuleId Value) :
    Registered modules pre pre :=
  ⟨Nat.le_add_right _ _, fun _ hready => .inl hready, fun _ => .inl rfl⟩

theorem Registered.trans {modules others : List ModuleId} {pre middle post :
    Schedule ModuleId Value}
    (h : Registered modules pre middle) (h' : Registered others middle post) :
    Registered (modules ++ others) pre post where
  next := by
    have hn := h.next
    have hn' := h'.next
    rw [length_append]
    omega
  ready := by
    intro mdl hready
    rw [mem_append]
    rcases h'.ready mdl hready with hmid | hm
    · exact (h.ready mdl hmid).imp_right .inl
    · exact .inr (.inr hm)
  stage := by
    intro mdl
    rw [mem_append]
    rcases h.stage mdl with hs | ⟨hm, hfr, hmid⟩
    · rw [← hs]
      exact (h'.stage mdl).imp_right (And.imp_left .inr)
    · refine .inr ⟨.inl hm, hfr, ?_⟩
      rcases h'.stage mdl with hs | ⟨-, hfr', -⟩
      · rw [hs]
        exact hmid
      · rw [hfr'] at hmid
        rcases hmid with hwait | hfl
        · cases hwait
        · exact absurd hfl Stage.not_isFailed_fresh

section Register

variable {base g : ModuleGraph} {Threw : ModuleId → Value → Prop} {begun : Schedule ModuleId Value}
  {top : ModuleId} {order : List ModuleId}

/-- Registration of one module of a walk. -/
theorem registerModule_eq {mdl : ModuleId} {pre post : List ModuleId} (hbase : Linkable base)
    (hkeeps : base.KeepsRunning g) (hmod : base.IsLinked mdl)
    (henter : Enterable base.requested base.rootOf order begun)
    (hpost : Postordered base.requested top order) (hord : order = pre ++ mdl :: post)
    (h : Registering base.requested base.rootOf base.IsLinked Threw begun pre (mdl :: post)
      g.schedule) (hcounter : g.nextAsyncEvaluationOrder + 1 < 2 ^ 64) :
    ∃ next, g.registerModule mdl = (.ok (), next) ∧ g.KeepsRunning next ∧
      Registering base.requested base.rootOf base.IsLinked Threw begun (pre ++ [mdl]) post
        next.schedule ∧ Registered [mdl] g.schedule next.schedule := by
  have hg := hbase.keepsLinks hkeeps.links
  have hrequested := hkeeps.links.alike.requested
  have hmark := hkeeps.links.mark
  have hroot : g.rootOf = base.rootOf := by
    funext other
    rw [rootOf, rootOf, hmark]
  have hlk : g.IsLinked = base.IsLinked := by
    funext other
    rw [IsLinked, IsLinked, hmark]
  have hrooted := hbase.rooted
  obtain ⟨rec, hrec, hstat⟩ := (hlk ▸ hmod : g.IsLinked mdl).record
  rw [registerModule, hrec]
  dsimp only
  by_cases hfr : rec.evaluation = .unevaluated
  · rw [if_neg (not_not.mpr hfr), hstat]
    dsimp only
    have hsg : g.schedule.stage mdl = .fresh := by
      rw [stage_eq hrec, hfr]
      rfl
    have htargets : rec.requestedModules.filterMap g.findSpecifier = base.requested mdl := by
      rw [← hrequested, requested, hrec]
    obtain ⟨scan, hscan, hfinds⟩ := @scan_eq g (g.rootOf mdl) rec.requestedModules [] nodup_nil
      (fun req hreq => Option.isSome_iff_exists.mp (hg.present mdl rec _ hrec hstat req hreq))
      (by
        rw [htargets, hlk, hroot]
        intro tgt ht
        have hpart := hrooted.successor mdl hmod tgt ht
        exact ⟨hpart, hrooted.mem_root tgt hpart⟩)
    rw [htargets] at hfinds
    rw [hscan]
    cases scan with
    | failed err =>
      -- the module fails alone, as nothing waits for it yet
      obtain ⟨req, hreq, hout, hfl⟩ := hfinds
      rw [hroot] at hout hfl
      have hparents : rec.asyncParents = [] := by
        rw [← parents_eq hrec]
        exact h.parents_nil hsg
      have hopen : ¬ (g.schedule.stage mdl).IsFailed := by
        rw [hsg]
        exact Stage.not_isFailed_fresh
      obtain ⟨next, hn, hkeepsNext, hsched⟩ :=
        @completeEvaluation_refuse g mdl rec err hrec hparents hopen
      refine ⟨next, ?_, hkeepsNext, ?_, ?_⟩
      · dsimp only
        rw [hn]
        rfl
      · rw [hsched]
        exact h.refuse hpost hord hsg hrooted hmod henter hreq hout hfl
      · rw [hsched]
        refine ⟨Nat.le_add_right _ _, fun other hready => .inl hready, fun other => ?_⟩
        by_cases heq : other = mdl
        · subst heq
          exact .inr ⟨mem_cons_self, hsg, .inr ⟨err, stage_fail_self err⟩⟩
        · exact .inl (stage_fail_of_ne err heq)
    | pending dependencies =>
      obtain ⟨hnodup, hclean, hall⟩ := hfinds
      rw [hroot] at hclean
      have hdeps : ∀ dep, dep ∈ dependencies ↔
          Dependency base.requested base.rootOf g.schedule mdl dep := by
        intro dep
        rw [hall, or_iff_right not_mem_nil]
        refine exists_congr fun tgt => and_congr_right fun _ => ?_
        rw [Wants, hroot]
      cases dependencies with
      | nil =>
        obtain ⟨next, hn, hkeepsNext, hsched⟩ := queueReadyModule_eq hrec hfr hcounter
        refine ⟨next, ?_, hkeepsNext, ?_, ?_⟩
        · rw [hn]
          rfl
        · rw [hsched]
          exact h.enqueue hpost hord hsg hrooted hmod henter
            (fun dep hdep => absurd ((hdeps dep).mpr hdep) not_mem_nil) hclean
        · rw [hsched]
          exact ⟨le_rfl, fun other => mem_append.mp, fun other => .inl rfl⟩
      | cons first others =>
        have hrecs : ∀ dep ∈ first :: others, ∃ rec, g.record dep = .ok rec := by
          intro dep hm
          obtain ⟨tgt, ht, hcases⟩ := (hdeps dep).mp hm
          have hpart := hrooted.successor mdl hmod tgt ht
          have hdep : g.IsLinked dep := by
            rw [hlk]
            rcases hcases with ⟨-, rfl, -⟩ | ⟨-, rfl, -⟩
            · exact hrooted.mem_root tgt hpart
            · exact hpart
          obtain ⟨other, ho, -⟩ := hdep.record
          exact ⟨other, ho⟩
        have hself : mdl ∉ first :: others := by
          intro hm
          obtain ⟨tgt, ht, ⟨hout, heq, -⟩ | ⟨-, heq, hsome⟩⟩ := (hdeps mdl).mp hm
          · have hpart := hrooted.successor mdl hmod tgt ht
            exact hout ((hrooted.root_root hpart).symm.trans (congrArg _ heq.symm))
          · rw [← heq] at hsome
            exact hsome (h.order_none hsg)
        obtain ⟨next, hn, hkeepsNext, hsched⟩ :=
          awaitDependencies_eq hrec hnodup hrecs hself hg.startable.small hcounter
        refine ⟨next, ?_, hkeepsNext, ?_, ?_⟩
        · dsimp only
          rw [hn]
          rfl
        · rw [hsched]
          exact h.await hpost hord hsg hrooted hmod henter hnodup (cons_ne_nil _ _)
            hdeps hclean
        · rw [hsched]
          refine ⟨le_rfl, fun other hready => .inl hready, fun other => ?_⟩
          by_cases heq : other = mdl
          · subst heq
            exact .inr ⟨mem_cons_self, hsg, .inl (update_self _ _ _)⟩
          · exact .inl (update_of_ne heq _ _)
  · rw [if_pos hfr]
    refine ⟨g, rfl, .refl g, h.skip fun hsg => hfr ?_, .refl _ _⟩
    rw [stage_eq hrec] at hsg
    exact ModuleEvaluationState.stage_eq_fresh.mp hsg

/-- Registration along what is left of a walk. -/
theorem registerModules_eq {pre post : List ModuleId} (hbase : Linkable base)
    (hkeeps : base.KeepsRunning g) (hlk : ∀ mdl ∈ order, base.IsLinked mdl)
    (henter : Enterable base.requested base.rootOf order begun)
    (hpost : Postordered base.requested top order) (hord : order = pre ++ post)
    (h : Registering base.requested base.rootOf base.IsLinked Threw begun pre post g.schedule)
    (hcounter : g.nextAsyncEvaluationOrder + post.length < 2 ^ 64) :
    ∃ last, g.registerModules post = (.ok (), last) ∧ g.KeepsRunning last ∧
      Registering base.requested base.rootOf base.IsLinked Threw begun order [] last.schedule ∧
      Registered post g.schedule last.schedule := by
  induction post generalizing g pre with
  | nil =>
    rw [append_nil] at hord
    subst hord
    exact ⟨g, rfl, .refl g, h, .refl _ _⟩
  | cons mdl post ih =>
    rw [length_cons] at hcounter
    have hmod : mdl ∈ order := by
      rw [hord]
      exact mem_append_right _ mem_cons_self
    obtain ⟨next, hn, hkeepsNext, hregistering, hreg⟩ :=
      registerModule_eq hbase hkeeps (hlk mdl hmod) henter hpost hord h (by omega)
    have hcounter' : next.nextAsyncEvaluationOrder ≤ g.nextAsyncEvaluationOrder + 1 := hreg.next
    obtain ⟨last, hl, hkeepsLast, hregisteringLast, hregisteredLast⟩ :=
      ih (hkeeps.trans hkeepsNext) (by rw [hord, append_assoc, singleton_append])
        hregistering (by omega)
    refine ⟨last, ?_, hkeepsNext.trans hkeepsLast, hregisteringLast, hreg.trans hregisteredLast⟩
    rw [registerModules, hn]
    exact hl

end Register

end ModuleGraph

end TachyonEngine.Vm
