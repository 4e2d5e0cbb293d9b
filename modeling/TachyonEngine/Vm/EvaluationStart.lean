import TachyonEngine.Vm.ModuleRegistration

/-!
# The start of an evaluation

Whether an evaluation may begin at a root is a condition on the graph. Under it the walk and the
registration come to an end without an error, and what holds of a schedule holds of the one they
leave.
-/

namespace TachyonEngine.Vm

open Lib.Loop Lib.Scheduling
open Lib.Postorder (Postordered)

namespace ModuleGraph

/-- The walk from a root leaves the modules in this order. -/
def WalksIn (g : ModuleGraph) (root : ModuleId) (order : List ModuleId) : Prop :=
  ∃ run after, g.beginEvaluationStart root = .ok run ∧
    Returns advanceEvaluationTraversal run (.ok order, after)

/-- An evaluation that begins at the root finds nothing that an earlier one left in its way. -/
structure MayBegin (g : ModuleGraph) (root : ModuleId) : Prop where
  /-- The root is the root of its component. -/
  cycleRoot : g.CycleRoot root root
  /-- What is queued or waits belongs to the root. -/
  reached : ∀ module, module ∈ g.readyAsyncModules ∨ g.schedule.stage module = .waiting →
    g.Leads root module
  /-- What is queued was waiting. -/
  queued : ∀ module ∈ g.readyAsyncModules, g.schedule.stage module ≠ .fresh
  /-- The walk leaves a new component by its root. -/
  rootLast : ∀ order before module after, g.WalksIn root order → order = before ++ module :: after →
    ¬ g.schedule.Touched module → ∀ cycleRoot, g.CycleRoot module cycleRoot →
      cycleRoot = module ∨ cycleRoot ∈ after
  /-- In a new component only the root requests what leads to a module that failed. -/
  clean : ∀ module cycleRoot, g.Leads root module → ¬ g.schedule.Touched module →
    g.CycleRoot module cycleRoot → cycleRoot ≠ module → ∀ request ∈ g.requested module,
      ¬ g.CycleRoot request cycleRoot → ∀ reached, g.Leads request reached →
        ¬ (g.schedule.stage reached).IsFailed
  epochs : g.nextStartEpoch + 4 < 2 ^ 32
  orders : g.nextAsyncEvaluationOrder + g.records.length < 2 ^ 64

section Start

variable {g : ModuleGraph} {root : ModuleId}

theorem rootOf_of_cycleRoot {mdl cycleRoot : ModuleId} (h : g.CycleRoot mdl cycleRoot) :
    g.rootOf mdl = cycleRoot :=
  rootOf_eq (cycleRoot_iff_mark.mp h)

theorem IsLinked.cycleRoot {mdl : ModuleId} (h : g.IsLinked mdl) : g.CycleRoot mdl (g.rootOf mdl) :=
  h.record

theorem CycleRoot.isLinked {mdl cycleRoot : ModuleId} (h : g.CycleRoot mdl cycleRoot) :
    g.IsLinked mdl :=
  ⟨cycleRoot, cycleRoot_iff_mark.mp h⟩

theorem cycleRoot_eq {mdl cycleRoot : ModuleId} (h : g.CycleRoot mdl cycleRoot) :
    g.cycleRoot mdl = .ok cycleRoot := by
  obtain ⟨rec, hrec, hstat⟩ := h
  rw [ModuleGraph.cycleRoot, hrec]
  dsimp only
  rw [hstat]

theorem KeepsLinks.rootOf {post : ModuleGraph} (h : g.KeepsLinks post) :
    post.rootOf = g.rootOf := by
  funext mdl
  rw [ModuleGraph.rootOf, ModuleGraph.rootOf, h.mark]

theorem KeepsLinks.isLinked {post : ModuleGraph} (h : g.KeepsLinks post) :
    post.IsLinked = g.IsLinked := by
  funext mdl
  rw [IsLinked, IsLinked, h.mark]

theorem KeepsLinks.cycleRoot_iff {post : ModuleGraph} (h : g.KeepsLinks post)
    {mdl cycleRoot : ModuleId} : post.CycleRoot mdl cycleRoot ↔ g.CycleRoot mdl cycleRoot := by
  rw [cycleRoot_iff_mark, cycleRoot_iff_mark, h.mark]

theorem KeepsLinks.leads {post : ModuleGraph} (h : g.KeepsLinks post) : post.Leads = g.Leads := by
  funext mdl other
  rw [Leads, Leads, h.alike.requested]

/-- The walk begins at its root. -/
theorem beginEvaluationStart_eq (hepochs : g.Epochs) (hroot : g.CycleRoot root root)
    (hroom : g.nextStartEpoch + 4 < 2 ^ 32) :
    ∃ run, g.beginEvaluationStart root = .ok run ∧ run.epoch = g.nextStartEpoch ∧
      Walking g root run := by
  obtain ⟨rec, hrec, hstat⟩ := id hroot
  obtain ⟨k, hk⟩ := hepochs.divides
  let begun : ModuleGraph := { g with nextStartEpoch := g.nextStartEpoch + 4 }
  have hbegun : begun.record root = .ok rec := hrec
  have hremarks : g.Remarks begun := ⟨rfl, rfl, rfl, rfl, rfl⟩
  refine ⟨⟨begun.setTraversalMark root (g.nextStartEpoch + 1), g.nextStartEpoch, [⟨root, 0⟩], []⟩,
    ?_, rfl, ?_⟩
  · rw [beginEvaluationStart, cycleRoot_eq hroot]
    dsimp only
    rw [if_neg (Nat.not_le_of_lt hroom)]
  · refine ⟨hremarks.trans (remarks_setTraversalMark begun root _), hepochs.divides, rfl, ?_, ?_⟩
    · refine below_setTraversalMark (by omega : g.nextStartEpoch + 1 < g.nextStartEpoch + 4) ?_
      intro mdl rec hrec
      exact lt_of_lt_of_le (hepochs.below mdl rec hrec) (Nat.le_add_right _ _)
    · -- nothing else has the mark of this walk
      have hwalk : StartRun.walk g ⟨begun.setTraversalMark root (g.nextStartEpoch + 1),
          g.nextStartEpoch, [⟨root, 0⟩], []⟩ = Lib.Postorder.start g.requested root := by
        rw [StartRun.walk, Lib.Postorder.Walk.mk.injEq, List.map_cons]
        refine ⟨funext fun other => propext ?_, rfl, rfl⟩
        refine (@seen_setTraversalMark begun root rec g.nextStartEpoch (g.nextStartEpoch + 1)
          hbegun (by omega) other).trans (or_iff_left ?_)
        rintro ⟨seen, hseen, hepoch⟩
        have hlower := hepochs.below other seen hseen
        rw [ModuleRecord.traversalEpoch] at hepoch
        omega
      rw [hwalk]
      exact Lib.Postorder.sound_start root

/-- A start over a graph that allows it. -/
theorem starts_eq {Threw : ModuleId → Value → Prop} (hg : Linkable g) (hepochs : g.Epochs)
    (hsm : g.records.length ≤ g.limits.maxModules.toNat)
    (hsched : Scheduled g.requested g.rootOf g.IsLinked Threw [] [] g.schedule)
    (hbegin : g.MayBegin root) : ∃ run order walked post, g.beginEvaluationStart root = .ok run ∧
      Postordered g.requested root order ∧ g.Remarks walked ∧
      walked.KeepsRunning post ∧ post.Epochs ∧
      Scheduled g.requested g.rootOf g.IsLinked Threw [] [] post.schedule ∧
      Registered order g.schedule post.schedule ∧ post.schedule.Touched root ∧
      (∀ mdl, g.schedule.Touched mdl → post.schedule.Touched mdl) ∧
      ∀ res, Starts run res → res = (.ok (), post) := by
  obtain ⟨run, hrun, hepoch, hwalking⟩ := beginEvaluationStart_eq hepochs hbegin.cycleRoot
    hbegin.epochs
  obtain ⟨order, walked, hret, hremarks, hpost, hnextEpoch, hbl⟩ :=
    hwalking.returns hg (cycleRoot_iff_mark.mp hbegin.cycleRoot) hsm
  have hrooted := hg.rooted
  have hlk : ∀ mdl ∈ order, g.IsLinked mdl := fun mdl hmod =>
    hrooted.part_of_path hbegin.cycleRoot.isLinked ((hpost.mem_iff mdl).mp hmod)
  have hwalkedGraph := hg.keepsLinks hremarks.keepsLinks
  have hrequested := hremarks.keepsLinks.alike.requested
  have hroots := hremarks.keepsLinks.rootOf
  have hparts := hremarks.keepsLinks.isLinked
  have henter : Enterable walked.requested walked.rootOf order g.schedule := by
    rw [hrequested, hroots]
    refine ⟨?_, ?_, ?_⟩
    · intro mdl _ hfr
      by_contra hord
      exact hbegin.queued mdl (hsched.ready_of_fresh mdl hfr hord) hfr
    · intro pre mdl post hord hnot
      have hm : mdl ∈ order := by
        rw [hord]
        exact List.mem_append_right _ List.mem_cons_self
      exact hbegin.rootLast order pre mdl post ⟨run, walked, hrun, hret⟩ hord hnot _
        (hlk mdl hm).cycleRoot
    · intro mdl hm hnot hroot req hreq hout
      refine hbegin.clean mdl _ ((hpost.mem_iff mdl).mp hm) hnot (hlk mdl hm).cycleRoot hroot
        req hreq fun hcycle => hout ?_
      exact rootOf_of_cycleRoot hcycle
  have hwalkedPost : Postordered walked.requested root order := by
    rw [hrequested]
    exact hpost
  have hwalkedScheduled : Scheduled walked.requested walked.rootOf walked.IsLinked Threw [] []
      g.schedule := by
    rw [hrequested, hroots, hparts]
    exact hsched
  have hregistering := hwalkedScheduled.registering henter
  rw [hremarks.schedule.symm] at hregistering
  have hlen : order.length ≤ g.records.length := length_le_records hpost.nodup fun mdl hmod => by
    obtain ⟨rec, hrec, -⟩ := (hlk mdl hmod).record
    exact record_lt hrec
  have horders := hbegin.orders
  obtain ⟨post, ha, hkeeps, hreg, hmoved⟩ := registerModules_eq hwalkedGraph
    (.refl walked) (by rw [hparts]; exact hlk) (by rw [hremarks.schedule]; exact henter) hwalkedPost
    (List.nil_append order).symm hregistering (by rw [hremarks.next]; omega)
  have hroot : root ∈ order := (hpost.mem_iff root).mpr .refl
  refine ⟨run, order, walked, post, hrun, hpost, hremarks, hkeeps, ?_, ?_, ?_,
    hreg.passed root hroot, ?_, ?_⟩
  · have hafterEpoch : post.nextStartEpoch = g.nextStartEpoch + 4 := by
      rw [hkeeps.epoch, hnextEpoch, hepoch]
    refine ⟨?_, ?_, ?_⟩
    · rw [hafterEpoch]
      exact (Nat.dvd_add_left (dvd_refl 4)).mpr hepochs.divides
    · rw [hafterEpoch]
      exact Nat.lt_add_left _ (by decide)
    · intro mdl rec' hrec'
      obtain ⟨rec, hrec, -⟩ := hkeeps.links.record hrec'
      rw [(hkeeps.record mdl rec rec' hrec hrec').1, hafterEpoch, ← hepoch]
      exact hbl mdl rec hrec
  · have hfin := hreg.finish
    rw [hrequested, hroots, hparts] at hfin
    exact hfin
  · rw [← hremarks.schedule]
    exact hmoved
  · rw [← hremarks.schedule]
    exact hreg.grown
  · rintro res ⟨walked', hwalked', rfl⟩
    rw [← hret.unique hwalked']
    exact ha

/-- Where no module was evaluated and none is in a cycle, an evaluation may begin. -/
theorem mayBegin_of_fresh (hindexed : g.Indexed)
    (hfr : ∀ rec ∈ g.records, rec.evaluation = .unevaluated)
    (hacyclic : ∀ rec ∈ g.records, rec.status = .linked rec.id)
    (hready : g.readyAsyncModules = []) (hroot : root.index < g.records.length)
    (hepochs : g.nextStartEpoch + 4 < 2 ^ 32)
    (horders : g.nextAsyncEvaluationOrder + g.records.length < 2 ^ 64) : g.MayBegin root := by
  have hself : ∀ {mdl cycleRoot : ModuleId}, g.CycleRoot mdl cycleRoot → cycleRoot = mdl := by
    rintro mdl cycleRoot ⟨rec, hrec, hstat⟩
    rw [hacyclic rec (mem_of_record hrec)] at hstat
    cases hstat
    exact ModuleId.ext (hindexed mdl.index rec (getElem?_of_record hrec))
  have hsg : ∀ mdl, g.schedule.stage mdl = .fresh := by
    intro mdl
    cases hrec : g.record mdl with
    | ok rec =>
      rw [stage_eq hrec, hfr rec (mem_of_record hrec)]
      rfl
    | error err =>
      rw [schedule]
      dsimp only
      rw [hrec]
  refine ⟨?_, ?_, ?_, ?_, ?_, hepochs, horders⟩
  · obtain ⟨rec, hrec⟩ := exists_record_of_lt hroot
    have hcycle : g.CycleRoot root rec.id := ⟨rec, hrec, hacyclic rec (mem_of_record hrec)⟩
    have hroot := hself hcycle
    rw [hroot] at hcycle
    exact hcycle
  · rintro mdl (hm | hwait)
    · rw [hready] at hm
      cases hm
    · rw [hsg] at hwait
      cases hwait
  · intro mdl hm
    rw [hready] at hm
    cases hm
  · exact fun _ _ _ _ _ _ _ _ hcycle => .inl (hself hcycle)
  · exact fun _ _ _ _ hcycle hne => absurd (hself hcycle) hne

end Start

end ModuleGraph

end TachyonEngine.Vm
