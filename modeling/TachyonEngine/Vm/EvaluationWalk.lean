import TachyonEngine.Lib.ArenaChain
import TachyonEngine.Vm.ModuleSchedule

/-!
# The walk of a start

The walk that starts an evaluation is a depth-first walk over the requests. It marks the records
with its epoch and changes nothing else. Over a linked root it comes to a postorder of what the root
reaches.
-/

namespace TachyonEngine.Vm

open Lib Lib.Loop List
open Lib.Components (Path)
open Lib.Postorder (Walk WalkFrame Postordered)
open ModuleRecord

def ModuleRecord.unmarked (rec : ModuleRecord) : ModuleRecord :=
  { rec with evaluationTraversalMark := 0 }

namespace ModuleGraph

/-- Graphs that differ in the marks of a walk only. -/
structure Remarks (base post : ModuleGraph) : Prop where
  records : post.records.map ModuleRecord.unmarked = base.records.map ModuleRecord.unmarked
  edgeCount : post.edgeCount = base.edgeCount
  limits : post.limits = base.limits
  ready : post.readyAsyncModules = base.readyAsyncModules
  next : post.nextAsyncEvaluationOrder = base.nextAsyncEvaluationOrder

section Remarks

variable {base middle post : ModuleGraph}

theorem Remarks.trans (h : base.Remarks middle) (h' : middle.Remarks post) : base.Remarks post where
  records := h'.records.trans h.records
  edgeCount := h'.edgeCount.trans h.edgeCount
  limits := h'.limits.trans h.limits
  ready := h'.ready.trans h.ready
  next := h'.next.trans h.next

theorem remarks_setTraversalMark (base : ModuleGraph) (id : ModuleId) (mark : Nat) :
    base.Remarks (base.setTraversalMark id mark) where
  records := by
    rw [setTraversalMark, modifyRecord]
    apply Lib.map_modify_of_eq
    exact fun _ => rfl
  edgeCount := rfl
  limits := rfl
  ready := rfl
  next := rfl

theorem Remarks.length (h : base.Remarks post) : post.records.length = base.records.length := by
  have hlen := congrArg List.length h.records
  rwa [List.length_map, List.length_map] at hlen

variable {rec : ModuleRecord}

theorem Remarks.getElem (h : base.Remarks post) {idx : Nat} (hrec : base.records[idx]? = some rec) :
    ∃ rec', post.records[idx]? = some rec' ∧ rec'.unmarked = rec.unmarked := by
  have hget : (post.records.map unmarked)[idx]? =
      (base.records.map unmarked)[idx]? := by rw [h.records]
  rw [getElem?_map, getElem?_map, hrec] at hget
  exact Option.map_eq_some_iff.mp hget

variable {rec' : ModuleRecord}

/-- Every field of a record but its mark is the same. -/
theorem field_eq {α : Type*} (h : rec'.unmarked = rec.unmarked) (field : ModuleRecord → α) (hfield :
    ∀ rec, field rec.unmarked = field rec) : field rec' = field rec := by
  rw [← hfield rec', h, hfield rec]

theorem sameLink_of_unmarked (h : rec'.unmarked = rec.unmarked) :
    ModuleRecord.SameLink rec rec' where
  id := field_eq h ModuleRecord.id fun _ => rfl
  specifier := field_eq h ModuleRecord.specifier fun _ => rfl
  requestedModules := field_eq h ModuleRecord.requestedModules fun _ => rfl
  imports := field_eq h ModuleRecord.imports fun _ => rfl
  exports := field_eq h exports fun _ => rfl
  status := field_eq h status fun _ => rfl

theorem Remarks.keepsLinks (h : base.Remarks post) : base.KeepsLinks post where
  alike :=
    { length := h.length
      records := by
        intro idx rec hrec
        obtain ⟨rec', hrec', hs⟩ := h.getElem hrec
        exact ⟨rec', hrec', (sameLink_of_unmarked hs).alike⟩
      edgeCount := h.edgeCount }
  records := by
    intro idx rec rec' hrec hrec'
    obtain ⟨rec'', hrec'', hs⟩ := h.getElem hrec
    rw [hrec'] at hrec''
    cases hrec''
    exact sameLink_of_unmarked hs

theorem Remarks.record (h : base.Remarks post) (mdl : ModuleId) :
    (∃ rec rec', base.record mdl = .ok rec ∧ post.record mdl = .ok rec' ∧
      rec'.unmarked = rec.unmarked) ∨ (base.record mdl = .error (.unknownModule mdl) ∧
      post.record mdl = .error (.unknownModule mdl)) := by
  rcases h.keepsLinks.alike.record mdl with ⟨rec, rec', hrec, hrec', -⟩ | hn
  · obtain ⟨rec'', hrec'', hs⟩ := h.getElem (getElem?_of_record hrec)
    rw [getElem?_of_record hrec'] at hrec''
    cases hrec''
    exact .inl ⟨rec, rec', hrec, hrec', hs⟩
  · exact .inr hn

/-- A walk does not show in the schedule. -/
theorem Remarks.schedule (h : base.Remarks post) : post.schedule = base.schedule := by
  rw [ModuleGraph.schedule, ModuleGraph.schedule, Scheduling.Schedule.mk.injEq]
  refine ⟨funext fun mdl => ?_, funext fun mdl => ?_, funext fun mdl => ?_,
    funext fun mdl => ?_, h.ready, h.next⟩
  · rcases h.record mdl with ⟨rec, rec', hrec, hrec', hs⟩ | ⟨hn, hn'⟩
    · rw [hrec, hrec']
      exact congrArg ModuleEvaluationState.stage (field_eq hs evaluation fun _ => rfl)
    · rw [hn, hn']
  · rcases h.record mdl with ⟨rec, rec', hrec, hrec', hs⟩ | ⟨hn, hn'⟩
    · rw [hrec, hrec']
      exact field_eq hs asyncEvaluationOrder fun _ => rfl
    · rw [hn, hn']
  · rcases h.record mdl with ⟨rec, rec', hrec, hrec', hs⟩ | ⟨hn, hn'⟩
    · rw [hrec, hrec']
      exact field_eq hs asyncParents fun _ => rfl
    · rw [hn, hn']
  · rcases h.record mdl with ⟨rec, rec', hrec, hrec', hs⟩ | ⟨hn, hn'⟩
    · rw [hrec, hrec']
      exact field_eq hs pendingAsyncDependencies fun _ => rfl
    · rw [hn, hn']

end Remarks

end ModuleGraph

/-! ## The walk -/

open ModuleGraph

/-- The modules that a frame has left. -/
def ModuleGraph.unwalked (base : ModuleGraph) (frame : ModuleStartFrame) : List ModuleId :=
  match base.record frame.module with
  | .ok rec => (rec.requestedModules.drop frame.nextRequest).filterMap base.findSpecifier
  | .error _ => []

/-- The walk that a run is, over the graph that it started with. -/
def StartRun.walk (base : ModuleGraph) (run : StartRun) : Walk ModuleId where
  seen module := ∃ rec, run.graph.record module = .ok rec ∧ rec.traversalEpoch = run.epoch
  frames := run.frames.map fun frame => ⟨frame.module, base.unwalked frame⟩
  order := run.order

/-- The marks of the walks so far lie below the next epoch. -/
structure ModuleGraph.Epochs (g : ModuleGraph) : Prop where
  divides : 4 ∣ g.nextStartEpoch
  positive : 0 < g.nextStartEpoch
  below : ∀ mdl rec, g.record mdl = .ok rec → rec.evaluationTraversalMark < g.nextStartEpoch

/-- What holds between two rounds of a walk. -/
structure Walking (base : ModuleGraph) (top : ModuleId) (run : StartRun) : Prop where
  remarks : base.Remarks run.graph
  divides : 4 ∣ run.epoch
  nextEpoch : run.graph.nextStartEpoch = run.epoch + 4
  below : ∀ mdl rec, run.graph.record mdl = .ok rec → rec.evaluationTraversalMark < run.epoch + 4
  sound : Postorder.Sound base.requested top (run.walk base)

section Mark

variable {g : ModuleGraph} {mdl : ModuleId} {rec : ModuleRecord} {epoch mark : Nat}

/-- Whatever its low bits, a mark is seen as that of its epoch. -/
theorem seen_setTraversalMark (hrec : g.record mdl = .ok rec) (hepoch : mark / 4 * 4 = epoch)
    (other : ModuleId) : (∃ rec, (g.setTraversalMark mdl mark).record other = .ok rec ∧
        rec.traversalEpoch = epoch) ↔
      other = mdl ∨ ∃ rec, g.record other = .ok rec ∧ rec.traversalEpoch = epoch := by
  by_cases heq : other = mdl
  · subst heq
    exact iff_of_true ⟨_, record_modifyRecord_self hrec, hepoch⟩ (.inl rfl)
  · rw [setTraversalMark, record_modifyRecord_of_ne heq]
    exact (or_iff_right heq).symm

theorem below_setTraversalMark {bound : Nat} (hmark : mark < bound)
    (h : ∀ mdl rec, g.record mdl = .ok rec → rec.evaluationTraversalMark < bound) :
    ∀ other rec, (g.setTraversalMark mdl mark).record other = .ok rec →
      rec.evaluationTraversalMark < bound := by
  intro other rec' hrec'
  by_cases heq : other = mdl
  · subst heq
    obtain ⟨rec, hrec, -⟩ := (remarks_setTraversalMark g other mark).keepsLinks.record hrec'
    rw [setTraversalMark, record_modifyRecord_self hrec] at hrec'
    cases hrec'
    exact hmark
  · rw [setTraversalMark, record_modifyRecord_of_ne heq] at hrec'
    exact h other rec' hrec'

end Mark

/-! ## Rounds -/

section Rounds

variable {base : ModuleGraph} {top : ModuleId} {run : StartRun}

variable {mdl : ModuleId}

theorem Walking.record (h : Walking base top run) {rec : ModuleRecord} (hrec : base.record mdl = .ok
    rec) : ∃ rec', run.graph.record mdl = .ok rec' ∧ rec'.unmarked = rec.unmarked := by
  rcases h.remarks.record mdl with ⟨rec', rec'', hbase, ha, hs⟩ | ⟨hn, -⟩
  · rw [hrec] at hbase
    cases hbase
    exact ⟨rec'', ha, hs⟩
  · rw [hrec] at hn
    cases hn

variable {cycleRoot : ModuleId}

/-- What a linked root reaches is linked. -/
theorem linked_of_path (hbase : Linkable base) (htop : base.mark top = .closed cycleRoot) (hpath :
    Path base.requested top mdl) :
    ∃ rec root, base.record mdl = .ok rec ∧ rec.status = .linked root ∧
      ∀ req ∈ rec.requestedModules, ∃ tgt, base.findSpecifier req = some tgt := by
  obtain ⟨root, hroot⟩ := hbase.startable.closed.path htop hpath
  obtain ⟨rec, hrec, hstat⟩ := exists_linked hroot
  exact ⟨rec, root, hrec, hstat, fun req hreq =>
    Option.isSome_iff_exists.mp (hbase.present mdl rec root hrec hstat req hreq)⟩

/-- The walked modules are no more than the records. -/
theorem Walking.length_le (h : Walking base top run) :
    ((run.walk base).order ++ (run.walk base).inside).length ≤ base.records.length := by
  refine length_le_records h.sound.nodup fun mdl hmod => ?_
  obtain ⟨rec, hrec, -⟩ := (h.sound.seen_iff mdl).mpr (mem_append.mp hmod)
  rw [← h.remarks.length]
  exact record_lt hrec

theorem advance_cons (hbase : Linkable base) (htop : base.mark top = .closed cycleRoot) (hsm :
    base.records.length ≤ base.limits.maxModules.toNat) (h : Walking base top run) {frame :
    ModuleStartFrame} {below : List ModuleStartFrame} (hfs : run.frames = frame :: below) :
    ∃ next, advanceEvaluationTraversal run = .running next ∧ Walking base top next ∧
      Postorder.Step base.requested (run.walk base) (next.walk base) ∧ next.epoch = run.epoch := by
  have hins : frame.module ∈ (run.walk base).inside := by
    change frame.module ∈ (run.frames.map _).map _
    rw [hfs]
    exact mem_cons_self
  have hseen := (h.sound.seen_iff frame.module).mpr (.inr hins)
  obtain ⟨rec, root, hrec, hstat, hf⟩ :=
    linked_of_path hbase htop (h.sound.reached frame.module hseen)
  obtain ⟨rec', hrec', hs⟩ := h.record hrec
  have hrequested : rec'.requestedModules = rec.requestedModules :=
    field_eq hs ModuleRecord.requestedModules fun _ => rfl
  have hwalkFrames : (run.walk base).frames = ⟨frame.module, base.unwalked frame⟩ ::
      below.map fun frame => ⟨frame.module, base.unwalked frame⟩ := by
    change run.frames.map _ = _
    rw [hfs]
    rfl
  have hunwalked : base.unwalked frame =
      (rec.requestedModules.drop frame.nextRequest).filterMap base.findSpecifier := by
    rw [unwalked, hrec]
  have hdivides := Nat.div_mul_cancel h.divides
  cases hreq : rec.requestedModules[frame.nextRequest]? with
  | none =>
    -- the walk leaves the module
    have hempty : base.unwalked frame = [] := by
      rw [hunwalked, drop_eq_nil_of_le (List.getElem?_eq_none_iff.mp hreq)]
      rfl
    rw [hempty] at hwalkFrames
    have hseenAfter := @seen_setTraversalMark _ _ _ run.epoch (run.epoch + 2) hrec' (by omega)
    have hwalk : StartRun.walk base
        { run with
          graph := run.graph.setTraversalMark frame.module (run.epoch + 2)
          frames := below
          order := run.order ++ [frame.module] } =
        { run.walk base with
          frames := below.map fun frame => ⟨frame.module, base.unwalked frame⟩
          order := (run.walk base).order ++ [frame.module] } := by
      rw [Walk.mk.injEq]
      refine ⟨funext fun other => propext ((hseenAfter other).trans ?_), rfl, rfl⟩
      exact or_iff_right_of_imp fun heq => heq ▸ hseen
    have hstep : Postorder.Step base.requested (run.walk base) _ := Postorder.Step.leave hwalkFrames
    refine ⟨{ run with
        graph := run.graph.setTraversalMark frame.module (run.epoch + 2)
        frames := below
        order := run.order ++ [frame.module] }, ?_,
      ⟨h.remarks.trans (remarks_setTraversalMark _ _ _), h.divides, h.nextEpoch,
        below_setTraversalMark (show run.epoch + 2 < run.epoch + 4 by omega) h.below, ?_⟩, ?_, rfl⟩
    · simp only [advanceEvaluationTraversal, hfs, hrec', hrequested, hreq]
    · rw [hwalk]
      exact hstep.sound h.sound
    · rw [hwalk]
      exact hstep
  | some req =>
    obtain ⟨child, hchild⟩ := hf req (mem_of_getElem? hreq)
    have hspecifier : run.graph.moduleBySpecifier req = .ok child := by
      rw [moduleBySpecifier, h.remarks.keepsLinks.alike.findSpecifier, hchild]
    have hrest : base.unwalked frame =
        child :: base.unwalked { frame with nextRequest := frame.nextRequest + 1 } := by
      obtain ⟨hlt, heq⟩ := List.getElem?_eq_some_iff.mp hreq
      rw [hunwalked, unwalked, hrec, drop_eq_getElem_cons hlt, heq,
        filterMap_cons_some hchild]
    rw [hrest] at hwalkFrames
    have hedge : child ∈ base.requested frame.module := by
      rw [requested, hrec]
      exact mem_filterMap.mpr ⟨req, mem_of_getElem? hreq, hchild⟩
    obtain ⟨childRecord, childRoot, hchildRecord, -⟩ :=
      linked_of_path hbase htop ((h.sound.reached frame.module hseen).tail hedge)
    obtain ⟨childRecord', hchildRecord', -⟩ := h.record hchildRecord
    by_cases hvis : childRecord'.traversalEpoch = run.epoch
    · -- the child was entered before
      have hstep : Postorder.Step base.requested (run.walk base) _ :=
        Postorder.Step.pass hwalkFrames
        ⟨childRecord', hchildRecord', hvis⟩
      refine ⟨{ run with frames := { frame with nextRequest := frame.nextRequest + 1 } :: below },
        ?_,
        ⟨h.remarks, h.divides, h.nextEpoch, h.below, ?_⟩, ?_, rfl⟩
      · simp only [advanceEvaluationTraversal, hfs, hrec', hrequested, hreq, hspecifier,
          hchildRecord', hvis, if_true]
      · exact hstep.sound h.sound
      · exact hstep
    · have hunseen : ¬ (run.walk base).seen child := by
        rintro ⟨other, ho, hepoch⟩
        rw [hchildRecord'] at ho
        cases ho
        exact hvis hepoch
      have hstep : Postorder.Step base.requested (run.walk base) _ :=
        Postorder.Step.enter hwalkFrames hunseen
      have hseenAfter := @seen_setTraversalMark _ _ _ run.epoch (run.epoch + 1) hchildRecord'
        (by omega)
      have hwalk : StartRun.walk base
          { run with
            graph := run.graph.setTraversalMark child (run.epoch + 1)
            frames := ⟨child, 0⟩ :: { frame with nextRequest := frame.nextRequest + 1 } :: below } =
          { run.walk base with
            seen := fun other => other = child ∨ (run.walk base).seen other
            frames := ⟨child, base.requested child⟩ ::
              ⟨frame.module, base.unwalked { frame with nextRequest := frame.nextRequest + 1 }⟩ ::
                below.map fun frame => ⟨frame.module, base.unwalked frame⟩ } := by
        rw [StartRun.walk, Walk.mk.injEq]
        refine ⟨funext fun other => propext (hseenAfter other), ?_, rfl⟩
        rw [unwalked, requested]
        rfl
      have hwalking : Walking base top
          { run with
            graph := run.graph.setTraversalMark child (run.epoch + 1)
            frames := ⟨child, 0⟩ :: { frame with nextRequest := frame.nextRequest + 1 } ::
              below } := by
        refine ⟨h.remarks.trans (remarks_setTraversalMark _ _ _), h.divides, h.nextEpoch,
          below_setTraversalMark (show run.epoch + 1 < run.epoch + 4 by omega) h.below, ?_⟩
        rw [hwalk]
        exact hstep.sound h.sound
      refine ⟨_, ?_, hwalking, ?_, rfl⟩
      · -- there is room for one more frame
        have hroom : run.frames.length < base.limits.maxModules.toNat := by
          have hlen := hwalking.length_le
          rw [hwalk] at hlen
          simp only [Walk.inside, length_append, length_map, length_cons] at hlen
          rw [hfs, length_cons]
          omega
        rw [← h.remarks.limits] at hroom
        simp only [advanceEvaluationTraversal, hfs, hrec', hrequested, hreq, hspecifier,
          hchildRecord', hvis, if_false]
        rw [hfs] at hroom
        rw [if_neg (Nat.not_le_of_lt hroom)]
      · rw [hwalk]
        exact hstep

/-- The walk comes to a postorder of what its root reaches. -/
theorem Walking.returns {run : StartRun} (hbase : Linkable base) (htop : base.mark top = .closed
    cycleRoot) (hsm : base.records.length ≤ base.limits.maxModules.toNat) (h : Walking base top run)
    :
    ∃ order post, Returns advanceEvaluationTraversal run (.ok order, post) ∧ base.Remarks post ∧
      Postordered base.requested top order ∧ post.nextStartEpoch = run.epoch + 4 ∧
      ∀ mdl rec, post.record mdl = .ok rec → rec.evaluationTraversalMark < run.epoch + 4 := by
  cases hfs : run.frames with
  | nil =>
    refine ⟨run.order, run.graph, .done ?_, h.remarks, h.sound.postordered ?_, h.nextEpoch, h.below⟩
    · rw [advanceEvaluationTraversal, hfs]
    · change run.frames.map _ = []
      rw [hfs]
      rfl
  | cons frame below =>
    obtain ⟨next, hn, hwalking, hstep, hepoch⟩ := advance_cons hbase htop hsm h hfs
    have hlower := hstep.rank_lt hwalking.length_le
    obtain ⟨order, post, hret, hremarks, hpost, hafterEpoch, hbl⟩ :=
      Walking.returns hbase htop hsm hwalking
    rw [hepoch] at hafterEpoch hbl
    exact ⟨order, post, .round hn hret, hremarks, hpost, hafterEpoch, hbl⟩
termination_by (run.walk base).rank base.records.length
decreasing_by exact hlower

end Rounds

end TachyonEngine.Vm
