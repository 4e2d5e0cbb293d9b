import TachyonEngine.Vm.LinkSearch

/-!
# The rounds of linking

A round of the source is a step of the search, or it fails: a requested module is missing, or
an import does not resolve. It fails for no other reason. No stack outgrows the records, and every
status is the one that the source expects.
-/

namespace TachyonEngine.Vm

open Lib.Loop Lib.Components List

namespace ModuleGraph

/-- The module of a frame. -/
def Inside (frames : List LinkFrame) (mdl : ModuleId) : Prop :=
  ∃ frame ∈ frames, frame.module = mdl

/-- The requests that a run has gone through are there. -/
structure Found (base : ModuleGraph) (touched : List ModuleId) (frames : List LinkFrame) :
    Prop where
  inside : ∀ frame ∈ frames, ∀ rec, base.record frame.module = .ok rec →
    ∀ request ∈ rec.requestedModules.take frame.nextRequest, (base.findSpecifier request).isSome
  left : ∀ mdl ∈ touched, ¬ Inside frames mdl → ∀ rec, base.record mdl = .ok rec →
    ∀ request ∈ rec.requestedModules, (base.findSpecifier request).isSome

section Found

variable {base : ModuleGraph} {touched : List ModuleId} {frame : LinkFrame} {below : List LinkFrame}

theorem inside_cons (frame : LinkFrame) (below : List LinkFrame) (mdl : ModuleId) :
    Inside (frame :: below) mdl ↔ frame.module = mdl ∨ Inside below mdl := by
  simp only [Inside, mem_cons, exists_eq_or_imp]

theorem Found.top (h : Found base touched (frame :: below)) {frame' : LinkFrame}
    (hmod : frame'.module = frame.module) (hf : ∀ rec, base.record frame.module = .ok rec →
      ∀ req ∈ rec.requestedModules.take frame'.nextRequest,
        (base.findSpecifier req).isSome) : Found base touched (frame' :: below) where
  inside := by
    intro other ho
    rcases mem_cons.mp ho with rfl | ho
    · rw [hmod]
      exact hf
    · exact h.inside other (mem_cons_of_mem _ ho)
  left := by
    intro mdl hm hins
    rw [inside_cons, hmod, ← inside_cons] at hins
    exact h.left mdl hm hins

theorem Found.enter {frames : List LinkFrame} (h : Found base touched frames) (mdl : ModuleId) :
    Found base (mdl :: touched) (⟨mdl, 0, none⟩ :: frames) where
  inside := by
    intro other ho
    rcases mem_cons.mp ho with rfl | ho
    · intro rec _ req hreq
      cases hreq
    · exact h.inside other ho
  left := by
    intro other hm hins
    rw [inside_cons, not_or] at hins
    exact h.left other ((mem_cons.mp hm).resolve_left fun heq => hins.1 heq.symm) hins.2

theorem Found.leave (h : Found base touched (frame :: below))
    (hall : ∀ rec, base.record frame.module = .ok rec →
      rec.requestedModules.length ≤ frame.nextRequest) : Found base touched below where
  inside := fun other ho => h.inside other (mem_cons_of_mem _ ho)
  left := by
    intro mdl hm hins rec hrec req hreq
    by_cases hs : frame.module = mdl
    · subst hs
      have hf := h.inside frame mem_cons_self rec hrec
      rw [take_of_length_le (hall rec hrec)] at hf
      exact hf req hreq
    · exact h.left mdl hm (fun hin => hins (((inside_cons _ _ _).mp hin).resolve_left hs))
        rec hrec req hreq

end Found

/-- The modules that are there can be linked. -/
structure Startable (base : ModuleGraph) : Prop where
  small : base.records.length < 2 ^ 32
  indexed : base.Indexed
  notOpened : ∀ mdl index low, base.mark mdl ≠ .opened index low
  closed : Closed base.requested base.mark

/-- What holds between two rounds. -/
structure Linking (base : ModuleGraph) (root : ModuleId) (run : LinkRun) : Prop where
  alike : base.Alike run.graph
  sound : Sound base.requested base.mark root (run.search base)
  written : Written base run.graph run.touched (Inside run.frames)
  found : Found base run.touched run.frames
  nextIndex : run.nextIndex = run.touched.length

section Linking

variable {base : ModuleGraph} {root : ModuleId} {run : LinkRun}

variable {mdl : ModuleId}

section

variable (h : Linking base root run)

include h

theorem Linking.mark_eq_white (hmod : mdl ∈ run.touched) :
    base.mark mdl = .white ∧ run.graph.mark mdl ≠ .white :=
  (h.sound.reported.touched_iff mdl).mp hmod

theorem Linking.lt_of_mem (hmod : mdl ∈ run.touched) : mdl.index < base.records.length := by
  obtain ⟨rec, hrec, -⟩ := exists_record (h.mark_eq_white hmod).2
  rw [← h.alike.length]
  exact record_lt hrec

omit h in
/-- Different modules of the records are no more than the records. -/
theorem length_le_records {modules : List ModuleId} (hnodup : modules.Nodup)
    (hlt : ∀ mdl ∈ modules, mdl.index < base.records.length) :
    modules.length ≤ base.records.length := by
  have hidx : (modules.map ModuleId.index).Nodup :=
    hnodup.map_on fun mdl _ other _ hi => ModuleId.ext hi
  have hsub : modules.map ModuleId.index ⊆ range base.records.length := by
    intro idx hi
    obtain ⟨mdl, hmod, rfl⟩ := mem_map.mp hi
    exact mem_range.mpr (hlt mdl hmod)
  have hlen := (hidx.subperm hsub).length_le
  rwa [length_map, length_range] at hlen

theorem Linking.touched_le : run.touched.length ≤ base.records.length :=
  length_le_records h.sound.reported.touched_nodup fun _ hmod => h.lt_of_mem hmod

/-- A white module leaves room for one more. -/
theorem Linking.touched_lt (hmark : run.graph.mark mdl = .white)
    (hlt : mdl.index < base.records.length) : run.touched.length < base.records.length := by
  have hfr : mdl ∉ run.touched := fun hm => (h.mark_eq_white hm).2 hmark
  have hnodup : (mdl :: run.touched).Nodup :=
    nodup_cons.mpr ⟨hfr, h.sound.reported.touched_nodup⟩
  refine length_le_records hnodup fun other ho => ?_
  rcases mem_cons.mp ho with rfl | ho
  · exact hlt
  · exact h.lt_of_mem ho

omit h in
theorem Linking.stack_le (hbase : Startable base) (h : Linking base root run) :
    run.componentStack.length ≤ run.touched.length := by
  have hnodup : run.componentStack.Nodup := h.sound.nested.stack_sorted.imp fun hlt heq => by
    rw [heq] at hlt
    exact lt_irrefl _ hlt
  exact (hnodup.subperm fun mdl hmod =>
    h.sound.mem_touched hbase.notOpened hmod).length_le

theorem Linking.frames_le : run.frames.length ≤ run.componentStack.length := by
  have hmap : ((run.search base).frames.map SearchFrame.vertex).Nodup := by
    refine pairwise_map.mpr (h.sound.nested.frames_sorted.imp fun hlt heq => ?_)
    rw [heq] at hlt
    exact lt_irrefl _ hlt
  have hsub : (run.search base).frames.map SearchFrame.vertex ⊆ run.componentStack := by
    intro mdl hmod
    obtain ⟨frame, hfr, rfl⟩ := mem_map.mp hmod
    exact h.sound.nested.frames_stack frame hfr
  have hlen := (hmap.subperm hsub).length_le
  rwa [length_map, LinkRun.search, length_map] at hlen

end

/-- A component that is not complete leaves room for one more. -/
theorem Linking.components_lt (hbase : Startable base) (h : Linking base root run)
    (hmod : mdl ∈ run.componentStack) : run.components.length < base.records.length := by
  have hnonempty : run.components.length ≤ run.components.flatten.length := by
    rw [length_flatten]
    have hle := length_le_sum_of_one_le (run.components.map length) (by
      intro length hlen
      obtain ⟨component, hcomp, rfl⟩ := mem_map.mp hlen
      obtain ⟨first, -, hmark, hall⟩ := h.sound.reported.component_closed component hcomp
      exact length_pos_of_mem ((hall first).mpr hmark))
    rwa [length_map] at hle
  have hopen : mdl ∉ run.components.flatten := by
    intro hm
    obtain ⟨component, hcomp, hm⟩ := mem_flatten.mp hm
    obtain ⟨first, -, -, hall⟩ := h.sound.reported.component_closed component hcomp
    obtain ⟨idx, low, hop⟩ := (h.sound.nested.opened mdl).mp hmod
    rw [(hall mdl).mp hm] at hop
    cases hop
  have htou : ∀ other ∈ mdl :: run.components.flatten, other ∈ run.touched := by
    intro other ho
    rcases mem_cons.mp ho with rfl | ho
    · exact h.sound.mem_touched hbase.notOpened hmod
    · obtain ⟨component, hcomp, hm⟩ := mem_flatten.mp ho
      obtain ⟨first, hfirst, hmark, hall⟩ := h.sound.reported.component_closed component hcomp
      by_contra hnot
      have hb := h.sound.reported.untouched other hnot
      rw [(hall other).mp hm] at hb
      -- the first module of the component was white when the run started
      have hcl := hbase.closed.root other first hb.symm
      rw [(h.mark_eq_white hfirst).1] at hcl
      cases hcl.1
  have hnodup : (mdl :: run.components.flatten).Nodup :=
    nodup_cons.mpr ⟨hopen, h.sound.reported.components_nodup⟩
  have hle := (hnodup.subperm htou).length_le
  rw [length_cons] at hle
  have := h.touched_le
  omega

end Linking

/-! ## Rounds -/

/-- Why linking fails at a module. -/
inductive LinkFailure (base : ModuleGraph) (mdl : ModuleId) : ModuleError → Prop
  | request {rec : ModuleRecord} {request : ModuleIdentity}
      (hrec : base.record mdl = .ok rec) (hreq : request ∈ rec.requestedModules)
      (hmis : base.findSpecifier request = none) : LinkFailure base mdl .missingModule
  | imports {rec : ModuleRecord} {error : ModuleError} (hrec : base.record mdl = .ok rec)
      (hres : base.importResolutions rec.imports = .error error) : LinkFailure base mdl error

/-- What a round comes to. -/
inductive Round (base : ModuleGraph) (root : ModuleId) (run : LinkRun) : LinkStep → Prop
  | done (hfs : run.frames = []) :
      Round base root run (.finished (.ok ⟨run.components⟩, run.graph))
  | next {next : LinkRun} (hn : Linking base root next)
      (hstep : Step base.requested (run.search base) (next.search base)) :
      Round base root run (.running next)
  | failed {error : ModuleError} {mdl : ModuleId} (hmod : mdl ∈ run.touched)
      (hfailure : LinkFailure base mdl error) : Round base root run (failLink run error)

theorem alike_setStatus (g : ModuleGraph) (id : ModuleId) (status : ModuleStatus) :
    g.Alike (g.setStatus id status) :=
  alike_modifyRecord id fun _ => ⟨rfl, rfl, rfl, rfl⟩

variable {rec : ModuleRecord}

variable {g : ModuleGraph}

theorem mark_setStatus {id : ModuleId} (hrec : g.record id = .ok rec) (status : ModuleStatus) :
    (g.setStatus id status).mark = Function.update g.mark id status.mark :=
  mark_modifyRecord hrec

variable {mdl child : ModuleId}

/-- The mark that `lower_ancestor` writes. -/
theorem lowerAncestor_eq {childRecord : ModuleRecord} {dfsIndex ancestorIndex childIndex
    childAncestor : Nat} (hrec : g.record mdl = .ok rec) (hstat : rec.status = .linking dfsIndex
    ancestorIndex) (hchild : g.record child = .ok childRecord) (hchildStatus : childRecord.status =
    .linking childIndex childAncestor) :
    g.lowerAncestor mdl childAncestor =
      .ok (g.setStatus mdl (.linking dfsIndex (min ancestorIndex childAncestor))) ∧
    (g.setStatus mdl (.linking dfsIndex (min ancestorIndex childAncestor))).mark =
      lower g.mark mdl child := by
  refine ⟨?_, ?_⟩
  · simp only [lowerAncestor, hrec, hstat]
  · rw [mark_setStatus hrec, lower, mark_eq hrec, hstat, mark_eq hchild, hchildStatus]
    rfl

theorem lower_mark_of_closed {root : ModuleId} (hchild : g.mark child = .closed root) :
    lower g.mark mdl child = g.mark := by
  rcases lower_cases g.mark mdl child with ⟨hs, -⟩ | ⟨_, _, _, _, -, hop, -⟩
  · exact hs
  · rw [hchild] at hop
    cases hop

/-- The search of a run whose frame on top has changed. -/
theorem search_lowered (base g : ModuleGraph) (run : LinkRun) (frame : LinkFrame)
    (below : List LinkFrame) :
    LinkRun.search base { run with graph := g, frames := frame :: below } =
      { run.search base with
        mark := g.mark
        frames := base.searchFrame frame :: below.map base.searchFrame } := rfl

/-- The search of a run that has left the module on top. -/
theorem search_left (base g : ModuleGraph) (run : LinkRun) (below : List LinkFrame)
    (stack : List ModuleId) (components : List (List ModuleId)) :
    LinkRun.search base
        { run with
          graph := g
          frames := below
          componentStack := stack
          components := components } =
      { run.search base with
        mark := g.mark
        frames := below.map base.searchFrame
        stack := stack
        components := components } := rfl

section Round

variable {base : ModuleGraph} {root : ModuleId} {run : LinkRun} {frame : LinkFrame}
  {below : List LinkFrame}

theorem Linking.top (h : Linking base root run) (hfs : run.frames = frame :: below) :
    (run.search base).frames = base.searchFrame frame :: below.map base.searchFrame ∧
      frame.module ∈ run.componentStack ∧
      ∃ rec dfsIndex ancestorIndex, run.graph.record frame.module = .ok rec ∧
        rec.status = .linking dfsIndex ancestorIndex := by
  have hsearch : (run.search base).frames = base.searchFrame frame :: below.map
      base.searchFrame := by
    rw [LinkRun.search, hfs, map_cons]
  have hstack : frame.module ∈ run.componentStack :=
    h.sound.nested.frames_stack (base.searchFrame frame) (by
      rw [hsearch]
      exact mem_cons_self)
  obtain ⟨idx, low, hop⟩ := (h.sound.nested.opened frame.module).mp hstack
  obtain ⟨rec, hrec, hstat⟩ := exists_record_opened hop
  exact ⟨hsearch, hstack, rec, idx, low, hrec, hstat⟩

/-- The other parts of the invariant, after a step that only lowers a mark. -/
theorem Linking.lowered (hbase : Startable base) (h : Linking base root run)
    (hfs : run.frames = frame :: below) (frame' : LinkFrame) (hmod : frame'.module = frame.module)
    {g : ModuleGraph} (hg : g = run.graph ∨ ∃ status, g = run.graph.setStatus frame.module status)
    (hf : ∀ rec, base.record frame.module = .ok rec →
      ∀ req ∈ rec.requestedModules.take frame'.nextRequest, (base.findSpecifier req).isSome)
    (hstep : Step base.requested (run.search base)
      (LinkRun.search base { run with graph := g, frames := frame' :: below })) :
    Round base root run (.running { run with graph := g, frames := frame' :: below }) := by
  obtain ⟨-, hstack, -⟩ := h.top hfs
  have htou := h.sound.mem_touched hbase.notOpened hstack
  have hins : Inside (frame' :: below) = Inside run.frames := by
    funext mdl
    rw [hfs]
    exact propext (by rw [inside_cons, inside_cons, hmod])
  have hold := h.found
  rw [hfs] at hold
  refine .next ⟨?_, hstep.sound hbase.notOpened h.sound, ?_, hold.top hmod hf, h.nextIndex⟩ hstep
  · rcases hg with rfl | ⟨status, rfl⟩
    · exact h.alike
    · exact h.alike.trans (alike_setStatus run.graph frame.module status)
  · rw [hins]
    rcases hg with rfl | ⟨status, rfl⟩
    · exact h.written
    · exact h.written.setStatus htou status

variable {child : ModuleId}

theorem round_settle (hbase : Startable base) (h : Linking base root run) (hfs : run.frames = frame
    :: below) (hpend : frame.pendingChild = some child) :
    Round base root run (settleChild run frame below child) := by
  obtain ⟨hsearch, hstack, rec, dfsIndex, ancestorIndex, hrec, hstat⟩ := h.top hfs
  have htop : (run.search base).frames =
      ⟨frame.module, base.remaining frame, some child⟩ :: below.map base.searchFrame := by
    rw [hsearch, searchFrame, hpend]
  have hwhite : run.graph.mark child ≠ .white :=
    (h.sound.nested.frames_pending ⟨frame.module, base.remaining frame, some child⟩ (by
      rw [htop]
      exact mem_cons_self) child rfl).2
  obtain ⟨childRecord, hchildRecord, hchildMark⟩ := exists_record hwhite
  have hstep : Step base.requested (run.search base) _ := Step.settle htop
  have hf := h.found.inside frame (hfs ▸ mem_cons_self)
  rw [settleChild]
  rw [hchildRecord]
  dsimp only
  cases hchildStatus : childRecord.status with
  | unlinked =>
    rw [hchildStatus] at hchildMark
    exact absurd hchildMark.symm hwhite
  | linking childIndex childAncestor =>
    obtain ⟨hlower, hmark⟩ := lowerAncestor_eq hrec hstat hchildRecord hchildStatus
    dsimp only
    rw [hlower]
    refine h.lowered hbase hfs { frame with pendingChild := none } rfl (.inr ⟨_, rfl⟩) hf ?_
    rw [search_lowered, hmark]
    exact hstep
  | linked cycleRoot =>
    refine h.lowered hbase hfs { frame with pendingChild := none } rfl (.inl rfl) hf ?_
    have hcl : run.graph.mark child = .closed cycleRoot := by
      rw [mark_eq hchildRecord, hchildStatus]
      rfl
    have hmarks : lower (run.search base).mark frame.module child = run.graph.mark :=
      lower_mark_of_closed hcl
    rw [hmarks] at hstep
    exact hstep

variable {mdl : ModuleId} {rec : ModuleRecord}

theorem remaining_eq (hrec : base.record mdl = .ok rec) (nextRequest : Nat)
    (pending : Option ModuleId) : base.remaining ⟨mdl, nextRequest, pending⟩ =
      (rec.requestedModules.drop nextRequest).filterMap base.findSpecifier := by
  rw [remaining]
  rw [hrec]

/-- The source has room for a module that is white. -/
theorem enterModule_eq (hbase : Startable base) (h : Linking base root run) {frames : List
    LinkFrame} (hlen : frames.length = run.frames.length) (hrec : run.graph.record child = .ok rec)
    (hstat : rec.status = .unlinked) :
    enterModule { run with frames := frames } child = .ok
        { run with
          graph := run.graph.setStatus child (.linking run.nextIndex run.nextIndex)
          nextIndex := run.nextIndex + 1
          frames := ⟨child, 0, none⟩ :: frames
          componentStack := child :: run.componentStack
          touched := child :: run.touched } := by
  have hmark : run.graph.mark child = .white := by
    rw [mark_eq hrec, hstat]
    rfl
  have hlt : run.touched.length < base.records.length := by
    refine h.touched_lt hmark ?_
    rw [← h.alike.length]
    exact record_lt hrec
  have hrecs := h.alike.length
  have hsm := hbase.small
  have hi := h.nextIndex
  have hstackLe := h.stack_le hbase
  have hframesLe := h.frames_le
  rw [enterModule]
  rw [hrec]
  dsimp only
  rw [if_neg (not_not.mpr hstat), if_neg (by omega), if_neg (by omega), if_neg (by omega),
    if_neg (by omega)]

theorem round_follow (hbase : Startable base) (h : Linking base root run)
    (hfs : run.frames = frame :: below) (hpend : frame.pendingChild = none)
    (hrec : run.graph.record frame.module = .ok rec)
    (hnx : frame.nextRequest < rec.requestedModules.length) :
    Round base root run (followRequest run frame below) := by
  obtain ⟨hsearch, hstack, rec', dfsIndex, ancestorIndex, hrec', hstat⟩ := h.top hfs
  rw [hrec] at hrec'
  cases hrec'
  have htou := h.sound.mem_touched hbase.notOpened hstack
  obtain ⟨baseRecord, rec', hbaseRecord, hrec', hs⟩ : ∃ baseRecord rec',
      base.record frame.module = .ok baseRecord ∧ run.graph.record frame.module = .ok rec' ∧
        baseRecord.Alike rec' := by
    rcases h.alike.record frame.module with hf | ⟨-, hn⟩
    · exact hf
    · rw [hrec] at hn
      cases hn
  rw [hrec] at hrec'
  cases hrec'
  have hrequests := hs.requestedModules
  have hget : rec.requestedModules[frame.nextRequest]? =
      some rec.requestedModules[frame.nextRequest] := getElem?_eq_getElem hnx
  rw [followRequest, requestedModule]
  simp only [hrec, hget]
  rw [h.alike.moduleBySpecifier, moduleBySpecifier]
  cases hfind : base.findSpecifier rec.requestedModules[frame.nextRequest] with
  | none =>
    refine .failed htou (.request hbaseRecord ?_ hfind)
    rw [← hrequests]
    exact getElem_mem hnx
  | some child =>
    dsimp only
    have hf : ∀ rec, base.record frame.module = .ok rec →
        ∀ req ∈ rec.requestedModules.take (frame.nextRequest + 1),
          (base.findSpecifier req).isSome := by
      intro other ho req hreq
      have hb := h.found.inside frame (hfs ▸ mem_cons_self) other ho req
      rw [hbaseRecord] at ho
      cases ho
      rw [← hrequests, take_succ_eq_append_getElem hnx] at hreq
      rcases mem_append.mp hreq with hreq | hreq
      · exact hb (hrequests ▸ hreq)
      · rw [mem_singleton.mp hreq, hfind]
        rfl
    -- the search has the same module next
    have hl : base.remaining frame =
        child :: base.remaining ⟨frame.module, frame.nextRequest + 1, none⟩ := by
      have hdrop : baseRecord.requestedModules.drop frame.nextRequest =
          rec.requestedModules[frame.nextRequest] ::
            baseRecord.requestedModules.drop (frame.nextRequest + 1) := by
        rw [← hrequests]
        exact drop_eq_getElem_cons hnx
      have hfr : base.remaining frame =
          (baseRecord.requestedModules.drop frame.nextRequest).filterMap base.findSpecifier :=
        remaining_eq hbaseRecord frame.nextRequest frame.pendingChild
      rw [hfr, hdrop, filterMap_cons_some hfind,
        remaining_eq hbaseRecord (frame.nextRequest + 1) none]
    have htop : (run.search base).frames =
        ⟨frame.module, child :: base.remaining ⟨frame.module, frame.nextRequest + 1, none⟩, none⟩ ::
          below.map base.searchFrame := by
      rw [hsearch, searchFrame, hpend, hl]
    have hlt : child.index < base.records.length := by
      have hf : base.moduleBySpecifier rec.requestedModules[frame.nextRequest] = .ok child := by
        rw [moduleBySpecifier, hfind]
      exact hbase.indexed.lt_of_moduleBySpecifier hf
    obtain ⟨childRecord, hchildRecord⟩ := exists_record_of_lt (h.alike.length ▸ hlt)
    rw [hchildRecord]
    dsimp only
    have hmark := mark_eq hchildRecord
    cases hchildStatus : childRecord.status with
    | unlinked =>
      rw [enterModule_eq hbase h (by rw [hfs]; rfl) hchildRecord hchildStatus]
      rw [hchildStatus] at hmark
      have hstep : Step base.requested (run.search base) _ := Step.enter htop hmark
      have hfresh : child ∉ run.touched := fun hm => (h.mark_eq_white hm).2 hmark
      have hentered : LinkRun.search base
          { run with
            graph := run.graph.setStatus child (.linking run.nextIndex run.nextIndex)
            nextIndex := run.nextIndex + 1
            frames := ⟨child, 0, none⟩ :: ⟨frame.module, frame.nextRequest + 1, some child⟩ :: below
            componentStack := child :: run.componentStack
            touched := child :: run.touched } =
          { run.search base with
            mark := Function.update run.graph.mark child (.opened run.nextIndex run.nextIndex)
            next := run.nextIndex + 1
            frames := ⟨child, base.requested child, none⟩ ::
              ⟨frame.module, base.remaining ⟨frame.module, frame.nextRequest + 1, none⟩,
                some child⟩ ::
                below.map base.searchFrame
            stack := child :: run.componentStack
            touched := child :: run.touched } := by
        rw [LinkRun.search, mark_setStatus hchildRecord]
        rfl
      refine .next ⟨h.alike.trans (alike_setStatus _ _ _), ?_, ?_, ?_, ?_⟩ ?_
      · rw [hentered]
        exact hstep.sound hbase.notOpened h.sound
      · refine h.written.enter hfresh _ fun other => ?_
        rw [hfs]
        simp only [inside_cons, eq_comm (a := other)]
      · have hold := h.found
        rw [hfs] at hold
        have htop' : Found base run.touched
            (⟨frame.module, frame.nextRequest + 1, some child⟩ :: below) := hold.top rfl hf
        exact htop'.enter child
      · rw [length_cons, h.nextIndex]
      · rw [hentered]
        exact hstep
    | linking childIndex childAncestor =>
      obtain ⟨hlower, hlowered⟩ := lowerAncestor_eq hrec hstat hchildRecord hchildStatus
      rw [hchildStatus] at hmark
      have hwhite : (run.search base).mark child ≠ .white := fun hwhite => by
        rw [show run.graph.mark child = .white from hwhite] at hmark
        cases hmark
      have hstep : Step base.requested (run.search base) _ := Step.visit htop hwhite
      dsimp only
      rw [hlower]
      refine h.lowered hbase hfs { frame with nextRequest := frame.nextRequest + 1 } rfl
        (.inr ⟨_, rfl⟩) hf ?_
      rw [search_lowered, hlowered]
      rw [hpend]
      exact hstep
    | linked cycleRoot =>
      rw [hchildStatus] at hmark
      have hwhite : (run.search base).mark child ≠ .white := fun hwhite => by
        rw [show run.graph.mark child = .white from hwhite] at hmark
        cases hmark
      have hstep : Step base.requested (run.search base) _ := Step.visit htop hwhite
      refine h.lowered hbase hfs { frame with nextRequest := frame.nextRequest + 1 } rfl
        (.inl rfl) hf ?_
      have hmarks : lower (run.search base).mark frame.module child = run.graph.mark :=
        lower_mark_of_closed hmark
      rw [hmarks] at hstep
      rw [search_lowered]
      rw [hpend]
      exact hstep

/-! ## Leaving a module -/

section Members

variable {g : ModuleGraph} {members : List ModuleId}

theorem mark_setLinked (hrecs : ∀ member ∈ members, ∃ rec, g.record member = .ok rec)
    (root : ModuleId) : (members.foldl (fun g member => g.setStatus member (.linked root)) g).mark =
      close g.mark members root := by
  induction members generalizing g with
  | nil => rfl
  | cons member rest ih =>
    obtain ⟨rec, hrec⟩ := hrecs member mem_cons_self
    have hrest : ∀ other ∈ rest, ∃ rec,
        (g.setStatus member (.linked root)).record other = .ok rec := by
      intro other ho
      obtain ⟨otherRecord, hotherRecord⟩ := hrecs other (mem_cons_of_mem _ ho)
      by_cases hs : other = member
      · subst hs
        exact ⟨_, record_modifyRecord_self hotherRecord⟩
      · refine ⟨otherRecord, ?_⟩
        rw [setStatus, record_modifyRecord_of_ne hs]
        exact hotherRecord
    rw [foldl_cons, ih hrest, mark_setStatus hrec]
    funext other
    rw [close, close]
    by_cases hm : other ∈ rest
    · rw [if_pos hm, if_pos (mem_cons_of_mem _ hm)]
    · rw [if_neg hm]
      by_cases hs : other = member
      · subst hs
        rw [if_pos mem_cons_self, Function.update_self]
        rfl
      · rw [Function.update_of_ne hs, if_neg]
        exact fun hcons => (mem_cons.mp hcons).elim hs hm

theorem alike_setLinked (g : ModuleGraph) (members : List ModuleId) (root : ModuleId) : g.Alike
      (members.foldl (fun g member => g.setStatus member (.linked root)) g) := by
  induction members generalizing g with
  | nil => exact .refl g
  | cons member rest ih => exact (alike_setStatus g member _).trans (ih _)

theorem Written.setLinked {touched : List ModuleId} {inside : ModuleId → Prop}
    (h : Written base g touched inside) (hmembers : ∀ member ∈ members, member ∈ touched)
    (root : ModuleId) :
    Written base (members.foldl (fun g member => g.setStatus member (.linked root)) g) touched
      inside := by
  induction members generalizing g with
  | nil => exact h
  | cons member rest ih =>
    exact ih (h.setStatus (hmembers member mem_cons_self) _)
      fun other ho => hmembers other (mem_cons_of_mem _ ho)

end Members

/-- The stack splits at a module that is on it. -/
theorem stack_split {stack : List ModuleId} (hm : mdl ∈ stack) :
    stack = stack.takeWhile (· ≠ mdl) ++ mdl :: (stack.dropWhile (· ≠ mdl)).tail := by
  induction stack with
  | nil => cases hm
  | cons top rest ih =>
    by_cases hs : top = mdl
    · subst hs
      simp
    · have hrest := ih ((mem_cons.mp hm).resolve_left (Ne.symm hs))
      rw [takeWhile_cons_of_pos (by simpa using hs),
        dropWhile_cons_of_pos (by simpa using hs), cons_append, ← hrest]

variable {g : ModuleGraph}

theorem mark_storeImports (hrec : g.record mdl = .ok rec) (resolutions : List ResolvedBinding) :
    (g.modifyRecord mdl fun rec =>
      { rec with imports := storeResolutions rec.imports resolutions }).mark = g.mark := by
  rw [mark_modifyRecord hrec]
  rw [← mark_eq hrec, Function.update_eq_self]

theorem alike_storeImports (g : ModuleGraph) (mdl : ModuleId)
    (resolutions : List ResolvedBinding) : g.Alike (g.modifyRecord mdl fun rec =>
        { rec with imports := storeResolutions rec.imports resolutions }) := by
  exact alike_modifyRecord mdl fun rec => ⟨rfl, rfl, rfl, rfl⟩

/-- A frame's module stands in no other frame. -/
theorem Linking.inside_below (h : Linking base root run) (hfs : run.frames = frame :: below)
    (mdl : ModuleId) : Inside below mdl ↔ mdl ≠ frame.module ∧ Inside run.frames mdl := by
  obtain ⟨hsearch, -⟩ := h.top hfs
  have hsort := h.sound.nested.frames_sorted
  rw [hsearch] at hsort
  rw [hfs]
  constructor
  · rintro ⟨other, ho, rfl⟩
    refine ⟨fun heq => ?_, other, mem_cons_of_mem _ ho, rfl⟩
    have hlt := rel_of_pairwise_cons hsort (mem_map_of_mem ho)
    simp only [searchFrame, heq, lt_self_iff_false] at hlt
  · rintro ⟨hne, other, ho, rfl⟩
    exact ⟨other, (mem_cons.mp ho).resolve_left fun heq => hne (congrArg _ heq), rfl⟩

theorem round_complete (hbase : Startable base) (h : Linking base root run) (hfs : run.frames =
    frame :: below) {idx : Nat} (htop : (run.search base).frames = ⟨frame.module, [], none⟩ ::
    below.map base.searchFrame) (hmark : run.graph.mark frame.module = .opened idx idx) (halike :
    base.Alike g) (hs : g.mark = run.graph.mark) (hwri : Written base g run.touched (Inside below))
    (hf : Found base run.touched below) : Round base root run
      (completeComponent { run with graph := g, frames := below } frame.module) := by
  obtain ⟨-, hstack, -⟩ := h.top hfs
  have hsplit := stack_split hstack
  have hmembers : ∀ member ∈ run.componentStack.takeWhile (· ≠ frame.module) ++ [frame.module],
      member ∈ run.componentStack := by
    intro member hmember
    rw [hsplit]
    rcases mem_append.mp hmember with hmember | hmember
    · exact mem_append_left _ hmember
    · rw [mem_singleton.mp hmember]
      exact mem_append_right _ mem_cons_self
  have hrecs : ∀ member ∈ run.componentStack.takeWhile (· ≠ frame.module) ++ [frame.module],
      ∃ rec, g.record member = .ok rec := by
    intro member hmember
    obtain ⟨idx, low, hop⟩ := (h.sound.nested.opened member).mp (hmembers member hmember)
    have hwhite : g.mark member ≠ .white := by
      rw [hs]
      intro hwhite
      rw [show run.graph.mark member = .opened idx low from hop] at hwhite
      cases hwhite
    obtain ⟨rec, hrec, -⟩ := exists_record hwhite
    exact ⟨rec, hrec⟩
  have hcl := mark_setLinked hrecs frame.module
  rw [hs] at hcl
  have hfinal := halike.trans (alike_setLinked g
    (run.componentStack.takeWhile (· ≠ frame.module) ++ [frame.module]) frame.module)
  have hroom : ¬ ((run.componentStack.takeWhile (· ≠ frame.module) ++ [frame.module]).foldl
      (fun g member => g.setStatus member (.linked frame.module)) g).records.length ≤
        run.components.length := by
    rw [hfinal.length]
    exact not_le.mpr (h.components_lt hbase hstack)
  rw [completeComponent]
  rw [if_neg (not_not.mpr hstack), if_neg hroom]
  have hstep : Step base.requested (run.search base) _ := Step.complete htop hmark hsplit
  refine .next ⟨hfinal, ?_, ?_, hf, h.nextIndex⟩ ?_
  · rw [search_left base _ run below (tail _), hcl]
    exact hstep.sound hbase.notOpened h.sound
  · exact hwri.setLinked
      (fun member hmember => h.sound.mem_touched hbase.notOpened (hmembers member hmember)) _
  · rw [search_left base _ run below (tail _), hcl]
    exact hstep

theorem round_leave (hbase : Startable base) (h : Linking base root run)
    (hfs : run.frames = frame :: below) (hpend : frame.pendingChild = none)
    (hrec : run.graph.record frame.module = .ok rec)
    (hn : rec.requestedModules.length ≤ frame.nextRequest) :
    Round base root run (leaveModule run frame.module below) := by
  obtain ⟨hsearch, hstack, rec', dfsIndex, ancestorIndex, hrec', hstat⟩ := h.top hfs
  rw [hrec] at hrec'
  cases hrec'
  have htou := h.sound.mem_touched hbase.notOpened hstack
  have hins : Inside run.frames frame.module := by
    rw [hfs]
    exact ⟨frame, mem_cons_self, rfl⟩
  obtain ⟨baseRecord, hbaseRecord⟩ := exists_record_of_lt (h.lt_of_mem htou)
  obtain ⟨status, hwri⟩ := h.written.entered frame.module htou hins baseRecord hbaseRecord
  rw [hrec] at hwri
  cases hwri
  have hl : base.remaining frame = [] := by
    have hfr : base.remaining frame =
        (baseRecord.requestedModules.drop frame.nextRequest).filterMap base.findSpecifier :=
      remaining_eq hbaseRecord frame.nextRequest frame.pendingChild
    rw [hfr, drop_eq_nil_of_le hn, filterMap_nil]
  have htop : (run.search base).frames =
      ⟨frame.module, [], none⟩ :: below.map base.searchFrame := by
    rw [hsearch, searchFrame, hpend, hl]
  have hmark : run.graph.mark frame.module = .opened dfsIndex ancestorIndex := by
    rw [mark_eq hrec, hstat]
    rfl
  rw [leaveModule, resolveImports, hrec]
  dsimp only
  rw [h.alike.importResolutions]
  cases hres : base.importResolutions baseRecord.imports with
  | error err => exact .failed htou (.imports hbaseRecord hres)
  | ok resolutions =>
    dsimp only
    rw [record_modifyRecord_self hrec]
    rw [hstat]
    dsimp only
    have hs := mark_storeImports hrec resolutions
    have halike := h.alike.trans (alike_storeImports run.graph frame.module resolutions)
    have hresolved : ∀ rec, base.record frame.module = .ok rec →
        base.importResolutions rec.imports = .ok resolutions := by
      intro rec hrec
      rw [hbaseRecord] at hrec
      cases hrec
      exact hres
    have hwri := h.written.leave hins htou hresolved (h.inside_below hfs)
    have hf : Found base run.touched below := by
      have hold := h.found
      rw [hfs] at hold
      refine hold.leave fun other ho => ?_
      rw [hbaseRecord] at ho
      cases ho
      exact hn
    split_ifs with heq
    · subst heq
      exact round_complete hbase h hfs htop hmark halike hs hwri hf
    · have hstep : Step base.requested (run.search base) { run.search base with
          frames := below.map base.searchFrame } := Step.leave htop hmark heq
      have hsearch' : LinkRun.search base
          { run with
            graph := run.graph.modifyRecord frame.module fun rec =>
              { rec with imports := storeResolutions rec.imports resolutions }
            frames := below } =
          { run.search base with frames := below.map base.searchFrame } := by
        rw [search_left, hs]
        rfl
      refine .next ⟨halike, ?_, hwri, hf, h.nextIndex⟩ ?_
      · rw [hsearch']
        exact hstep.sound hbase.notOpened h.sound
      · rw [hsearch']
        exact hstep

theorem round (hbase : Startable base) (h : Linking base root run) :
    Round base root run (linkStep run) := by
  rw [linkStep]
  split
  next hfs =>
    exact .done hfs
  next frame below hfs =>
    split
    next child hpend =>
      exact round_settle hbase h hfs hpend
    next hpend =>
      obtain ⟨-, -, rec, -, -, hrec, -⟩ := h.top hfs
      rw [hrec]
      dsimp only
      split_ifs with hn
      · exact round_follow hbase h hfs hpend hrec hn
      · exact round_leave hbase h hfs hpend hrec (not_lt.mp hn)

end Round

/-! ## Runs -/

/-- What a run comes to: every component is complete, or a module failed. -/
inductive Comes (base : ModuleGraph) (root : ModuleId) :
    Except ModuleError LinkReport × ModuleGraph → Prop
  | linked {run : LinkRun} (hrun : Linking base root run) (hfs : run.frames = []) :
      Comes base root (.ok ⟨run.components⟩, run.graph)
  | failed {run : LinkRun} {error : ModuleError} {mdl : ModuleId} (hrun : Linking base root run)
      (hmod : mdl ∈ run.touched) (hfailure : LinkFailure base mdl error) :
      Comes base root (.error error, rollbackLink run.graph run.touched)

variable {base : ModuleGraph} {root : ModuleId} {run : LinkRun}

theorem returns_of_linking (hbase : Startable base) (h : Linking base root run) :
    ∃ res, Returns linkStep run res ∧ Comes base root res := by
  induction hrank : (run.search base).rank base.records.length using
    (Prod.instWellFoundedRelation (α := Nat) (β := Nat)).wf.induction generalizing run with
  | _ rank ih =>
    subst hrank
    have hround := round hbase h
    generalize hstep : linkStep run = step at hround
    cases hround with
    | done hfs => exact ⟨_, .done hstep, .linked h hfs⟩
    | failed hmod hfailure => exact ⟨_, .done hstep, .failed h hmod hfailure⟩
    | next hn hsearch =>
      obtain ⟨res, hret, hcomes⟩ := ih _ (hsearch.rank_lt hn.touched_le) hn rfl
      exact ⟨res, .round hstep hret, hcomes⟩

/-- The state after the root was entered. -/
theorem linking_start (hbase : Startable base) (hrec : base.record root = .ok rec)
    (hstat : rec.status = .unlinked) :
    ∃ run, enterModule ⟨base, 0, [], [], [], []⟩ root = .ok run ∧ Linking base root run := by
  have hmark : base.mark root = .white := by
    rw [mark_eq hrec, hstat]
    rfl
  have hlt := record_lt hrec
  have hpos : 0 < base.records.length := by omega
  refine ⟨⟨base.setStatus root (.linking 0 0), 1, [⟨root, 0, none⟩], [root], [root], []⟩, ?_, ?_⟩
  · rw [enterModule]
    rw [hrec]
    dsimp only
    rw [if_neg (not_not.mpr hstat), if_neg (by omega)]
    simp only [length_nil, if_neg (Nat.not_le.mpr hpos)]
  · have hsearch : LinkRun.search base
        ⟨base.setStatus root (.linking 0 0), 1, [⟨root, 0, none⟩], [root], [root], []⟩ =
        start base.requested base.mark root := by
      rw [LinkRun.search, mark_setStatus hrec]
      rfl
    have hn : Found base [] [] :=
      { inside := fun frame hfr => absurd hfr not_mem_nil
        left := fun mdl hmod => absurd hmod not_mem_nil }
    refine ⟨alike_setStatus base root _, ?_, ?_, hn.enter root, rfl⟩
    · rw [hsearch]
      exact sound_start hbase.notOpened hbase.closed hmark
    · have hempty : Written base base [] (Inside []) :=
        { untouched := fun _ _ => rfl
          entered := fun mdl hmod => absurd hmod not_mem_nil
          left := fun mdl hmod => absurd hmod not_mem_nil }
      refine hempty.enter not_mem_nil _ fun other => ?_
      simp only [inside_cons, eq_comm (a := other)]

theorem links_comes (hbase : Startable base) (hrec : base.record root = .ok rec)
    (hstat : rec.status = .unlinked) : ∃ res, Links base root res ∧ Comes base root res ∧
      ∀ other, Links base root other → other = res := by
  obtain ⟨run, henter, hrun⟩ := linking_start hbase hrec hstat
  obtain ⟨res, hret, hcomes⟩ := returns_of_linking hbase hrun
  refine ⟨res, ?_, hcomes, ?_⟩
  · simp only [Links, hrec, hstat, henter]
    exact hret
  · intro other ho
    simp only [Links, hrec, hstat, henter] at ho
    exact ho.unique hret

end ModuleGraph

end TachyonEngine.Vm
