import TachyonEngine.Vm.LoadedGraph

/-!
# What linking comes to

Every loaded graph can be linked, and stays so. Linking succeeds exactly when the imports of the
modules that it comes to resolve. It then has closed what the root reaches, component by component;
otherwise it leaves the components that were complete, and every other record as it was.
-/

namespace TachyonEngine.Vm

open Lib.Loop Lib.Components List

namespace ModuleGraph

/-- What holds of the records of a loaded graph. -/
structure Linkable (g : ModuleGraph) : Prop where
  startable : Startable g
  listed : ∀ module record, g.record module = .ok record → RequestsListed record
  present : ∀ module record cycleRoot, g.record module = .ok record →
    record.status = .linked cycleRoot →
      ∀ request ∈ record.requestedModules, (g.findSpecifier request).isSome
  stored : ∀ module record cycleRoot, g.record module = .ok record →
    record.status = .linked cycleRoot → ∀ entry ∈ record.imports, ∃ binding,
      entry.resolved = some binding ∧ g.ImportResolves entry binding
  unstored : ∀ module record, g.record module = .ok record → record.status = .unlinked →
    ∀ entry ∈ record.imports, entry.resolved = none

theorem mark_eq_white_iff {g : ModuleGraph} {mdl : ModuleId} {rec : ModuleRecord}
    (hrec : g.record mdl = .ok rec) : g.mark mdl = .white ↔ rec.status = .unlinked := by
  rw [mark_eq hrec]
  cases rec.status with
  | unlinked => exact iff_of_true rfl rfl
  | linking dfsIndex ancestorIndex =>
    exact iff_of_false (fun h => nomatch h) (fun h => nomatch h)
  | linked cycleRoot => exact iff_of_false (fun h => nomatch h) (fun h => nomatch h)

theorem mark_eq_closed_iff {g : ModuleGraph} {mdl cycleRoot : ModuleId} {rec : ModuleRecord}
    (hrec : g.record mdl = .ok rec) :
    g.mark mdl = .closed cycleRoot ↔ rec.status = .linked cycleRoot := by
  rw [mark_eq hrec]
  cases rec.status with
  | unlinked => exact iff_of_false (fun h => nomatch h) (fun h => nomatch h)
  | linking dfsIndex ancestorIndex =>
    exact iff_of_false (fun h => nomatch h) (fun h => nomatch h)
  | linked other =>
    constructor
    · intro h
      cases h
      rfl
    · intro h
      cases h
      rfl

theorem Alike.indexed {g post : ModuleGraph} (h : g.Alike post) (hindexed : g.Indexed) :
    post.Indexed := by
  intro idx rec' hrec'
  have hlt : idx < g.records.length := by
    rw [← h.length]
    exact (List.getElem?_eq_some_iff.mp hrec').1
  obtain ⟨rec'', hrec'', hs⟩ := h.records idx _ (getElem?_eq_getElem hlt)
  rw [hrec'] at hrec''
  cases hrec''
  rw [hs.id]
  exact hindexed idx _ (getElem?_eq_getElem hlt)

theorem Alike.requested {g post : ModuleGraph} (h : g.Alike post) :
    post.requested = g.requested := by
  funext mdl
  rw [ModuleGraph.requested, ModuleGraph.requested]
  rcases h.record mdl with ⟨rec, rec', hrec, hrec', hs⟩ | ⟨hn, hn'⟩
  · rw [hrec, hrec']
    dsimp only
    rw [hs.requestedModules]
    exact congrArg (filterMap · _) (funext h.findSpecifier)
  · rw [hn, hn']

section After

variable {base : ModuleGraph} {root : ModuleId} {run : LinkRun}

/-- A record after a run that ended is that of the start, or it was linked with its imports
stored. -/
theorem Linking.record_after (hbase : Linkable base) (h : Linking base root run) (mdl : ModuleId) :
    ((∀ cycleRoot, mdl ∈ run.touched → run.graph.mark mdl ≠ .closed cycleRoot) ∧
      (rollbackLink run.graph run.touched).record mdl = base.record mdl) ∨
    ∃ cycleRoot rec resolutions, mdl ∈ run.touched ∧
      run.graph.mark mdl = .closed cycleRoot ∧ base.record mdl = .ok rec ∧
      rec.status = .unlinked ∧ base.importResolutions rec.imports = .ok resolutions ∧
      (∀ req ∈ rec.requestedModules, (base.findSpecifier req).isSome) ∧
      (rollbackLink run.graph run.touched).record mdl = .ok
        { rec with
          status := .linked cycleRoot
          imports := storeResolutions rec.imports resolutions } := by
  by_cases hm : mdl ∈ run.touched
  · obtain ⟨hwhite, hmark⟩ := h.mark_eq_white hm
    obtain ⟨rec, hrec⟩ := exists_record_of_lt (h.lt_of_mem hm)
    have hunlinked := (mark_eq_white_iff hrec).mp hwhite
    obtain ⟨cur, hcur, hcurrentMark⟩ := exists_record hmark
    cases hcases : run.graph.mark mdl with
    | white => exact absurd hcases hmark
    | opened idx low =>
      refine .inl ⟨fun cycleRoot _ hcl => (nomatch hcl), ?_⟩
      obtain ⟨opened, hop, hstat⟩ := exists_record_opened hcases
      rw [hcur] at hop
      cases hop
      -- the imports of a record that was not linked were not stored
      have herased := erased_of_unstored (hbase.unstored mdl rec hrec hunlinked)
      have hback : cur.rolledBack = rec := by
        by_cases hins : Inside run.frames mdl
        · obtain ⟨status, hwri⟩ := h.written.entered mdl hm hins rec hrec
          rw [hcur] at hwri
          cases hwri
          rw [ModuleRecord.rolledBack, hstat]
          rw [herased, ← hunlinked]
        · obtain ⟨status, resolutions, -, hwri⟩ := h.written.left mdl hm hins rec hrec
          rw [hcur] at hwri
          cases hwri
          rw [ModuleRecord.rolledBack, hstat]
          rw [storeResolutions_erased, herased, ← hunlinked]
      rw [record_rollbackLink hcur, if_pos hm, hback, hrec]
    | closed cycleRoot =>
      have hstat := (mark_eq_closed_iff hcur).mp hcases
      have hl : ¬ Inside run.frames mdl := by
        rintro ⟨frame, hfr, rfl⟩
        have hop := (h.sound.nested.opened frame.module).mp
          (h.sound.nested.frames_stack _ (mem_map_of_mem hfr))
        obtain ⟨idx, low, hop⟩ := hop
        rw [show run.graph.mark frame.module = .opened idx low from hop] at hcases
        cases hcases
      obtain ⟨status, resolutions, hres, hwri⟩ := h.written.left mdl hm hl rec hrec
      refine .inr ⟨cycleRoot, rec, resolutions, hm, rfl, hrec, hunlinked, hres,
        h.found.left mdl hm hl rec hrec, ?_⟩
      rw [hcur] at hwri
      cases hwri
      subst hstat
      rw [record_rollbackLink hcur, if_pos hm]
      rfl
  · refine .inl ⟨fun cycleRoot hm' => absurd hm' hm, ?_⟩
    rw [← h.written.untouched mdl hm]
    cases hrec : run.graph.record mdl with
    | ok rec => rw [record_rollbackLink hrec, if_neg hm]
    | error err => exact record_rollbackLink_error hrec

theorem Linking.mark_after (hbase : Linkable base) (h : Linking base root run) (mdl : ModuleId) :
    (∀ idx low, (rollbackLink run.graph run.touched).mark mdl ≠ .opened idx low) ∧
      ∀ cycleRoot, (rollbackLink run.graph run.touched).mark mdl = .closed cycleRoot ↔
        run.graph.mark mdl = .closed cycleRoot := by
  rcases h.record_after hbase mdl with ⟨hopen, hs⟩ |
    ⟨cycleRoot, rec, resolutions, hm, hmark, -, -, -, -, ha⟩
  · have hmark : (rollbackLink run.graph run.touched).mark mdl = base.mark mdl := by
      rw [mark, mark, hs]
    rw [hmark]
    refine ⟨hbase.startable.notOpened mdl, fun cycleRoot => ?_⟩
    by_cases hm : mdl ∈ run.touched
    · rw [(h.mark_eq_white hm).1]
      exact iff_of_false (fun hcl => by cases hcl) (hopen cycleRoot hm)
    · rw [← h.sound.reported.untouched mdl hm]
      exact Iff.rfl
  · rw [mark_eq ha, hmark]
    exact ⟨by rintro idx low ⟨⟩, fun other => Iff.rfl⟩

/-- A run leaves a graph that can be linked. -/
theorem Linking.linkable (hbase : Linkable base) (h : Linking base root run) :
    Linkable (rollbackLink run.graph run.touched) := by
  have halike := h.alike.trans (alike_rollbackLink run.graph run.touched)
  have hsto : ∀ mdl rec, (rollbackLink run.graph run.touched).record mdl = .ok rec →
      base.record mdl = .ok rec ∨
      ∃ cycleRoot pre resolutions, base.record mdl = .ok pre ∧
        base.importResolutions pre.imports = .ok resolutions ∧
        (∀ req ∈ pre.requestedModules, (base.findSpecifier req).isSome) ∧
        rec =
          { pre with
            status := .linked cycleRoot
            imports := storeResolutions pre.imports resolutions } := by
    intro mdl rec hrec
    rcases h.record_after hbase mdl with ⟨-, hs⟩ |
      ⟨cycleRoot, pre, resolutions, -, -, hb, -, hres, hf, ha⟩
    · exact .inl (hs ▸ hrec)
    · rw [hrec] at ha
      cases ha
      exact .inr ⟨cycleRoot, pre, resolutions, hb, hres, hf, rfl⟩
  refine ⟨⟨?_, ?_, ?_, ?_⟩, ?_, ?_, ?_, ?_⟩
  · rw [halike.length]
    exact hbase.startable.small
  · exact halike.indexed hbase.startable.indexed
  · exact fun mdl => (h.mark_after hbase mdl).1
  · rw [halike.requested]
    exact h.sound.reported.closed.congr fun mdl => (h.mark_after hbase mdl).2
  · intro mdl rec hrec
    rcases hsto mdl rec hrec with hs | ⟨cycleRoot, pre, resolutions, hb, hres, -, rfl⟩
    · exact hbase.listed mdl rec hs
    · have hlist := hbase.listed mdl pre hb
      refine ⟨fun stored hm => ?_, hlist.exports⟩
      obtain ⟨ent, he, binding, rfl, -⟩ := mem_storeResolutions hres stored hm
      exact hlist.imports ent he
  · intro mdl rec cycleRoot hrec hstat req hreq
    rw [halike.findSpecifier]
    rcases hsto mdl rec hrec with hs | ⟨_, pre, resolutions, -, -, hf, rfl⟩
    · exact hbase.present mdl rec cycleRoot hs hstat req hreq
    · exact hf req hreq
  · intro mdl rec cycleRoot hrec hstat ent he
    rcases hsto mdl rec hrec with hs | ⟨_, pre, resolutions, -, hres, -, rfl⟩
    · obtain ⟨binding, hresolvedEntry, himport⟩ := hbase.stored mdl rec cycleRoot hs hstat ent he
      exact ⟨binding, hresolvedEntry, halike.importResolves.mpr himport⟩
    · obtain ⟨pre, -, binding, rfl, himport⟩ := mem_storeResolutions hres ent he
      have hbinding := importResolves_of_resolveImport hbase.startable.indexed himport
      exact ⟨binding, rfl, halike.importResolves.mpr hbinding⟩
  · intro mdl rec hrec hstat
    rcases hsto mdl rec hrec with hs | ⟨_, pre, resolutions, -, -, -, rfl⟩
    · exact hbase.unstored mdl rec hs hstat
    · cases hstat

/-- A run without frames has nothing to take back. -/
theorem Linking.rollback_complete (h : Linking base root run) (hfs : run.frames = []) :
    rollbackLink run.graph run.touched = run.graph := by
  refine rollbackLink_complete fun mdl hmod rec hrec => ?_
  have hempty : run.componentStack = [] :=
    h.sound.stack_nil (by rw [LinkRun.search, hfs, map_nil])
  cases hstat : rec.status with
  | unlinked | linked cycleRoot => rw [ModuleRecord.rolledBack, hstat]
  | linking dfsIndex ancestorIndex =>
    have hop : run.graph.mark mdl = .opened dfsIndex ancestorIndex := by
      rw [mark_eq hrec, hstat]
      rfl
    have hm : mdl ∈ run.componentStack := (h.sound.nested.opened mdl).mpr ⟨_, _, hop⟩
    rw [hempty] at hm
    cases hm

/-- A run leaves what it reached when it ended. -/
theorem Comes.exists_run {res : Except ModuleError LinkReport × ModuleGraph}
    (h : Comes base root res) :
    ∃ run, Linking base root run ∧ res.2 = rollbackLink run.graph run.touched := by
  cases h with
  | failed hrun => exact ⟨_, hrun, rfl⟩
  | linked hrun hfs => exact ⟨_, hrun, (hrun.rollback_complete hfs).symm⟩

end After

/-! ## Loaded graphs -/

/-- Linking leaves the graph alone, or it is what a run of the search comes to. -/
theorem Linkable.link_cases {g post : ModuleGraph} {root : ModuleId}
    {res : Except ModuleError LinkReport} (h : Linkable g) (hlinks : Links g root (res, post)) :
    post = g ∨ ∃ run, Linking g root run ∧ post = rollbackLink run.graph run.touched := by
  cases hrec : g.record root with
  | error err =>
    simp only [Links, hrec] at hlinks
    exact .inl (Prod.mk.inj hlinks).2
  | ok rec =>
    cases hstat : rec.status with
    | linked cycleRoot | linking dfsIndex ancestorIndex =>
      simp only [Links, hrec, hstat] at hlinks
      exact .inl (Prod.mk.inj hlinks).2
    | unlinked =>
      obtain ⟨other, -, hcomes, hunique⟩ := links_comes h.startable hrec hstat
      rw [← hunique _ hlinks] at hcomes
      exact .inr hcomes.exists_run

theorem Linkable.link {g post : ModuleGraph} {root : ModuleId}
    {res : Except ModuleError LinkReport} (h : Linkable g)
    (hlinks : Links g root (res, post)) : Linkable post := by
  rcases h.link_cases hlinks with rfl | ⟨run, hrun, rfl⟩
  · exact h
  · exact hrun.linkable h

section Insert

variable {g post : ModuleGraph} {init : ModuleRecordInit} {id : ModuleId}

section

variable (hinsert : g.insertWithBody init = .ok (id, post))

include hinsert

theorem record_insert (mdl : ModuleId) :
    post.record mdl = if mdl = id then .ok (newRecord init id) else g.record mdl := by
  obtain ⟨-, hid, hrecs, -⟩ := insertWithBody_eq hinsert
  rw [ModuleGraph.record, hrecs]
  by_cases heq : mdl = id
  · subst heq
    rw [if_pos rfl, hid, getElem?_concat_length]
  · have hi : mdl.index ≠ g.records.length := fun hi =>
      heq (ModuleId.ext (hi.trans hid.symm))
    rw [if_neg heq, ModuleGraph.record]
    rcases Nat.lt_or_gt_of_ne hi with hlt | hgt
    · rw [List.getElem?_append_left hlt]
    · have hlen : (g.records ++ [newRecord init id]).length ≤ mdl.index := by
        rw [length_append, length_singleton]
        omega
      rw [getElem?_eq_none hlen, getElem?_eq_none hgt.le]

theorem record_insert_error : g.record id = .error (.unknownModule id) := by
  obtain ⟨-, hid, -, -⟩ := insertWithBody_eq hinsert
  rw [ModuleGraph.record, getElem?_eq_none hid.ge]

theorem findSpecifier_insert {specifier : ModuleIdentity}
    (hf : (g.findSpecifier specifier).isSome) :
    post.findSpecifier specifier = g.findSpecifier specifier := by
  obtain ⟨-, -, hrecs, -⟩ := insertWithBody_eq hinsert
  rw [ModuleGraph.findSpecifier, Option.isSome_map] at hf
  obtain ⟨rec, hrec⟩ := Option.isSome_iff_exists.mp hf
  rw [ModuleGraph.findSpecifier, ModuleGraph.findSpecifier, hrecs, find?_append, hrec]
  rfl

theorem mark_insert : post.mark = g.mark := by
  funext mdl
  rw [mark, record_insert hinsert]
  by_cases heq : mdl = id
  · subst heq
    rw [if_pos rfl, mark, record_insert_error hinsert]
    rfl
  · rw [if_neg heq, mark]

theorem moduleBySpecifier_insert {specifier : ModuleIdentity}
    (hf : (g.findSpecifier specifier).isSome) :
    post.moduleBySpecifier specifier = g.moduleBySpecifier specifier := by
  rw [moduleBySpecifier, moduleBySpecifier, findSpecifier_insert hinsert hf]

omit hinsert in
theorem exists_linked {mdl cycleRoot : ModuleId} (hmark : g.mark mdl = .closed cycleRoot) :
    ∃ rec, g.record mdl = .ok rec ∧ rec.status = .linked cycleRoot := by
  have hwhite : g.mark mdl ≠ .white := by
    rw [hmark]
    exact fun hwhite => nomatch hwhite
  obtain ⟨rec, hrec, -⟩ := exists_record hwhite
  exact ⟨rec, hrec, (mark_eq_closed_iff hrec).mp hmark⟩

omit hinsert in
/-- What a linked module requests is linked. -/
theorem Linkable.closed_of_request (h : Linkable g) {mdl cycleRoot tgt : ModuleId}
    {rec : ModuleRecord} {req : ModuleIdentity} (hrec : g.record mdl = .ok rec)
    (hstat : rec.status = .linked cycleRoot) (hreq : req ∈ rec.requestedModules)
    (ht : g.moduleBySpecifier req = .ok tgt) : ∃ root, g.mark tgt = .closed root := by
  refine h.startable.closed.edge mdl cycleRoot ((mark_eq_closed_iff hrec).mpr hstat) tgt ?_
  rw [requested, hrec]
  refine mem_filterMap.mpr ⟨req, hreq, ?_⟩
  rw [moduleBySpecifier] at ht
  split at ht
  next found hf =>
    cases ht
    exact hf
  · cases ht

omit hinsert in
theorem Linkable.agrees_insert (h : Linkable g) (hinsert : g.insertWithBody init = .ok (id, post)) :
    g.Agrees post fun mdl => ∃ cycleRoot, g.mark mdl = .closed cycleRoot where
  record := by
    rintro mdl ⟨cycleRoot, hmark⟩
    obtain ⟨rec, hrec, -⟩ := exists_linked hmark
    have hne : mdl ≠ id := by
      rintro rfl
      rw [record_insert_error hinsert] at hrec
      cases hrec
    refine .inl ⟨rec, rec, hrec, ?_, rfl⟩
    rw [record_insert hinsert, if_neg hne, hrec]
  request := by
    rintro mdl rec ⟨cycleRoot, hmark⟩ hrec ent he req hreq
    obtain ⟨rec', hrec', hstat⟩ := exists_linked hmark
    rw [hrec] at hrec'
    cases hrec'
    have hlist := (h.listed mdl rec hrec).exports ent he req hreq
    have hf := h.present mdl rec cycleRoot hrec hstat req hlist
    refine ⟨moduleBySpecifier_insert hinsert hf, fun tgt ht => ?_⟩
    exact h.closed_of_request hrec hstat hlist ht

theorem small_insert : post.records.length < 2 ^ 32 := by
  obtain ⟨-, hid, hrecs, -⟩ := insertWithBody_eq hinsert
  have hsm : id.index + 1 < 2 ^ 32 := by
    rw [insertWithBody] at hinsert
    split at hinsert
    · cases hinsert
    · dsimp only at hinsert
      split at hinsert
      · cases hinsert
      · split at hinsert
        · cases hinsert
        · split_ifs at hinsert
          split at hinsert
          · cases hinsert
          next found hf =>
            cases hinsert
            rw [ModuleId.fromIndex] at hf
            split at hf
            next hlt =>
              cases hf
              exact hlt
            · cases hf
  rw [hrecs, length_append, ← hid]
  exact hsm

end

theorem Linkable.insert (h : Linkable g) (hinsert : g.insertWithBody init = .ok (id, post))
    (hunresolved : ∀ ent ∈ init.imports, ent.resolved = none) : Linkable post := by
  obtain ⟨hval, -⟩ := insertWithBody_eq hinsert
  have hcases : ∀ mdl rec, post.record mdl = .ok rec →
      (mdl = id ∧ rec = newRecord init id) ∨ (mdl ≠ id ∧ g.record mdl = .ok rec) := by
    intro mdl rec hrec
    rw [record_insert hinsert] at hrec
    split_ifs at hrec with heq
    · cases hrec
      exact .inl ⟨heq, rfl⟩
    · exact .inr ⟨heq, hrec⟩
  have hrequested : ∀ mdl cycleRoot, g.mark mdl = .closed cycleRoot →
      post.requested mdl = g.requested mdl := by
    intro mdl cycleRoot hmark
    obtain ⟨rec, hrec, hstat⟩ := exists_linked hmark
    have hne : mdl ≠ id := by
      rintro rfl
      rw [record_insert_error hinsert] at hrec
      cases hrec
    rw [requested, requested, record_insert hinsert, if_neg hne, hrec]
    refine filterMap_congr fun req hreq => ?_
    exact findSpecifier_insert hinsert (h.present mdl rec cycleRoot hrec hstat req hreq)
  refine ⟨⟨small_insert hinsert, h.startable.indexed.insert hinsert, ?_, ?_⟩, ?_, ?_, ?_, ?_⟩
  · rw [mark_insert hinsert]
    exact h.startable.notOpened
  · rw [mark_insert hinsert]
    exact (h.startable.closed.transport hrequested).2
  · intro mdl rec hrec
    rcases hcases mdl rec hrec with ⟨-, rfl⟩ | ⟨-, hold⟩
    · exact requestsListed_newRecord hval
    · exact h.listed mdl rec hold
  · intro mdl rec cycleRoot hrec hstat req hreq
    rcases hcases mdl rec hrec with ⟨-, rfl⟩ | ⟨-, hold⟩
    · cases hstat
    · have hf := h.present mdl rec cycleRoot hold hstat req hreq
      rw [findSpecifier_insert hinsert hf]
      exact hf
  · intro mdl rec cycleRoot hrec hstat ent he
    rcases hcases mdl rec hrec with ⟨-, rfl⟩ | ⟨-, hold⟩
    · cases hstat
    · obtain ⟨binding, hsto, hrs⟩ := h.stored mdl rec cycleRoot hold hstat ent he
      have hlist := (h.listed mdl rec hold).imports ent he
      have hf := h.present mdl rec cycleRoot hold hstat _ hlist
      refine ⟨binding, hsto, ?_⟩
      exact ((h.agrees_insert hinsert).importResolves (moduleBySpecifier_insert hinsert hf)
        fun tgt ht => h.closed_of_request hold hstat hlist ht).mpr hrs
  · intro mdl rec hrec hstat
    rcases hcases mdl rec hrec with ⟨-, rfl⟩ | ⟨-, hold⟩
    · exact hunresolved
    · exact h.unstored mdl rec hold hstat

end Insert

theorem ModuleRecord.SameLink.alike {rec post : ModuleRecord}
    (h : ModuleRecord.SameLink rec post) : rec.Alike post :=
    ⟨h.id, h.specifier, h.requestedModules, h.exports⟩

theorem ModuleRecord.SameLink.trans {rec middle post : ModuleRecord}
    (h : ModuleRecord.SameLink rec middle) (h' : ModuleRecord.SameLink middle post) :
    ModuleRecord.SameLink rec post where
  id := h'.id.trans h.id
  specifier := h'.specifier.trans h.specifier
  requestedModules := h'.requestedModules.trans h.requestedModules
  imports := h'.imports.trans h.imports
  exports := h'.exports.trans h.exports
  status := h'.status.trans h.status

/-- Graphs whose records link the same. -/
structure KeepsLinks (g post : ModuleGraph) : Prop where
  alike : g.Alike post
  records : ∀ (index : Nat) (record record' : ModuleRecord), g.records[index]? = some record →
    post.records[index]? = some record' → ModuleRecord.SameLink record record'

theorem KeepsLinks.refl (g : ModuleGraph) : g.KeepsLinks g where
  alike := .refl g
  records := by
    intro idx rec rec' hrec hrec'
    rw [hrec] at hrec'
    cases hrec'
    exact ⟨rfl, rfl, rfl, rfl, rfl, rfl⟩

theorem KeepsLinks.trans {g middle post : ModuleGraph} (h : g.KeepsLinks middle)
    (h' : middle.KeepsLinks post) : g.KeepsLinks post where
  alike := h.alike.trans h'.alike
  records := by
    intro idx rec rec'' hrec hrec''
    obtain ⟨rec', hrec', -⟩ := h.alike.records idx rec hrec
    exact (h.records idx rec rec' hrec hrec').trans (h'.records idx rec' rec'' hrec' hrec'')

theorem keepsLinks_modifyRecord {g : ModuleGraph} (id : ModuleId)
    {change : ModuleRecord → ModuleRecord} (hch : ∀ rec, ModuleRecord.SameLink rec (change rec)) :
    g.KeepsLinks (g.modifyRecord id change) where
  alike := alike_modifyRecord id fun rec => (hch rec).alike
  records := by
    intro idx rec rec' hrec hrec'
    rw [modifyRecord, getElem?_modify, hrec] at hrec'
    cases hrec'
    split
    · exact hch rec
    · exact ⟨rfl, rfl, rfl, rfl, rfl, rfl⟩

theorem KeepsLinks.record {g post : ModuleGraph} (h : g.KeepsLinks post) {mdl : ModuleId}
    {rec' : ModuleRecord} (hrec' : post.record mdl = .ok rec') :
    ∃ rec, g.record mdl = .ok rec ∧ ModuleRecord.SameLink rec rec' := by
  rcases h.alike.record mdl with ⟨rec, rec'', hrec, hrec'', -⟩ | ⟨-, hn⟩
  · rw [hrec'] at hrec''
    refine ⟨rec, hrec, h.records mdl.index rec rec' ?_ ?_⟩
    · exact getElem?_of_record hrec
    · exact getElem?_of_record hrec'
  · rw [hrec'] at hn
    cases hn

theorem KeepsLinks.mark {g post : ModuleGraph} (h : g.KeepsLinks post) : post.mark = g.mark := by
  funext mdl
  rcases h.alike.record mdl with ⟨rec, rec', hrec, hrec', -⟩ | ⟨hn, hn'⟩
  · have hs := h.records mdl.index rec rec' (getElem?_of_record hrec) (getElem?_of_record hrec')
    rw [mark_eq hrec, mark_eq hrec', hs.status]
  · rw [ModuleGraph.mark, ModuleGraph.mark, hn, hn']

theorem Linkable.keepsLinks {g post : ModuleGraph} (h : Linkable g)
    (hkeeps : g.KeepsLinks post) : Linkable post := by
  have halike := hkeeps.alike
  refine ⟨⟨?_, halike.indexed h.startable.indexed, ?_, ?_⟩, ?_, ?_, ?_, ?_⟩
  · rw [halike.length]
    exact h.startable.small
  · rw [hkeeps.mark]
    exact h.startable.notOpened
  · rw [hkeeps.mark, halike.requested]
    exact h.startable.closed
  · intro mdl rec hrec
    obtain ⟨pre, hb, hlink⟩ := hkeeps.record hrec
    have hlist := h.listed mdl pre hb
    refine ⟨?_, ?_⟩
    · rw [hlink.imports, hlink.requestedModules]
      exact hlist.imports
    · rw [hlink.exports, hlink.requestedModules]
      exact hlist.exports
  · intro mdl rec cycleRoot hrec hstat
    obtain ⟨pre, hb, hlink⟩ := hkeeps.record hrec
    rw [hlink.requestedModules]
    intro req hreq
    rw [halike.findSpecifier]
    exact h.present mdl pre cycleRoot hb (hlink.status ▸ hstat) req hreq
  · intro mdl rec cycleRoot hrec hstat
    obtain ⟨pre, hb, hlink⟩ := hkeeps.record hrec
    rw [hlink.imports]
    intro ent he
    obtain ⟨binding, hsto, hrs⟩ := h.stored mdl pre cycleRoot hb (hlink.status ▸ hstat) ent he
    exact ⟨binding, hsto, halike.importResolves.mpr hrs⟩
  · intro mdl rec hrec hstat
    obtain ⟨pre, hb, hlink⟩ := hkeeps.record hrec
    rw [hlink.imports]
    exact h.unstored mdl pre hb (hlink.status ▸ hstat)

theorem linkable_new (limits : ModuleLimits) : Linkable (new limits) := by
  have hn : ∀ mdl, (new limits).record mdl = .error (.unknownModule mdl) :=
    fun mdl => rfl
  have hmark : ∀ mdl, (new limits).mark mdl = .white := fun mdl => rfl
  refine ⟨⟨(by decide : 0 < 2 ^ 32), ?_, ?_, ?_⟩, ?_, ?_, ?_, ?_⟩
  · intro idx rec hrec
    cases hrec
  · intro mdl idx low hop
    cases hop
  · exact
      { edge := fun mdl root hcl => nomatch (hmark mdl).symm.trans hcl
        root := fun mdl root hcl => nomatch (hmark mdl).symm.trans hcl
        unique := fun mdl root other root' hcl => nomatch (hmark mdl).symm.trans hcl }
  · exact fun mdl rec hrec => nomatch (hn mdl).symm.trans hrec
  · exact fun mdl rec root hrec => nomatch (hn mdl).symm.trans hrec
  · exact fun mdl rec root hrec => nomatch (hn mdl).symm.trans hrec
  · exact fun mdl rec hrec => nomatch (hn mdl).symm.trans hrec

theorem Loaded.linkable {g : ModuleGraph} (h : Loaded g) : Linkable g := by
  induction h with
  | new limits => exact linkable_new limits
  | insert _ hinsert hunresolved ih => exact ih.insert hinsert hunresolved
  | link _ hlinks ih => exact ih.link hlinks
  | evaluate id change hch _ ih => exact ih.keepsLinks (keepsLinks_modifyRecord id hch)

/-! ## Linking a root -/

/-- A module requests another, maybe through others. -/
def Leads (g : ModuleGraph) (module other : ModuleId) : Prop := Path g.requested module other

def Unlinked (g : ModuleGraph) (module : ModuleId) : Prop :=
  ∃ record, g.record module = .ok record ∧ record.status = .unlinked

def CycleRoot (g : ModuleGraph) (module cycleRoot : ModuleId) : Prop :=
  ∃ record, g.record module = .ok record ∧ record.status = .linked cycleRoot

/-- Every import of a module has one binding. -/
def ImportsResolve (g : ModuleGraph) (module : ModuleId) : Prop :=
  ∀ record, g.record module = .ok record → ∀ entry ∈ record.imports, ∃ binding,
    g.ImportResolves entry binding

/-- The resolution of every import of a module stays within the bound of the source. -/
def ImportsFit (g : ModuleGraph) (module : ModuleId) : Prop :=
  ∀ record, g.record module = .ok record → ∀ entry ∈ record.imports, ∀ target name,
    g.moduleBySpecifier entry.moduleRequest = .ok target → entry.importName = .name name →
      ∀ resolution, Resolves g target name resolution → resolution.Fits g.maxExportWork 0

/-- What a root leads to is linked, and the components are reported after those that they
request. -/
structure LinkSucceeds (g : ModuleGraph) (root : ModuleId) (report : LinkReport)
    (post : ModuleGraph) : Prop where
  linked : ∀ module, g.Leads root module → ∃ cycleRoot, post.CycleRoot module cycleRoot
  cycleRoot_iff : ∀ module other cycleRoot cycleRoot', g.Leads root module →
    g.Leads root other → post.CycleRoot module cycleRoot → post.CycleRoot other cycleRoot' →
      (cycleRoot = cycleRoot' ↔ g.Leads module other ∧ g.Leads other module)
  component : ∀ component ∈ report.components, ∃ first ∈ component, ∀ module,
    module ∈ component ↔ g.Leads first module ∧ g.Leads module first
  reported : ∀ module, module ∈ report.components.flatten ↔ g.Leads root module ∧ g.Unlinked module
  once : report.components.flatten.Nodup
  sorted : report.components.Pairwise fun earlier later =>
    ∀ module ∈ earlier, ∀ request ∈ g.requested module, request ∉ later
  stored : ∀ module record, g.Leads root module → post.record module = .ok record →
    ∀ entry ∈ record.imports, ∃ binding, entry.resolved = some binding ∧
      g.ImportResolves entry binding
  unchanged : ∀ module, module ∉ report.components.flatten → post.record module = g.record module

/-- A record is as before, or it is in a component that was complete. -/
structure LinkFails (g : ModuleGraph) (root : ModuleId) (post : ModuleGraph) : Prop where
  unchanged : ∀ module, (∀ cycleRoot, ¬ post.CycleRoot module cycleRoot) →
    post.record module = g.record module
  unlinked : ∀ module record, post.record module = .ok record →
    (∀ cycleRoot, ¬ post.CycleRoot module cycleRoot) →
      record.status = .unlinked ∧ ∀ entry ∈ record.imports, entry.resolved = none
  complete : ∀ module cycleRoot, post.CycleRoot module cycleRoot →
    post.record module = g.record module ∨ g.Leads root module ∧ g.Unlinked module ∧
        ∀ other, g.Leads module other → ∃ cycleRoot', post.CycleRoot other cycleRoot'

section Link

variable {g : ModuleGraph} {root : ModuleId} {run : LinkRun}

theorem cycleRoot_iff_mark {mdl cycleRoot : ModuleId} :
    g.CycleRoot mdl cycleRoot ↔ g.mark mdl = .closed cycleRoot := by
  constructor
  · rintro ⟨rec, hrec, hstat⟩
    exact (mark_eq_closed_iff hrec).mpr hstat
  · exact exists_linked

theorem unlinked_iff_mark (hlt : root.index < g.records.length) :
    g.Unlinked root ↔ g.mark root = .white := by
  constructor
  · rintro ⟨rec, hrec, hstat⟩
    exact (mark_eq_white_iff hrec).mpr hstat
  · intro hmark
    obtain ⟨rec, hrec⟩ := exists_record_of_lt hlt
    exact ⟨rec, hrec, (mark_eq_white_iff hrec).mp hmark⟩

theorem resolveImport_of_importResolves (hindexed : g.Indexed) {ent : ImportEntry}
    {binding : ResolvedBinding} (h : g.ImportResolves ent binding)
    (hfits : ∀ tgt name, g.moduleBySpecifier ent.moduleRequest = .ok tgt →
      ent.importName = .name name → ∀ resolution, Resolves g tgt name resolution →
        resolution.Fits g.maxExportWork 0) : g.resolveImport ent = .ok binding := by
  obtain ⟨tgt, ht, hbinding⟩ := h
  rw [resolveImport, ht]
  cases hname : ent.importName with
  | «namespace» =>
    rw [hname] at hbinding
    exact congrArg _ hbinding.symm
  | name name =>
    rw [hname] at hbinding
    obtain ⟨resolution, hrs, hf⟩ := hbinding
    obtain ⟨other, -, hunique, -, hret, -⟩ :=
      resolveExport_returns hindexed (hindexed.lt_of_moduleBySpecifier ht) name
    obtain rfl := hunique resolution hrs
    have hres := hret.mpr (hfits tgt name ht hname resolution hrs)
    rw [resolveExportReturns_iff, hf] at hres
    dsimp only
    rw [hres]

theorem exists_of_importResolutions_ok {imports : List ImportEntry} {resolutions :
    List ResolvedBinding} (h : g.importResolutions imports = .ok resolutions) :
    ∀ ent ∈ imports, ∃ binding, g.resolveImport ent = .ok binding := by
  induction imports generalizing resolutions with
  | nil => exact fun ent he => absurd he not_mem_nil
  | cons first rest ih =>
    rw [importResolutions] at h
    split at h
    · cases h
    next binding hbinding =>
      split at h
      · cases h
      next others hos =>
        intro ent he
        rcases mem_cons.mp he with rfl | he
        · exact ⟨binding, hbinding⟩
        · exact ih hos ent he

theorem exists_of_importResolutions_error {imports : List ImportEntry} {err : ModuleError}
    (h : g.importResolutions imports = .error err) :
    ∃ ent ∈ imports, g.resolveImport ent = .error err := by
  induction imports with
  | nil => cases h
  | cons ent rest ih =>
    rw [importResolutions] at h
    split at h
    next err' herr =>
      cases h
      exact ⟨ent, mem_cons_self, herr⟩
    · split at h
      next err' herr =>
        cases h
        obtain ⟨other, ho, hf⟩ := ih herr
        exact ⟨other, mem_cons_of_mem _ ho, hf⟩
      · cases h

theorem Linking.leads (h : Linking g root run) {mdl : ModuleId} (hmod : mdl ∈ run.touched) :
    g.Leads root mdl ∧ g.Unlinked mdl :=
  ⟨h.sound.reported.touched_reached mdl hmod,
    (unlinked_iff_mark (h.lt_of_mem hmod)).mpr (h.mark_eq_white hmod).1⟩

section

variable (hgraph : Linkable g)

include hgraph

/-- At the end of a run, the touched modules are those of the components. -/
theorem Linking.mem_components (h : Linking g root run) (hfs : run.frames = [])
    (mdl : ModuleId) : mdl ∈ run.components.flatten ↔ mdl ∈ run.touched := by
  have hempty : (run.search g).frames = [] := by rw [LinkRun.search, hfs, map_nil]
  constructor
  · intro hm
    obtain ⟨component, hcomp, hm⟩ := mem_flatten.mp hm
    obtain ⟨first, hfirst, -, hall⟩ := h.sound.reported.component_closed component hcomp
    by_contra hnot
    have hb := h.sound.reported.untouched mdl hnot
    rw [(hall mdl).mp hm] at hb
    have hcl := hgraph.startable.closed.root mdl first hb.symm
    rw [(h.mark_eq_white hfirst).1] at hcl
    cases hcl.1
  · intro hm
    obtain ⟨cycleRoot, hmark⟩ :=
      h.sound.closed_of_path hempty (h.sound.reported.touched_reached mdl hm)
    exact h.sound.reported.component_of_closed mdl hm cycleRoot hmark

theorem Linking.succeeds (h : Linking g root run) (hfs : run.frames = []) :
    LinkSucceeds g root ⟨run.components⟩ run.graph := by
  have hempty : (run.search g).frames = [] := by rw [LinkRun.search, hfs, map_nil]
  have hcl := h.sound.reported.closed
  have ha := h.rollback_complete hfs
  have hm := h.mem_components hgraph hfs
  exact
    { linked := by
        intro mdl hleads
        obtain ⟨cycleRoot, hmark⟩ := h.sound.closed_of_path hempty hleads
        exact ⟨cycleRoot, cycleRoot_iff_mark.mpr hmark⟩
      cycleRoot_iff := by
        intro mdl other cycleRoot cycleRoot' _ _ hmod ho
        exact hcl.root_eq_iff (cycleRoot_iff_mark.mp hmod) (cycleRoot_iff_mark.mp ho)
      component := by
        intro component hcomp
        obtain ⟨first, hfirst, hmark, hall⟩ := h.sound.reported.component_closed component hcomp
        refine ⟨first, (hall first).mpr hmark, fun mdl => (hall mdl).trans ⟨fun hmod => ?_, ?_⟩⟩
        · obtain ⟨-, hto, hfrom⟩ := hcl.root mdl first hmod
          exact ⟨hfrom, hto⟩
        · rintro ⟨hto, hfrom⟩
          obtain ⟨other, ho⟩ := hcl.path hmark hto
          rw [(hcl.root_eq_iff hmark ho).mpr ⟨hto, hfrom⟩]
          exact ho
      reported := by
        intro mdl
        rw [hm]
        refine ⟨h.leads, ?_⟩
        rintro ⟨hleads, hunlinked⟩
        by_contra hnot
        obtain ⟨cycleRoot, hmark⟩ := h.sound.closed_of_path hempty hleads
        obtain ⟨rec, hrec, hstat⟩ := hunlinked
        have hb := h.sound.reported.untouched mdl hnot
        rw [hmark, (mark_eq_white_iff hrec).mpr hstat] at hb
        cases hb
      once := h.sound.reported.components_nodup
      sorted := h.sound.reported.components_sorted
      stored := by
        intro mdl rec hleads hrec ent he
        have hlinkable := h.linkable hgraph
        rw [ha] at hlinkable
        obtain ⟨cycleRoot, hmark⟩ := h.sound.closed_of_path hempty hleads
        obtain ⟨binding, hsto, hrs⟩ := hlinkable.stored mdl rec cycleRoot hrec
          ((mark_eq_closed_iff hrec).mp hmark) ent he
        exact ⟨binding, hsto, h.alike.importResolves.mp hrs⟩
      unchanged := by
        intro mdl hnot
        exact h.written.untouched mdl fun hmod => hnot ((hm mdl).mpr hmod) }

theorem Linking.fails (h : Linking g root run) :
    LinkFails g root (rollbackLink run.graph run.touched) := by
  have hlinkable := h.linkable hgraph
  have halike := h.alike.trans (alike_rollbackLink run.graph run.touched)
  exact
    { unchanged := by
        intro mdl hnot
        rcases h.record_after hgraph mdl with ⟨-, hs⟩ |
          ⟨cycleRoot, rec, resolutions, -, -, -, -, -, -, ha⟩
        · exact hs
        · exact absurd ⟨_, ha, rfl⟩ (hnot cycleRoot)
      unlinked := by
        intro mdl rec hrec hnot
        have hstat : rec.status = .unlinked := by
          cases hcases : rec.status with
          | unlinked => rfl
          | linked cycleRoot => exact absurd ⟨rec, hrec, hcases⟩ (hnot cycleRoot)
          | linking dfsIndex ancestorIndex =>
            have hop := hlinkable.startable.notOpened mdl dfsIndex ancestorIndex
            rw [mark_eq hrec, hcases] at hop
            exact absurd rfl hop
        exact ⟨hstat, hlinkable.unstored mdl rec hrec hstat⟩
      complete := by
        intro mdl cycleRoot hroot
        rcases h.record_after hgraph mdl with ⟨-, hs⟩ | ⟨_, _, _, hm, -⟩
        · exact .inl hs
        · obtain ⟨hleads, hunlinked⟩ := h.leads hm
          refine .inr ⟨hleads, hunlinked, fun other ho => ?_⟩
          have hcl := hlinkable.startable.closed
          rw [halike.requested] at hcl
          obtain ⟨cycleRoot', ho'⟩ := hcl.path (cycleRoot_iff_mark.mp hroot) ho
          exact ⟨cycleRoot', cycleRoot_iff_mark.mpr ho'⟩ }

/-- A root that is linked already. -/
theorem Linkable.succeeds_linked {cycleRoot : ModuleId} (hroot : g.CycleRoot root cycleRoot) :
    LinkSucceeds g root ⟨[]⟩ g := by
  have hcl := hgraph.startable.closed
  have hlk : ∀ mdl, g.Leads root mdl → ∃ cycleRoot, g.mark mdl = .closed cycleRoot :=
    fun mdl hleads => hcl.path (cycleRoot_iff_mark.mp hroot) hleads
  exact
    { linked := by
        intro mdl hleads
        obtain ⟨cycleRoot, hmark⟩ := hlk mdl hleads
        exact ⟨cycleRoot, cycleRoot_iff_mark.mpr hmark⟩
      cycleRoot_iff := by
        intro mdl other cycleRoot cycleRoot' _ _ hmod ho
        exact hcl.root_eq_iff (cycleRoot_iff_mark.mp hmod) (cycleRoot_iff_mark.mp ho)
      component := fun component hcomp => absurd hcomp not_mem_nil
      reported := by
        intro mdl
        refine iff_of_false not_mem_nil ?_
        rintro ⟨hleads, rec, hrec, hstat⟩
        obtain ⟨cycleRoot, hmark⟩ := hlk mdl hleads
        rw [(mark_eq_white_iff hrec).mpr hstat] at hmark
        cases hmark
      once := nodup_nil
      sorted := List.Pairwise.nil
      stored := by
        intro mdl rec hleads hrec ent he
        obtain ⟨cycleRoot, hmark⟩ := hlk mdl hleads
        exact hgraph.stored mdl rec cycleRoot hrec ((mark_eq_closed_iff hrec).mp hmark) ent he
      unchanged := fun mdl _ => rfl }

/-- What decides a link, where every request is there and every resolution stays within the
bound. -/
theorem Comes.succeeds_iff {res : Except ModuleError LinkReport × ModuleGraph}
    (hcomes : Comes g root res) (hpres : ∀ mdl, g.Leads root mdl → ∀ rec, g.record mdl = .ok rec →
      ∀ req ∈ rec.requestedModules, (g.findSpecifier req).isSome)
    (hfit : ∀ mdl, g.Leads root mdl → g.Unlinked mdl → g.ImportsFit mdl) :
    (∃ report, res.1 = .ok report) ↔
      ∀ mdl, g.Leads root mdl → g.Unlinked mdl → g.ImportsResolve mdl := by
  cases hcomes with
  | @linked run hrun hfs =>
    refine iff_of_true ⟨_, rfl⟩ fun mdl hleads hunlinked rec hrec ent he => ?_
    have hm : mdl ∈ run.touched := by
      rw [← hrun.mem_components hgraph hfs]
      exact ((hrun.succeeds hgraph hfs).reported mdl).mpr ⟨hleads, hunlinked⟩
    have hl : ¬ Inside run.frames mdl := by
      rintro ⟨frame, hfr, -⟩
      rw [hfs] at hfr
      cases hfr
    obtain ⟨_, resolutions, hresolved, -⟩ := hrun.written.left mdl hm hl rec hrec
    obtain ⟨binding, hbinding⟩ := exists_of_importResolutions_ok hresolved ent he
    exact ⟨binding, importResolves_of_resolveImport hgraph.startable.indexed hbinding⟩
  | @failed run err mdl hrun hmod hfailure =>
    obtain ⟨hleads, hunlinked⟩ := hrun.leads hmod
    refine iff_of_false (fun ⟨report, hreport⟩ => (nomatch hreport)) fun hres => ?_
    cases hfailure with
    | request hrec hreq hmis =>
      have hf := hpres mdl hleads _ hrec _ hreq
      rw [hmis] at hf
      cases hf
    | imports hrec hfl =>
      obtain ⟨ent, he, herr⟩ := exists_of_importResolutions_error hfl
      obtain ⟨binding, hbinding⟩ := hres mdl hleads hunlinked _ hrec ent he
      rw [resolveImport_of_importResolves hgraph.startable.indexed hbinding
        (hfit mdl hleads hunlinked _ hrec ent he)] at herr
      cases herr

end

end Link

/-- Linking a root of a loaded graph whose requests are there comes to one result. Where the
resolution of the imports stays within the bound, it succeeds exactly when every import of an
unlinked module that the root leads to has one binding; indirect exports are not looked at. -/
theorem link_exact {g : ModuleGraph} (hgraph : Loaded g) {root : ModuleId}
    (hroot : root.index < g.records.length)
    (hpres : ∀ mdl, g.Leads root mdl → ∀ rec, g.record mdl = .ok rec →
      ∀ req ∈ rec.requestedModules, (g.findSpecifier req).isSome) :
    ∃ res post, Links g root (res, post) ∧ (∀ other, Links g root other → other = (res, post)) ∧
      ((∀ mdl, g.Leads root mdl → g.Unlinked mdl → g.ImportsFit mdl) →
        ((∃ report, res = .ok report) ↔
          ∀ mdl, g.Leads root mdl → g.Unlinked mdl → g.ImportsResolve mdl)) ∧
      (∀ report, res = .ok report → LinkSucceeds g root report post) ∧
      ∀ err, res = .error err → LinkFails g root post := by
  have hlinkable := hgraph.linkable
  obtain ⟨rec, hrec⟩ := exists_record_of_lt hroot
  cases hstat : rec.status with
  | linking dfsIndex ancestorIndex =>
    have hop := hlinkable.startable.notOpened root dfsIndex ancestorIndex
    rw [mark_eq hrec, hstat] at hop
    exact absurd rfl hop
  | linked cycleRoot =>
    have hsucceeds := hlinkable.succeeds_linked ⟨rec, hrec, hstat⟩
    have hlinks : ∀ other, Links g root other ↔ other = (.ok ⟨[]⟩, g) := by
      intro other
      simp only [Links, hrec, hstat]
    refine ⟨.ok ⟨[]⟩, g, (hlinks _).mpr rfl, fun other => (hlinks other).mp, fun _ => ?_, ?_, ?_⟩
    · refine iff_of_true ⟨_, rfl⟩ fun mdl hleads hunlinked => ?_
      exact absurd ((hsucceeds.reported mdl).mpr ⟨hleads, hunlinked⟩) not_mem_nil
    · rintro report hreport
      cases hreport
      exact hsucceeds
    · intro err herr
      cases herr
  | unlinked =>
    obtain ⟨⟨res, post⟩, hlinks, hcomes, hunique⟩ := links_comes hlinkable.startable hrec hstat
    refine ⟨res, post, hlinks, hunique, fun hfit => hcomes.succeeds_iff hlinkable hpres
      hfit, ?_, ?_⟩
    · intro report hreport
      subst hreport
      cases hcomes with
      | linked hrun hfs => exact hrun.succeeds hlinkable hfs
    · intro err herr
      subst herr
      cases hcomes with
      | failed hrun hmod hfailure => exact hrun.fails hlinkable

/-! ## Two graphs -/

theorem Loaded.insertEach {g : ModuleGraph} (hgraph : Loaded g) {inits : List ModuleRecordInit}
    (hunresolved : ∀ init ∈ inits, ∀ ent ∈ init.imports, ent.resolved = none) :
    Loaded (g.insertEach inits) :=
  insertEach_induction (fun init hm _ _ _ hpre hinsert => hpre.insert hinsert (hunresolved init hm))
    hgraph

theorem mem_of_record {g : ModuleGraph} {mdl : ModuleId} {rec : ModuleRecord}
    (hrec : g.record mdl = .ok rec) : rec ∈ g.records := by
  rw [ModuleGraph.record] at hrec
  split at hrec
  next found hf =>
    cases hrec
    exact mem_of_getElem? hf
  · cases hrec

/-- Two modules that request each other. -/
def cyclicGraph : ModuleGraph :=
  (new generousLimits).insertEach [reexporting 0 [1] [], reexporting 1 [0] []]

theorem link_exact_cycle : ∃ report post, Links cyclicGraph ⟨0⟩ (.ok report, post) ∧
    LinkSucceeds cyclicGraph ⟨0⟩ report post := by
  have hgraph : Loaded cyclicGraph := (Loaded.new generousLimits).insertEach (by decide)
  have hrequests : ∀ rec ∈ cyclicGraph.records, ∀ req ∈ rec.requestedModules,
      (cyclicGraph.findSpecifier req).isSome := by decide +kernel
  have himports : ∀ rec ∈ cyclicGraph.records, rec.imports = [] := by decide +kernel
  obtain ⟨res, post, hlinks, -, hiff, hsucceeds, -⟩ := link_exact hgraph
    (by decide +kernel : (⟨0⟩ : ModuleId).index < cyclicGraph.records.length)
    fun mdl _ rec hrec => hrequests rec (mem_of_record hrec)
  have hres : ∀ mdl, ImportsFit cyclicGraph mdl ∧ ImportsResolve cyclicGraph mdl := by
    intro mdl
    refine ⟨fun rec hrec ent he => ?_, fun rec hrec ent he => ?_⟩
    · rw [himports rec (mem_of_record hrec)] at he
      cases he
    · rw [himports rec (mem_of_record hrec)] at he
      cases he
  obtain ⟨report, rfl⟩ := (hiff fun mdl _ _ => (hres mdl).1).mpr fun mdl _ _ =>
    (hres mdl).2
  exact ⟨report, post, hlinks, hsucceeds report rfl⟩

/-- Every indirect export of a module has one binding. -/
def IndirectExportsResolve (g : ModuleGraph) (module : ModuleId) : Prop :=
  ∀ record, g.record module = .ok record → ∀ name moduleRequest importName,
    .indirect name moduleRequest importName ∈ record.exports → ∃ resolution binding,
      Resolves g module name resolution ∧ resolution.result = .ok (.found binding)

/-- The first module exports a name of the second one, which exports nothing. -/
def danglingGraph : ModuleGraph := (new generousLimits).insertEach
    [reexporting 0 [1] [.indirect ⟨[0]⟩ ⟨[1]⟩ (.name ⟨[1]⟩)], reexporting 1 [] []]

/-- The first module is linked, although its export has no binding. -/
theorem link_ignores_exports :
    ¬ ∀ g : ModuleGraph, Loaded g → ∀ root : ModuleId, root.index < g.records.length →
      (∀ mdl, g.Leads root mdl → ∀ rec, g.record mdl = .ok rec →
        ∀ req ∈ rec.requestedModules, (g.findSpecifier req).isSome) →
      ∀ res post, Links g root (res, post) →
        ((∃ report, res = .ok report) ↔ ∀ mdl, g.Leads root mdl →
          g.Unlinked mdl → g.ImportsResolve mdl ∧ g.IndirectExportsResolve mdl) := by
  intro h
  have hgraph : Loaded danglingGraph := (Loaded.new generousLimits).insertEach (by decide)
  have hrequests : ∀ rec ∈ danglingGraph.records, ∀ req ∈ rec.requestedModules,
      (danglingGraph.findSpecifier req).isSome := by decide +kernel
  have himports : ∀ rec ∈ danglingGraph.records, rec.imports = [] := by decide +kernel
  have hpres : ∀ mdl, danglingGraph.Leads ⟨0⟩ mdl → ∀ rec,
      danglingGraph.record mdl = .ok rec → ∀ req ∈ rec.requestedModules,
        (danglingGraph.findSpecifier req).isSome :=
    fun mdl _ rec hrec => hrequests rec (mem_of_record hrec)
  have hroot : (⟨0⟩ : ModuleId).index < danglingGraph.records.length := by decide +kernel
  obtain ⟨rec, hrec⟩ := exists_record_of_lt hroot
  have hunlinkedAll : ∀ rec ∈ danglingGraph.records, rec.status = .unlinked := by decide +kernel
  have hstat := hunlinkedAll rec (mem_of_record hrec)
  obtain ⟨⟨res, post⟩, hlinks, hcomes, -⟩ := links_comes hgraph.linkable.startable hrec hstat
  have hsucceeds := (hcomes.succeeds_iff hgraph.linkable hpres (by
      intro mdl _ _ rec hrec ent he
      rw [himports rec (mem_of_record hrec)] at he
      cases he)).mpr
    (by
      intro mdl _ _ rec hrec ent he
      rw [himports rec (mem_of_record hrec)] at he
      cases he)
  have hexports := ((h danglingGraph hgraph ⟨0⟩ hroot hpres res post hlinks).mp hsucceeds ⟨0⟩ .refl
    ⟨rec, hrec, hstat⟩).2
  have he : ∀ rec, danglingGraph.record ⟨0⟩ = .ok rec →
      .indirect ⟨[0]⟩ ⟨[1]⟩ (.name ⟨[1]⟩) ∈ rec.exports := by
    intro rec hrec
    cases hrec
    decide +kernel
  obtain ⟨resolution, binding, hrs, hf⟩ := hexports rec hrec _ _ _ (he rec hrec)
  have hmis : Resolves danglingGraph ⟨0⟩ ⟨[0]⟩
      ⟨.ok .notFound, [(⟨0⟩, ⟨[0]⟩), (⟨1⟩, ⟨[1]⟩)], 2⟩ := ⟨3, by decide +kernel⟩
  rw [hmis.unique hrs] at hf
  cases hf

end ModuleGraph

end TachyonEngine.Vm
