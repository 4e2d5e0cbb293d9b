import Mathlib
import TachyonEngine.Vm.ResolveExportWork

/-!
# What the resolution of an export returns

The recursive definition comes to a result, since each call that goes on visits another pair, of a
record and of a name that some export asks for. The loop returns that result exactly when the bound
suffices for it.
-/

namespace TachyonEngine.Vm

open Lib.Loop List

namespace ModuleGraph

variable {g : ModuleGraph}

/-! ## More fuel -/

variable {visits : List (ModuleId × ModuleExportName)} {candidate : Option ResolvedBinding}
  {resolution : Resolution}

variable {resolve : List (ModuleId × ModuleExportName) → ModuleId → Option Resolution}
  {requests : List ModuleIdentity}

theorem resolveStars_congr {other : List (ModuleId × ModuleExportName) → ModuleId → Option
    Resolution} (hres : ∀ visits tgt resolution, resolve visits tgt = some resolution → other visits
    tgt = some resolution) (h : resolveStars g resolve visits candidate requests = some resolution)
    :
    resolveStars g other visits candidate requests = some resolution := by
  induction requests generalizing visits candidate resolution with
  | nil => exact h
  | cons req rest ih =>
    rw [resolveStars] at h ⊢
    cases ht : g.moduleBySpecifier req with
    | error err =>
      rw [ht] at h
      exact h
    | ok tgt =>
      rw [ht] at h
      obtain ⟨child, hchild, h⟩ := Option.bind_eq_some_iff.mp h
      dsimp only
      rw [hres _ _ _ hchild, Option.bind_some]
      split at h
      · exact h
      · exact h
      · obtain ⟨later, hlat, rfl⟩ := Option.map_eq_some_iff.mp h
        rw [ih hlat, Option.map_some]
      · split_ifs at h with hdiff
        · rw [if_pos hdiff]
          exact h
        · obtain ⟨later, hlat, rfl⟩ := Option.map_eq_some_iff.mp h
          rw [if_neg hdiff, ih hlat, Option.map_some]

variable {fuel : Nat} {mdl : ModuleId} {name : ModuleExportName}

theorem resolveRecursively_succ (h : resolveRecursively g fuel visits mdl name = some resolution) :
    resolveRecursively g (fuel + 1) visits mdl name = some resolution := by
  induction fuel generalizing visits mdl name resolution with
  | zero => cases h
  | succ fuel ih =>
    rw [resolveRecursively] at h ⊢
    by_cases hvis : (mdl, name) ∈ visits
    · rw [if_pos hvis] at h ⊢
      exact h
    · rw [if_neg hvis] at h ⊢
      cases hrec : g.record mdl with
      | error err =>
        rw [hrec] at h
        exact h
      | ok rec =>
        rw [hrec] at h
        dsimp only at h ⊢
        cases hexport : findExport rec.exports name with
        | some ent =>
          rw [hexport] at h
          cases ent with
          | «local» exportName localName => exact h
          | star moduleRequest => cases h
          | indirect exportName moduleRequest importName =>
            dsimp only at h ⊢
            cases ht : g.moduleBySpecifier moduleRequest with
            | error err =>
              rw [ht] at h
              exact h
            | ok tgt =>
              rw [ht] at h
              cases importName with
              | «namespace» => exact h
              | name importName =>
                obtain ⟨child, hchild, rfl⟩ := Option.map_eq_some_iff.mp h
                exact Option.map_eq_some_iff.mpr ⟨child, ih hchild, rfl⟩
        | none =>
          rw [hexport] at h
          by_cases hdefault : name.isDefault
          · rw [if_pos hdefault] at h ⊢
            exact h
          · rw [if_neg hdefault] at h ⊢
            obtain ⟨stars, hstars, rfl⟩ := Option.map_eq_some_iff.mp h
            refine Option.map_eq_some_iff.mpr ⟨stars, ?_, rfl⟩
            exact resolveStars_congr (fun _ _ _ hchild => ih hchild) hstars

theorem resolveRecursively_mono {more : Nat} (hle : fuel ≤ more)
    (h : resolveRecursively g fuel visits mdl name = some resolution) :
    resolveRecursively g more visits mdl name = some resolution := by
  induction hle with
  | refl => exact h
  | step _ ih => exact resolveRecursively_succ ih

theorem Resolves.unique {other : Resolution} (h : Resolves g mdl name resolution)
    (ho : Resolves g mdl name other) : other = resolution := by
  obtain ⟨fuel, hfuel⟩ := h
  obtain ⟨more, hmore⟩ := ho
  have hl := resolveRecursively_mono (le_max_left fuel more) hfuel
  have hr := resolveRecursively_mono (le_max_right fuel more) hmore
  rw [hl] at hr
  exact (Option.some.inj hr).symm

/-! ## Enough fuel -/

/-- The names that a resolution may come to. -/
def askedNames (g : ModuleGraph) (name : ModuleExportName) : List ModuleExportName :=
  name :: g.records.flatMap fun record => record.exports.filterMap fun entry =>
    match entry with
    | .indirect _ _ (.name importName) => some importName
    | _ => none

/-- The pairs that a resolution may visit. -/
def askedPairs (g : ModuleGraph) (name : ModuleExportName) :
    Finset (ModuleId × ModuleExportName) :=
  ((List.range g.records.length).map ModuleId.mk).toFinset ×ˢ (askedNames g name).toFinset

def unvisited (g : ModuleGraph) (name : ModuleExportName)
    (visits : List (ModuleId × ModuleExportName)) : Finset (ModuleId × ModuleExportName) :=
  askedPairs g name \ visits.toFinset

variable {start : ModuleExportName}

theorem mem_askedPairs : (mdl, name) ∈ askedPairs g start ↔
      mdl.index < g.records.length ∧ name ∈ askedNames g start := by
  rw [askedPairs, Finset.mem_product, mem_toFinset, mem_toFinset, mem_map]
  refine and_congr_left fun _ => ⟨?_, fun hlt => ⟨mdl.index, mem_range.mpr hlt, rfl⟩⟩
  rintro ⟨idx, hi, heq⟩
  obtain rfl : ModuleId.mk idx = mdl := heq
  exact mem_range.mp hi

variable {later : List (ModuleId × ModuleExportName)}

theorem card_unvisited_lt {pair : ModuleId × ModuleExportName} (hpair : pair ∈ askedPairs g start)
    (hnew : pair ∉ visits) (hlat : visits ++ [pair] <+: later) :
    (unvisited g start later).card < (unvisited g start visits).card := by
  apply Finset.card_lt_card
  have hm : ∀ {visited}, visited ∈ visits ++ [pair] → visited ∈ later := fun h => hlat.subset h
  refine Finset.ssubset_iff_of_subset (fun visited h => ?_) |>.mpr ⟨pair, ?_, fun h => ?_⟩
  · rw [unvisited, Finset.mem_sdiff, mem_toFinset] at h ⊢
    exact ⟨h.1, fun hvis => h.2 (hm (mem_append_left _ hvis))⟩
  · exact Finset.mem_sdiff.mpr ⟨hpair, mem_toFinset.not.mpr hnew⟩
  · rw [unvisited, Finset.mem_sdiff, mem_toFinset] at h
    exact h.2 (hm (mem_append_right _ (mem_singleton_self pair)))

/-- The resolution is there, and only a module that is missing makes it fail. -/
def Settles (resolution : Option Resolution) : Prop :=
  ∃ found, resolution = some found ∧ ∀ error, found.result = .error error → error = .missingModule

theorem resolveStars_settles (hindexed : g.Indexed) (hgr : ∀ visits tgt resolution, resolve visits
    tgt = some resolution → visits <+: resolution.visits) (hresolve : ∀ later tgt, visits <+: later
    → tgt.index < g.records.length → Settles (resolve later tgt)) (hlat : visits <+: later) :
    Settles (resolveStars g resolve later candidate requests) := by
  induction requests generalizing later candidate with
  | nil => exact ⟨_, rfl, fun err herr => by cases herr⟩
  | cons req rest ih =>
    rw [resolveStars]
    cases ht : g.moduleBySpecifier req with
    | error err =>
      refine ⟨_, rfl, fun other ho => ?_⟩
      rw [moduleBySpecifier] at ht
      split at ht <;> cases ht
      cases ho
      rfl
    | ok tgt =>
      obtain ⟨child, hchild, herr⟩ := hresolve later tgt hlat (hindexed.lt_of_moduleBySpecifier ht)
      have hgoesOn : ∀ {next : Option ResolvedBinding},
          Settles ((resolveStars g resolve child.visits next rest).map fun resolution =>
            { resolution with depth := max child.depth resolution.depth }) := by
        intro next
        have hrest : Settles (resolveStars g resolve child.visits next rest) :=
          ih (hlat.trans (hgr _ _ _ hchild))
        obtain ⟨found, hf, hmis⟩ := hrest
        rw [hf]
        exact ⟨_, rfl, hmis⟩
      dsimp only
      rw [hchild, Option.bind_some]
      split
      next err hres =>
        exact ⟨_, rfl, fun other ho => herr other (hres.trans ho)⟩
      · exact ⟨_, rfl, fun err herr => by cases herr⟩
      · exact hgoesOn
      · split
        · exact ⟨_, rfl, fun err herr => by cases herr⟩
        · exact hgoesOn

theorem name_mem_askedNames {rec : ModuleRecord} {exportName : ModuleExportName}
    {moduleRequest : ModuleIdentity} (hrec : g.record mdl = .ok rec)
    (he : ExportEntry.indirect exportName moduleRequest (.name name) ∈ rec.exports) :
    name ∈ askedNames g start := by
  have hm : rec ∈ g.records := by
    rw [ModuleGraph.record] at hrec
    split at hrec <;> cases hrec
    rename_i hf
    exact mem_of_getElem? hf
  refine mem_cons_of_mem _ (mem_flatMap.mpr ⟨rec, hm, ?_⟩)
  exact mem_filterMap.mpr ⟨_, he, rfl⟩

/-- Each call that goes on has fewer pairs left, which is what the fuel counts. -/
theorem resolveRecursively_settles (hindexed : g.Indexed) (hpair : (mdl, name) ∈ askedPairs g start)
    (hfuel : (unvisited g start visits).card < fuel) :
    Settles (resolveRecursively g fuel visits mdl name) := by
  induction fuel generalizing visits mdl name with
  | zero => exact absurd hfuel (Nat.not_lt_zero _)
  | succ fuel ih =>
    obtain ⟨hmod, hname⟩ := mem_askedPairs.mp hpair
    rw [resolveRecursively]
    by_cases hvis : (mdl, name) ∈ visits
    · rw [if_pos hvis]
      exact ⟨_, rfl, fun err herr => by cases herr⟩
    · rw [if_neg hvis]
      have hl : ∀ later, visits ++ [(mdl, name)] <+: later →
          (unvisited g start later).card < fuel := by
        intro later hlat
        have hlt := card_unvisited_lt hpair hvis hlat
        omega
      have hrec : g.record mdl = .ok (g.records[mdl.index]) := by
        rw [ModuleGraph.record, getElem?_eq_getElem hmod]
      generalize g.records[mdl.index] = rec at hrec
      rw [hrec]
      dsimp only
      cases hexport : findExport rec.exports name with
      | some ent =>
        cases ent with
        | «local» exportName localName =>
          exact ⟨_, rfl, fun err herr => by cases herr⟩
        | star moduleRequest =>
          have hnamed := find?_some hexport
          exact absurd hnamed (by simp [ExportEntry.exportName])
        | indirect exportName moduleRequest importName =>
          dsimp only
          cases ht : g.moduleBySpecifier moduleRequest with
          | error err =>
            refine ⟨_, rfl, fun other ho => ?_⟩
            rw [moduleBySpecifier] at ht
            split at ht <;> cases ht
            cases ho
            rfl
          | ok tgt =>
            cases importName with
            | «namespace» => exact ⟨_, rfl, fun err herr => by cases herr⟩
            | name importName =>
              have hasked : importName ∈ askedNames g start :=
                name_mem_askedNames hrec (mem_of_find?_eq_some hexport)
              obtain ⟨child, hchild, herr⟩ := ih
                (mem_askedPairs.mpr ⟨hindexed.lt_of_moduleBySpecifier ht, hasked⟩)
                (hl _ prefix_rfl)
              dsimp only
              rw [hchild]
              exact ⟨_, rfl, herr⟩
      | none =>
        by_cases hdefault : name.isDefault
        · rw [if_pos hdefault]
          exact ⟨_, rfl, fun err herr => by cases herr⟩
        · rw [if_neg hdefault]
          have hsettles : Settles (resolveStars g
              (fun visits tgt => resolveRecursively g fuel visits tgt name)
              (visits ++ [(mdl, name)]) none (starRequests rec.exports)) :=
            resolveStars_settles hindexed (fun _ _ _ hchild => (resolveRecursively_grows hchild).1)
              (fun later tgt hlat ht =>
                ih (mem_askedPairs.mpr ⟨ht, hname⟩) (hl later hlat))
              prefix_rfl
          obtain ⟨stars, hstars, herr⟩ := hsettles
          rw [hstars]
          exact ⟨_, rfl, herr⟩

theorem exists_resolves (hindexed : g.Indexed) (hmod : mdl.index < g.records.length)
    (name : ModuleExportName) : ∃ resolution, Resolves g mdl name resolution ∧
      ∀ err, resolution.result = .error err → err = .missingModule := by
  have hpair : (mdl, name) ∈ askedPairs g name := mem_askedPairs.mpr ⟨hmod, mem_cons_self⟩
  obtain ⟨resolution, hresolution, herr⟩ :=
    resolveRecursively_settles hindexed hpair (Nat.lt_succ_self (unvisited g name []).card)
  exact ⟨resolution, ⟨_, hresolution⟩, herr⟩

/-! ## The result of the loop -/

theorem resolveExport_returns (hindexed : g.Indexed) (hmod : mdl.index < g.records.length)
    (name : ModuleExportName) : ∃ resolution, Resolves g mdl name resolution ∧
      (∀ other, Resolves g mdl name other → other = resolution) ∧
      (∀ err, resolution.result = .error err → err = .missingModule) ∧
      (resolveExportReturns g g.maxExportWork mdl name resolution.result ↔
        resolution.Fits g.maxExportWork 0) ∧ (¬ resolution.Fits g.maxExportWork 0 → ∃ coll,
        resolveExportReturns g g.maxExportWork mdl name (.error (.capacityOverflow coll))) := by
  obtain ⟨resolution, hrs, herr⟩ := exists_resolves hindexed hmod name
  have hwork : 0 < g.maxExportWork := lt_of_lt_of_le Nat.one_pos (le_max_right _ _)
  obtain ⟨fuel, hfuel⟩ := id hrs
  have hfol := follows_recursive hfuel [] hwork (Nat.zero_le g.maxExportWork)
  have hoverflows : ¬ resolution.Fits g.maxExportWork 0 → ∃ coll,
      resolveExportReturns g g.maxExportWork mdl name
        (.error (.capacityOverflow coll)) := by
    intro hfits
    obtain ⟨coll, hret⟩ := hfol.overflows hfits
    refine ⟨coll, ?_⟩
    rwa [resolveExportReturns, if_neg hwork.ne']
  refine ⟨resolution, hrs, fun other ho => hrs.unique ho, herr, ⟨?_, ?_⟩, hoverflows⟩
  · intro hret
    by_contra hfits
    obtain ⟨coll, hoverflow⟩ := hoverflows hfits
    rw [resolveExportReturns, if_neg hwork.ne'] at hret hoverflow
    have hmis := herr _ (hret.unique hoverflow)
    cases hmis
  · intro hfits
    rw [resolveExportReturns, if_neg hwork.ne']
    cases hres : resolution.result with
    | error err => exact hfol.fails err hres hfits
    | ok outcome =>
      obtain ⟨frame, hreaches⟩ := hfol.completes outcome hres hfits
      refine Returns.of_reaches hreaches (.done ?_)
      rfl

/-- `resolve_export` returns what the recursive definition comes to, where that one visits at most
as many pairs as the graph has records and edges, and nests at most as deep. Otherwise it fails for
want of room. -/
theorem resolve_export_recursive (hg : g.Admitted) {mdl : ModuleId}
    (hmod : mdl.index < g.records.length) (name : ModuleExportName) :
    ∃ resolution, Resolves g mdl name resolution ∧
      (∀ other, Resolves g mdl name other → other = resolution) ∧
      (∀ err, resolution.result = .error err → err = .missingModule) ∧
      (resolveExportReturns g g.maxExportWork mdl name resolution.result ↔
        resolution.Fits g.maxExportWork 0) ∧
      (¬ resolution.Fits g.maxExportWork 0 → ∃ coll,
        resolveExportReturns g g.maxExportWork mdl name (.error (.capacityOverflow coll))) :=
  resolveExport_returns hg.indexed hmod name

/-! ## The function -/

variable {nextExport : Nat}

theorem findStar_index {exports : List ExportEntry} {idx : Nat} {req : ModuleIdentity} (h : findStar
    exports nextExport = some (idx, req)) : nextExport ≤ idx ∧ idx < exports.length := by
  obtain ⟨⟨ent, pos⟩, hm, he⟩ := exists_of_findSome?_eq_some h
  obtain ⟨off, hoff, hget⟩ := mem_iff_getElem.mp hm
  rw [getElem_drop, getElem_zipIdx] at hget
  rw [length_drop, length_zipIdx] at hoff
  cases hget
  cases hstar : exports[nextExport + off] with
  | star moduleRequest =>
    rw [hstar] at he
    cases he
    omega
  | «local» exportName localName | indirect exportName moduleRequest importName =>
    rw [hstar] at he
    cases he

/-- The rounds that a frame has left, at most, and the one that takes it away. -/
def frameWeight (g : ModuleGraph) (frame : ResolveFrame) : Nat :=
  match frame.state with
  | .enter => 2
  | .awaitIndirect => 2
  | .stars nextExport _ =>
    match g.record frame.module with
    | .ok record => 2 + 3 * (record.exports.length - nextExport)
    | .error _ => 2

def exportRank (g : ModuleGraph) (maxWork : Nat) (run : ResolveRun) : Nat × Nat :=
  (maxWork - run.visits.length,
    (run.frames.map (frameWeight g)).sum + if run.completed.isNone then 1 else 0)

theorem two_le_frameWeight (frame : ResolveFrame) : 2 ≤ frameWeight g frame := by
  rw [frameWeight]
  split
  · exact le_rfl
  · exact le_rfl
  · split
    · exact Nat.le_add_right _ _
    · exact le_rfl

variable {maxWork : Nat} {run next : ResolveRun}

theorem deliver_rank {outcome : ResolveOutcome} (hcompleted : run.completed = some outcome)
    (h : deliver run outcome = .running next) :
    Prod.Lex (· < ·) (· < ·) (exportRank g maxWork next) (exportRank g maxWork run) := by
  rw [deliver] at h
  split at h
  · cases h
  · cases h
  next top parent below hfs =>
    have hpopped : ∀ {st : ResolveFrameState} {completed : Option ResolveOutcome},
        frameWeight g { parent with state := st } = frameWeight g parent →
        Prod.Lex (· < ·) (· < ·) (exportRank g maxWork
            { run with frames := { parent with state := st } :: below, completed := completed })
          (exportRank g maxWork run) := by
      intro st completed hweight
      refine Prod.Lex.right _ ?_
      rw [hfs, map_cons, map_cons, map_cons]
      have htop : 2 ≤ frameWeight g top := two_le_frameWeight top
      split <;> simp <;> omega
    split at h
    · cases h
      exact hpopped rfl
    next nextExport candidate hst =>
      split at h
      · split at h
        · cases h
          exact hpopped rfl
        · cases h
          refine hpopped ?_
          rw [frameWeight, frameWeight, hst]
      · cases h
        exact hpopped rfl
      · cases h
        exact hpopped rfl
    · cases h

theorem pushResolveFrame_eq {frames : List ResolveFrame}
    (h : pushResolveFrame maxWork run frames mdl name = .running next) :
    next = { run with frames := ⟨mdl, name, .enter⟩ :: frames, completed := none } := by
  rw [pushResolveFrame] at h
  split at h
  · cases h
  · cases h
    rfl

variable {frame : ResolveFrame} {below : List ResolveFrame}

theorem enterFrame_rank (hcompleted : run.completed = none) (h :
    enterFrame g maxWork run frame below = .running next) :
    Prod.Lex (· < ·) (· < ·) (exportRank g maxWork next) (exportRank g maxWork run) := by
  rw [enterFrame] at h
  split at h
  · cases h
    refine Prod.Lex.right _ ?_
    rw [hcompleted]
    exact Nat.lt_succ_self _
  · split at h
    · cases h
    · -- every other round visits a pair
      suffices hvisits : next.visits = run.visits ++ [(frame.module, frame.name)] by
        refine Prod.Lex.left _ _ ?_
        rw [hvisits, length_append, length_singleton]
        omega
      split at h
      · cases h
      · split at h
        · cases h
          rfl
        · split at h
          · cases h
          · split at h
            · cases h
              rfl
            · rw [pushResolveFrame_eq h]
        · cases h
        · split at h
          · cases h
            rfl
          · cases h
            rfl

theorem advanceStars_rank (hfs : run.frames = frame :: below) (hcompleted : run.completed = none)
    (hst : frame.state = .stars nextExport candidate) (h : advanceStars g maxWork run frame below
    nextExport candidate = .running next) :
    Prod.Lex (· < ·) (· < ·) (exportRank g maxWork next) (exportRank g maxWork run) := by
  simp only [advanceStars] at h
  split at h
  · cases h
  next rec hrec =>
    split at h
    · cases h
      refine Prod.Lex.right _ ?_
      rw [hcompleted]
      exact Nat.lt_succ_self _
    next idx req hfind =>
      split at h
      · cases h
      · obtain ⟨hle, hlt⟩ := findStar_index hfind
        rw [pushResolveFrame_eq h]
        refine Prod.Lex.right _ ?_
        simp only [hfs, hcompleted, map_cons, sum_cons, frameWeight, hst, hrec]
        omega

theorem resolveStep_rank (g : ModuleGraph) (maxWork : Nat) (run next : ResolveRun)
    (h : resolveStep g maxWork run = .running next) :
    Prod.Lex (· < ·) (· < ·) (exportRank g maxWork next) (exportRank g maxWork run) := by
  rw [resolveStep] at h
  split at h
  next outcome hcompleted =>
    exact deliver_rank hcompleted h
  next hcompleted =>
    split at h
    · cases h
    next frame below hfs =>
      split at h
      · exact enterFrame_rank hcompleted h
      · cases h
      next nextExport candidate hst =>
        exact advanceStars_rank hfs hcompleted hst h

/-- `resolve_export`, which always comes to a result. -/
def resolveExport (g : ModuleGraph) (maxWork : Nat) (mdl : ModuleId) (name : ModuleExportName) :
    Except ModuleError ResolveOutcome :=
  if maxWork = 0 then .error (.capacityOverflow "module export frames")
  else
    complete (resolveStep g maxWork) (exportRank g maxWork) (resolveStep_rank g maxWork)
      { frames := [⟨mdl, name, .enter⟩], visits := [], completed := none }

theorem resolveExportReturns_iff {res : Except ModuleError ResolveOutcome} :
    resolveExportReturns g maxWork mdl name res ↔ resolveExport g maxWork mdl name = res := by
  rw [resolveExportReturns, resolveExport]
  split
  · exact eq_comm
  · have hret : Returns (resolveStep g maxWork)
        { frames := [⟨mdl, name, .enter⟩], visits := [], completed := none }
        (complete (resolveStep g maxWork) (exportRank g maxWork) (resolveStep_rank g maxWork)
          { frames := [⟨mdl, name, .enter⟩], visits := [], completed := none }) :=
      returns_complete _ _
    refine ⟨fun h => hret.unique h, ?_⟩
    rintro rfl
    exact hret

/-! ## Two graphs -/

/-- The graph after several insertions, of which the refused ones do nothing. -/
def insertEach (g : ModuleGraph) (inits : List ModuleRecordInit) : ModuleGraph :=
  inits.foldl (fun g init =>
    match g.insertWithBody init with
    | .ok (_, after) => after
    | .error _ => g) g

/-- What every insertion keeps holds after several of them. -/
theorem insertEach_induction {P : ModuleGraph → Prop} {inits : List ModuleRecordInit}
    (hstep : ∀ init ∈ inits, ∀ {pre post : ModuleGraph} {id}, P pre →
      pre.insertWithBody init = .ok (id, post) → P post) (hg : P g) : P (g.insertEach inits) := by
  induction inits generalizing g with
  | nil => exact hg
  | cons init rest ih =>
    rw [ModuleGraph.insertEach, foldl_cons]
    apply ih fun other ho => hstep other (mem_cons_of_mem _ ho)
    cases hinsert : g.insertWithBody init with
    | error err => exact hg
    | ok inserted => exact hstep init mem_cons_self hg hinsert

theorem Admitted.insertEach (hg : g.Admitted) (inits : List ModuleRecordInit) :
    (g.insertEach inits).Admitted :=
  insertEach_induction (fun _ _ _ _ _ hpre hinsert => hpre.insert hinsert) hg

/-- A module that exports what its own requests give. -/
def reexporting (specifier : UInt8) (requests : List UInt8)
    (exports : List ExportEntry) : ModuleRecordInit :=
  { specifier := ⟨[specifier]⟩
    requestedModules := requests.map fun request => ⟨[request]⟩
    imports := []
    exports := exports
    localBindings := []
    hasTopLevelAwait := false }

def generousLimits : ModuleLimits := ⟨1024, 1024, 1024⟩

/-- The first module stars seven others. Each of these renames the export that is asked for to a
name of its own, and all send it through the same chain of seven star exports. -/
def renamingGraph : ModuleGraph := (new generousLimits).insertEach <|
    [reexporting 0 [1, 2, 3, 4, 5, 6, 7] ([1, 2, 3, 4, 5, 6, 7].map fun request => .star
      ⟨[request]⟩)] ++
    ([1, 2, 3, 4, 5, 6, 7].map fun index =>
      reexporting index [8] [.indirect ⟨[0]⟩ ⟨[8]⟩ (.name ⟨[index.toUInt16]⟩)]) ++
    ([8, 9, 10, 11, 12, 13].map fun index =>
      reexporting index [index + 1] [.star ⟨[index + 1]⟩]) ++
    [reexporting 14 [] []]

/-- The first module stars a second one, which renames an export of the third one. -/
def exportingGraph : ModuleGraph := (new generousLimits).insertEach
    [reexporting 0 [1] [.star ⟨[1]⟩],
      reexporting 1 [2] [.indirect ⟨[0]⟩ ⟨[2]⟩ (.name ⟨[1]⟩)],
      { reexporting 2 [] [.local ⟨[1]⟩ ⟨"x"⟩] with localBindings := [⟨"x"⟩] }]

theorem resolve_export_recursive_local :
    resolveExportReturns exportingGraph exportingGraph.maxExportWork ⟨0⟩ ⟨[0]⟩
      (.ok (.found ⟨⟨2⟩, .local ⟨"x"⟩⟩)) := by
  have hg : exportingGraph.Admitted := (Admitted.new generousLimits).insertEach _
  have hmod : (⟨0⟩ : ModuleId).index < exportingGraph.records.length := by decide
  obtain ⟨resolution, -, hunique, -, hret, -⟩ :=
    resolve_export_recursive hg hmod ⟨[0]⟩
  have hlocal : Resolves exportingGraph ⟨0⟩ ⟨[0]⟩
      ⟨.ok (.found ⟨⟨2⟩, .local ⟨"x"⟩⟩), [(⟨0⟩, ⟨[0]⟩), (⟨1⟩, ⟨[0]⟩), (⟨2⟩, ⟨[1]⟩)], 3⟩ :=
    ⟨3, by decide +kernel⟩
  rw [← hunique _ hlocal] at hret
  exact hret.mpr ⟨by decide +kernel, by decide +kernel⟩

/-- The recursive definition finds that the name is not there, and the loop runs out of room. -/
theorem resolve_export_overflows :
    ¬ ∀ g : ModuleGraph, g.Admitted → ∀ mdl : ModuleId,
      mdl.index < g.records.length → ∀ name resolution, Resolves g mdl name resolution →
        resolveExportReturns g g.maxExportWork mdl name resolution.result := by
  intro h
  have hg : renamingGraph.Admitted := (Admitted.new generousLimits).insertEach _
  have hf : (resolveRecursively renamingGraph 12 [] ⟨0⟩ ⟨[0]⟩).map Resolution.result =
      some (.ok .notFound) := by decide +kernel
  obtain ⟨resolution, hresolution, hres⟩ := Option.map_eq_some_iff.mp hf
  have hret := h renamingGraph hg ⟨0⟩ (by decide +kernel) ⟨[0]⟩ resolution ⟨12, hresolution⟩
  rw [resolveExportReturns, if_neg (by decide +kernel), hres] at hret
  have hrun : run (resolveStep renamingGraph renamingGraph.maxExportWork) 400
      { frames := [⟨⟨0⟩, ⟨[0]⟩, .enter⟩], visits := [], completed := none } =
      some (.error (.capacityOverflow "module export visits")) := by decide +kernel
  have hequal := hret.unique (returns_of_run hrun)
  cases hequal

end ModuleGraph

end TachyonEngine.Vm
