import TachyonEngine.Vm.ResolveExport

/-!
# The loop that resolves an export

The loop follows the recursive definition round by round, as long as the visited pairs and the open
frames stay within the bound, and fails with an overflow of one of the two otherwise. The bound
counts the records and the edges of the graph, while the pairs may be as many as their product:
renamed exports send several names through the same star exports.
-/

namespace TachyonEngine.Vm

open Lib.Loop List Option

/-! ## Star exports -/

theorem findStar_next {exports : List ExportEntry} {nextExport : Nat}
    (hlt : nextExport < exports.length) : findStar exports nextExport =
      match exports[nextExport] with
      | .star moduleRequest => some (nextExport, moduleRequest)
      | _ => findStar exports (nextExport + 1) := by
  have hzip : nextExport < exports.zipIdx.length := by rwa [length_zipIdx]
  rw [findStar, drop_eq_getElem_cons hzip, getElem_zipIdx, zero_add]
  cases exports[nextExport] with
  | «local» exportName localName => rfl
  | indirect exportName moduleRequest importName => rfl
  | star moduleRequest => rfl

/-- The star exports from an index on are the next one and those behind it. -/
theorem findStar_eq (exports : List ExportEntry) (nextExport : Nat) :
    (findStar exports nextExport = none ∧ starRequests (exports.drop nextExport) = []) ∨
      ∃ idx req, findStar exports nextExport = some (idx, req) ∧
        starRequests (exports.drop nextExport) = req :: starRequests (exports.drop (idx + 1)) := by
  induction hc : exports.length - nextExport generalizing nextExport with
  | zero =>
    left
    have hle : exports.length ≤ nextExport := by omega
    rw [findStar, drop_eq_nil_of_le (by rwa [length_zipIdx]), drop_eq_nil_of_le hle]
    exact ⟨rfl, rfl⟩
  | succ cnt ih =>
    have hlt : nextExport < exports.length := by omega
    have hrest := ih (nextExport + 1) (by omega)
    rw [findStar_next hlt, drop_eq_getElem_cons hlt]
    cases exports[nextExport] with
    | «local» exportName localName | indirect exportName moduleRequest importName => exact hrest
    | star moduleRequest => exact .inr ⟨nextExport, moduleRequest, rfl, rfl⟩

namespace ModuleGraph

variable {g : ModuleGraph} {maxWork : Nat}

/-! ## The recursive definition -/

variable {resolve : List (ModuleId × ModuleExportName) → ModuleId → Option Resolution}
  {visits : List (ModuleId × ModuleExportName)} {candidate : Option ResolvedBinding}

variable {requests : List ModuleIdentity} {resolution : Resolution}

/-- A resolution only adds pairs, and opens a call. -/
theorem resolveStars_grows (hres : ∀ visits tgt resolution, resolve visits tgt = some resolution →
    visits <+: resolution.visits ∧ 0 < resolution.depth) (h : resolveStars g resolve visits
    candidate requests = some resolution) : visits <+: resolution.visits := by
  induction requests generalizing visits candidate resolution with
  | nil =>
    cases h
    exact prefix_rfl
  | cons req rest ih =>
    rw [resolveStars] at h
    split at h
    · cases h
      exact prefix_rfl
    · obtain ⟨child, hchild, h⟩ := bind_eq_some_iff.mp h
      have hgrown := (hres _ _ _ hchild).1
      split at h
      · cases h
        exact hgrown
      · cases h
        exact hgrown
      · obtain ⟨later, hlat, rfl⟩ := map_eq_some_iff.mp h
        have hrest := ih hlat
        exact hgrown.trans hrest
      · split at h
        · cases h
          exact hgrown
        · obtain ⟨later, hlat, rfl⟩ := map_eq_some_iff.mp h
          have hrest := ih hlat
          exact hgrown.trans hrest

variable {child : Resolution}

/-- The first star export nests no deeper than all of them. -/
theorem depth_le_of_resolveStars {req : ModuleIdentity} {rest : List ModuleIdentity} {tgt :
    ModuleId} (ht : g.moduleBySpecifier req = .ok tgt) (hchild : resolve visits tgt = some child) (h
    : resolveStars g resolve visits candidate (req :: rest) = some resolution) :
    child.depth ≤ resolution.depth := by
  rw [resolveStars, ht] at h
  simp only [hchild, bind_some] at h
  split at h
  · cases h
    exact le_rfl
  · cases h
    exact le_rfl
  · obtain ⟨later, -, rfl⟩ := map_eq_some_iff.mp h
    exact le_max_left _ _
  · split at h
    · cases h
      exact le_rfl
    · obtain ⟨later, -, rfl⟩ := map_eq_some_iff.mp h
      exact le_max_left _ _

variable {fuel : Nat} {mdl : ModuleId} {name : ModuleExportName}

/-- A resolution starts with the pair that it resolves, unless that one was visited before. -/
theorem resolveRecursively_starts (h : resolveRecursively g fuel visits mdl name = some resolution)
    :
    ((mdl, name) ∈ visits ∧ resolution = ⟨.ok .notFound, visits, 1⟩) ∨
      ((mdl, name) ∉ visits ∧ visits ++ [(mdl, name)] <+: resolution.visits ∧
        0 < resolution.depth) := by
  induction fuel generalizing visits mdl name resolution with
  | zero => cases h
  | succ fuel ih =>
    have hgr : ∀ {visits : List (ModuleId × ModuleExportName)} {mdl name resolution},
        resolveRecursively g fuel visits mdl name = some resolution →
          visits <+: resolution.visits ∧ 0 < resolution.depth := by
      intro visits mdl name resolution hchild
      rcases ih hchild with ⟨-, rfl⟩ | ⟨-, hpre, hdepth⟩
      · exact ⟨prefix_rfl, one_pos⟩
      · exact ⟨(prefix_append _ _).trans hpre, hdepth⟩
    rw [resolveRecursively] at h
    split at h
    next hvis =>
      cases h
      exact .inl ⟨hvis, rfl⟩
    next hnew =>
      refine .inr ⟨hnew, ?_⟩
      split at h
      · cases h
        exact ⟨prefix_rfl, one_pos⟩
      · split at h
        · cases h
          exact ⟨prefix_rfl, one_pos⟩
        · split at h
          · cases h
            exact ⟨prefix_rfl, one_pos⟩
          · split at h
            · cases h
              exact ⟨prefix_rfl, one_pos⟩
            · obtain ⟨child, hchild, rfl⟩ := map_eq_some_iff.mp h
              exact ⟨(hgr hchild).1, Nat.succ_pos _⟩
        · cases h
        · split at h
          · cases h
            exact ⟨prefix_rfl, one_pos⟩
          · obtain ⟨stars, hstars, rfl⟩ := map_eq_some_iff.mp h
            have hgrown := resolveStars_grows (fun _ _ _ hchild => hgr hchild) hstars
            exact ⟨hgrown, Nat.succ_pos _⟩

theorem resolveRecursively_grows (h : resolveRecursively g fuel visits mdl name = some resolution) :
    visits <+: resolution.visits ∧ 0 < resolution.depth := by
  rcases resolveRecursively_starts h with ⟨-, rfl⟩ | ⟨-, hpre, hdepth⟩
  · exact ⟨prefix_rfl, one_pos⟩
  · exact ⟨(prefix_append _ _).trans hpre, hdepth⟩

/-! ## Following the recursive definition -/

/-- The resolution stays within the bound, above so many open frames. -/
def Resolution.Fits (maxWork below : Nat) (resolution : Resolution) : Prop :=
  resolution.visits.length ≤ maxWork ∧ below + resolution.depth ≤ maxWork

/-- From a state on, the loop comes to a resolution: the frame on top completes with its outcome,
the loop fails with its error, or the bound does not suffice. -/
structure Follows (g : ModuleGraph) (maxWork : Nat) (below : List ResolveFrame) (run : ResolveRun)
    (resolution : Resolution) : Prop where
  completes : ∀ outcome, resolution.result = .ok outcome → resolution.Fits maxWork below.length →
    ∃ frame, Reaches (resolveStep g maxWork) run ⟨frame :: below, resolution.visits, some outcome⟩
  fails : ∀ error, resolution.result = .error error → resolution.Fits maxWork below.length →
    Returns (resolveStep g maxWork) run (.error error)
  overflows : ¬ resolution.Fits maxWork below.length →
    ∃ collection, Returns (resolveStep g maxWork) run (.error (.capacityOverflow collection))

section Follow

variable {below : List ResolveFrame} {run next : ResolveRun} {resolution : Resolution}

theorem Follows.of_reaches (hreaches : Reaches (resolveStep g maxWork) run next)
    (h : Follows g maxWork below next resolution) : Follows g maxWork below run resolution where
  completes := by
    intro outcome hres hfits
    obtain ⟨frame, hrest⟩ := h.completes outcome hres hfits
    exact ⟨frame, hreaches.trans hrest⟩
  fails := fun err hres hfits => (h.fails err hres hfits).of_reaches hreaches
  overflows := by
    intro hfits
    obtain ⟨coll, hrest⟩ := h.overflows hfits
    exact ⟨coll, hrest.of_reaches hreaches⟩

theorem Follows.congr {other : Resolution} (h : Follows g maxWork below run resolution)
    (hres : other.result = resolution.result) (hvisits : other.visits = resolution.visits)
    (hfits : other.Fits maxWork below.length ↔ resolution.Fits maxWork below.length) :
    Follows g maxWork below run other where
  completes := by
    intro outcome hout ho
    rw [hvisits]
    exact h.completes outcome (hres ▸ hout) (hfits.mp ho)
  fails := fun err herr ho => h.fails err (hres ▸ herr) (hfits.mp ho)
  overflows := fun ho => h.overflows fun hfit => ho (hfits.mpr hfit)

variable {outcome : ResolveOutcome}

/-- A frame that is complete already. -/
theorem Follows.completed (frame : ResolveFrame) (hres : resolution.result = .ok outcome)
    (hfits : resolution.Fits maxWork below.length) :
    Follows g maxWork below ⟨frame :: below, resolution.visits, some outcome⟩ resolution where
  completes := by
    intro other ho _
    rw [hres] at ho
    cases ho
    exact ⟨frame, .refl⟩
  fails := by
    intro err herr _
    rw [hres] at herr
    cases herr
  overflows := fun h => absurd hfits h

variable {err : ModuleError}

/-- A round that fails. -/
theorem Follows.failed (hres : resolution.result = .error err) (hfits : resolution.Fits maxWork
    below.length) (hstep : resolveStep g maxWork run = .finished (.error err)) :
    Follows g maxWork below run resolution where
  completes := by
    intro outcome hout _
    rw [hres] at hout
    cases hout
  fails := by
    intro other ho _
    rw [hres] at ho
    cases ho
    exact .done hstep
  overflows := fun h => absurd hfits h

/-- A round that finds no room. -/
theorem Follows.overflowed (coll : String) (hfits : ¬ resolution.Fits maxWork below.length)
    (hstep : resolveStep g maxWork run = .finished (.error (.capacityOverflow coll))) :
    Follows g maxWork below run resolution where
  completes := fun _ _ h => absurd h hfits
  fails := fun _ _ h => absurd h hfits
  overflows := fun _ => ⟨coll, .done hstep⟩

/-- A round that completes the frame on top. -/
theorem Follows.completesNow (frame : ResolveFrame) {visits : List (ModuleId × ModuleExportName)}
    {depth : Nat}
    (hstep : resolveStep g maxWork run = .running ⟨frame :: below, visits, some outcome⟩)
    (hfits : Resolution.Fits maxWork below.length ⟨.ok outcome, visits, depth⟩) :
    Follows g maxWork below run ⟨.ok outcome, visits, depth⟩ :=
  Follows.of_reaches (.single hstep) (Follows.completed frame rfl hfits)

variable {parent : ResolveFrame}

/-- A round that pushes a child, where there is room for it. -/
theorem Follows.pushed {mdl : ModuleId} {name : ModuleExportName}
    (hstep : resolveStep g maxWork run = pushResolveFrame maxWork next (parent :: below) mdl name)
    (hroom : (parent :: below).length < maxWork → Follows g maxWork below
      ⟨⟨mdl, name, .enter⟩ :: parent :: below, next.visits, none⟩ resolution)
    (hfits : resolution.Fits maxWork below.length → (parent :: below).length < maxWork) :
    Follows g maxWork below run resolution := by
  by_cases h : (parent :: below).length < maxWork
  · refine Follows.of_reaches (.single ?_) (hroom h)
    rw [hstep]
    exact if_neg (not_le.mpr h)
  · refine Follows.overflowed "module export frames" (fun hfit => h (hfits hfit)) (hstep.trans ?_)
    exact if_pos (not_lt.mp h)

variable {child later : Resolution}

/-- A child completes, and the frame below it goes on. -/
theorem Follows.andThen (hchild : Follows g maxWork (parent :: below) run child) (hres :
    child.result = .ok outcome) (hstep : ∀ frame, resolveStep g maxWork ⟨frame :: parent :: below,
    child.visits, some outcome⟩ = .running next) (hlat : child.Fits maxWork (parent :: below).length
    → Follows g maxWork below next later) (hfits : later.Fits maxWork below.length → child.Fits
    maxWork (parent :: below).length) : Follows g maxWork below run later := by
  by_cases h : child.Fits maxWork (parent :: below).length
  · obtain ⟨frame, hreaches⟩ := hchild.completes outcome hres h
    exact (hlat h).of_reaches (hreaches.tail (hstep frame))
  · have hnot : ¬ later.Fits maxWork below.length := fun hlaterFits => h (hfits hlaterFits)
    exact
      { completes := fun _ _ hlaterFits => absurd hlaterFits hnot
        fails := fun _ _ hlaterFits => absurd hlaterFits hnot
        overflows := fun _ => hchild.overflows h }

/-- A child fails, and the loop with it. -/
theorem Follows.failAfter (hchild : Follows g maxWork (parent :: below) run child) (hres :
    child.result = .error err) (hlat : later.result = .error err) (hfits : later.Fits maxWork
    below.length ↔ child.Fits maxWork (parent :: below).length) :
    Follows g maxWork below run later where
  completes := by
    intro outcome hout _
    rw [hlat] at hout
    cases hout
  fails := by
    intro other ho h
    rw [hlat] at ho
    cases ho
    exact hchild.fails err hres (hfits.mp h)
  overflows := fun h => hchild.overflows fun hchildFits => h (hfits.mpr hchildFits)

end Follow

variable {below : List ResolveFrame}

theorem fits_succ {parent : ResolveFrame} {res : Except ModuleError ResolveOutcome} :
    Resolution.Fits maxWork below.length ⟨res, child.visits, child.depth + 1⟩ ↔
      child.Fits maxWork (parent :: below).length := by
  simp only [Resolution.Fits, length_cons]
  omega

/-- The star exports of a frame. -/
theorem follows_stars {rec : ModuleRecord} (hrec : g.record mdl = .ok rec) (hbl : below.length <
    maxWork) (hresolve : ∀ visits tgt resolution, resolve visits tgt = some resolution → (visits <+:
    resolution.visits ∧ 0 < resolution.depth) ∧ ∀ frames : List ResolveFrame, frames.length <
    maxWork → visits.length ≤ maxWork → Follows g maxWork frames ⟨⟨tgt, name, .enter⟩ :: frames,
    visits, none⟩ resolution) {nextExport : Nat} (hrequests : starRequests (rec.exports.drop
    nextExport) = requests) (h : resolveStars g resolve visits candidate requests = some resolution)
    (hvisits : visits.length ≤ maxWork) : Follows g maxWork below
      ⟨⟨mdl, name, .stars nextExport candidate⟩ :: below, visits, none⟩
      ⟨resolution.result, resolution.visits, resolution.depth + 1⟩ := by
  induction requests generalizing visits candidate nextExport resolution with
  | nil =>
    cases h
    rcases findStar_eq rec.exports nextExport with ⟨hn, -⟩ | ⟨idx, req, -, hmore⟩
    · refine Follows.of_reaches (.single ?_)
        (Follows.completed ⟨mdl, name, .stars nextExport candidate⟩ rfl ⟨hvisits, hbl⟩)
      simp only [resolveStep, advanceStars, hrec, hn]
    · rw [hrequests] at hmore
      cases hmore
  | cons req rest ih =>
    rcases findStar_eq rec.exports nextExport with ⟨-, hempty⟩ | ⟨idx, found, hfind, hmore⟩
    · rw [hrequests] at hempty
      cases hempty
    · rw [hrequests] at hmore
      obtain ⟨rfl, hrest⟩ := cons.inj hmore
      have hstars := h
      rw [resolveStars] at h
      cases ht : g.moduleBySpecifier req with
      | error err =>
        rw [ht] at h
        cases h
        refine Follows.failed rfl ⟨hvisits, by dsimp only; omega⟩ ?_
        simp only [resolveStep, advanceStars, hrec, hfind, ht, ResolveRun.fail]
      | ok tgt =>
        rw [ht] at h
        obtain ⟨child, hchild, h⟩ := bind_eq_some_iff.mp h
        obtain ⟨⟨hgrown, hdepth⟩, hfol⟩ := hresolve _ _ _ hchild
        have hnested := depth_le_of_resolveStars ht hchild hstars
        have hpushed : resolveStep g maxWork
            ⟨⟨mdl, name, .stars nextExport candidate⟩ :: below, visits, none⟩ =
            pushResolveFrame maxWork
              ⟨⟨mdl, name, .stars nextExport candidate⟩ :: below, visits, none⟩
              (⟨mdl, name, .stars (idx + 1) candidate⟩ :: below) tgt name := by
          simp only [resolveStep, advanceStars, hrec, hfind, ht]
        refine Follows.pushed hpushed (fun hroom => ?_) (fun hfits => ?_)
        · have hchildFollows := hfol
            (⟨mdl, name, .stars (idx + 1) candidate⟩ :: below) hroom hvisits
          have hgoesOn : ∀ {next : Option ResolvedBinding} {later : Resolution},
              resolveStars g resolve child.visits next rest = some later →
              (∀ frame, resolveStep g maxWork
                ⟨frame :: ⟨mdl, name, .stars (idx + 1) candidate⟩ :: below, child.visits,
                  child.result.toOption⟩ =
                .running ⟨⟨mdl, name, .stars (idx + 1) next⟩ :: below, child.visits, none⟩) →
              (∃ outcome, child.result = .ok outcome) →
              Follows g maxWork below ⟨⟨tgt, name, .enter⟩ ::
                  ⟨mdl, name, .stars (idx + 1) candidate⟩ :: below, visits, none⟩
                ⟨later.result, later.visits, max child.depth later.depth + 1⟩ := by
            rintro next later hlat hround ⟨outcome, hout⟩
            have hlonger : child.visits.length ≤ later.visits.length :=
              (resolveStars_grows (fun visits tgt resolution h =>
                (hresolve visits tgt resolution h).1) hlat).length_le
            rw [hout] at hround
            refine hchildFollows.andThen hout hround (fun hchildFits => ?_) ?_
            · refine (ih hrest.symm hlat hchildFits.1).congr rfl rfl ?_
              have hbound := hchildFits.2
              rw [length_cons] at hbound
              simp only [Resolution.Fits]
              omega
            · simp only [Resolution.Fits, length_cons]
              omega
          split at h
          next err hres =>
            cases h
            exact hchildFollows.failAfter hres rfl fits_succ
          next hres =>
            cases h
            exact hchildFollows.andThen hres (fun frame => rfl)
              (fun hfits => Follows.completed _ rfl (fits_succ.mpr hfits)) fits_succ.mp
          next hres =>
            obtain ⟨later, hlat, rfl⟩ := map_eq_some_iff.mp h
            exact hgoesOn hlat (fun frame => by rw [hres]; rfl) ⟨_, hres⟩
          next found hres =>
            split_ifs at h with hdiff
            · cases h
              have hround : ∀ frame, resolveStep g maxWork
                  ⟨frame :: ⟨mdl, name, .stars (idx + 1) candidate⟩ :: below, child.visits,
                    some (.found found)⟩ =
                  .running ⟨⟨mdl, name, .stars (idx + 1) candidate⟩ :: below, child.visits,
                    some .ambiguous⟩ := fun frame => if_pos hdiff
              exact hchildFollows.andThen hres hround
                (fun hfits => Follows.completed _ rfl (fits_succ.mpr hfits)) fits_succ.mp
            · obtain ⟨later, hlat, rfl⟩ := map_eq_some_iff.mp h
              refine hgoesOn hlat (fun frame => ?_) ⟨_, hres⟩
              rw [hres]
              exact if_neg hdiff
        · have hbound := hfits.2
          rw [length_cons]
          dsimp only at hbound
          omega

/-- A frame that enters a pair. -/
theorem follows_recursive (h : resolveRecursively g fuel visits mdl name = some resolution) (below :
    List ResolveFrame) (hbl : below.length < maxWork) (hvisits : visits.length ≤ maxWork) :
    Follows g maxWork below ⟨⟨mdl, name, .enter⟩ :: below, visits, none⟩ resolution := by
  induction fuel generalizing visits mdl name resolution below with
  | zero => cases h
  | succ fuel ih =>
    have hstarts := resolveRecursively_starts h
    rw [resolveRecursively] at h
    by_cases hvis : (mdl, name) ∈ visits
    · rw [if_pos hvis] at h
      cases h
      refine Follows.completesNow ⟨mdl, name, .enter⟩ ?_ ⟨hvisits, hbl⟩
      simp only [resolveStep, enterFrame, if_pos hvis]
    · rw [if_neg hvis] at h
      have hst : visits ++ [(mdl, name)] <+: resolution.visits := by
        rcases hstarts with ⟨hm, -⟩ | ⟨-, hpre, -⟩
        · exact absurd hm hvis
        · exact hpre
      have hlonger := hst.length_le
      rw [length_append, length_singleton] at hlonger
      by_cases hfull : maxWork ≤ visits.length
      · refine Follows.overflowed "module export visits" (fun hfits => ?_) ?_
        · have := hfits.1
          omega
        · simp only [resolveStep, enterFrame, if_neg hvis, if_pos hfull, ResolveRun.fail]
      · have hpushed : (visits ++ [(mdl, name)]).length ≤ maxWork := by
          rw [length_append, length_singleton]
          omega
        have henter : ∀ {progress : ResolveStep},
            enterFrame g maxWork ⟨⟨mdl, name, .enter⟩ :: below, visits, none⟩
              ⟨mdl, name, .enter⟩ below = progress →
            resolveStep g maxWork ⟨⟨mdl, name, .enter⟩ :: below, visits, none⟩ = progress :=
          fun hprogress => hprogress
        simp only [enterFrame, if_neg hvis, if_neg hfull] at henter
        cases hrec : g.record mdl with
        | error err =>
          rw [hrec] at h henter
          cases h
          exact Follows.failed rfl ⟨hpushed, hbl⟩ (henter rfl)
        | ok rec =>
          rw [hrec] at h henter
          dsimp only at h henter
          cases hexport : findExport rec.exports name with
          | some ent =>
            rw [hexport] at h henter
            cases ent with
            | «local» exportName localName =>
              cases h
              exact Follows.completesNow _ (henter rfl) ⟨hpushed, hbl⟩
            | star moduleRequest => cases h
            | indirect exportName moduleRequest importName =>
              dsimp only at h henter
              cases ht : g.moduleBySpecifier moduleRequest with
              | error err =>
                rw [ht] at h henter
                cases h
                exact Follows.failed rfl ⟨hpushed, hbl⟩ (henter rfl)
              | ok tgt =>
                rw [ht] at h henter
                cases importName with
                | «namespace» =>
                  cases h
                  exact Follows.completesNow _ (henter rfl) ⟨hpushed, hbl⟩
                | name importName =>
                  obtain ⟨child, hchild, rfl⟩ := map_eq_some_iff.mp h
                  refine Follows.pushed (henter rfl) (fun hroom => ?_) (fun hfits => ?_)
                  · have hfol := ih hchild _ hroom hpushed
                    cases hres : child.result with
                    | error err => exact hfol.failAfter hres rfl fits_succ
                    | ok outcome =>
                      exact hfol.andThen hres (fun frame => rfl)
                        (fun hfits => Follows.completed _ rfl (fits_succ.mpr hfits))
                        fits_succ.mp
                  · have hdepth := (resolveRecursively_grows hchild).2
                    have hbound := hfits.2
                    rw [length_cons]
                    dsimp only at hbound
                    omega
          | none =>
            rw [hexport] at h henter
            by_cases hdefault : name.isDefault
            · rw [if_pos hdefault] at h henter
              cases h
              exact Follows.completesNow _ (henter rfl) ⟨hpushed, hbl⟩
            · rw [if_neg hdefault] at h henter
              obtain ⟨stars, hstars, rfl⟩ := map_eq_some_iff.mp h
              refine Follows.of_reaches (.single (henter rfl)) ?_
              refine follows_stars hrec hbl ?_ (drop_zero ▸ rfl) hstars hpushed
              intro visits tgt resolution hchild
              exact ⟨resolveRecursively_grows hchild, fun frames hroom hvisits =>
                ih hchild frames hroom hvisits⟩

end ModuleGraph

end TachyonEngine.Vm
