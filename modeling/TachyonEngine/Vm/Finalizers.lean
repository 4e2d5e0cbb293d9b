import TachyonEngine.Lib.Interval
import TachyonEngine.Vm.Abrupt

/-!
# Active finalizers and their saved completions

The finalizers that a frame has entered and not left, with the completions they have saved, as one
list from the outermost to the innermost. `InLockstep` says that they are exactly the finalizers
whose body contains the program counter, each inside the one before it. A transfer drops the
finalizers that fail a test of the code and may enter another one; `Dispatching.enter` and
`Dispatching.land` keep the invariant when the handler table is nested as block-structured code
nests it and a break is not caught inside a finalizer that its target leaves.
-/

namespace TachyonEngine.Bytecode.HandlerEntry

open Lib Vm

/-- The body of a finalizer. -/
def body (handler : HandlerEntry) : Interval :=
  ⟨handler.handler.index.toNat, handler.handlerEnd.index.toNat⟩

/-- The protected range. -/
def range (handler : HandlerEntry) : Interval :=
  ⟨handler.protectedStart.index.toNat, handler.protectedEnd.index.toNat⟩

variable {handler : HandlerEntry} {off : WordOffset}

theorem bodyContains_iff :
    handler.bodyContains off = true ↔ handler.body.Contains off.index.toNat := by
  simp only [bodyContains, Bool.and_eq_true, decide_eq_true_eq, UInt32.le_iff_toNat_le,
    UInt32.lt_iff_toNat_lt, Interval.Contains, body]

theorem covers_iff : handler.covers off = true ↔ handler.range.Contains off.index.toNat := by
  simp only [covers, Bool.and_eq_true, decide_eq_true_eq, UInt32.le_iff_toNat_le,
    UInt32.lt_iff_toNat_lt, Interval.Contains, range]

end TachyonEngine.Bytecode.HandlerEntry

namespace TachyonEngine.Vm

open Bytecode Lib

/-! ## Handler tables -/

/-- What validation checks of every entry. -/
structure HandlersValid (handlers : List HandlerEntry) : Prop where
  range : ∀ ent ∈ handlers, ent.range.lo < ent.range.hi
  outside : ∀ ent ∈ handlers, ¬ent.range.Contains ent.body.lo
  body : ∀ ent ∈ handlers, ent.kind.isFinalizer = true → ent.body.lo < ent.body.hi

/-- The table of block-structured code: a range and the body of a finalizer do not cross, a handler
stands in the bodies that its range stands in, and a range inside a body leaves out the last
instruction of the body, and the first one where the body closes an iterator. -/
structure WellNested (handlers : List HandlerEntry) : Prop where
  ranges : ∀ ent ∈ handlers, ∀ around ∈ handlers, around.kind.isFinalizer = true →
    ent.range.Within around.body ∨ around.body.Within ent.range ∨ ent.range.Disjoint around.body
  inward : ∀ ent ∈ handlers, ∀ around ∈ handlers, around.kind.isFinalizer = true →
    ent.range.Within around.body → around.body.Contains ent.body.lo ∧
      (ent.kind.isFinalizer = true → ent.body.Inside around.body)
  outward : ∀ ent ∈ handlers, ∀ around ∈ handlers, around.kind.isFinalizer = true →
    around.body.Contains ent.body.lo →
      ent.range.Within around.body ∨ (ent.kind.isFinalizer = true ∧ ent.body = around.body)
  ends : ∀ ent ∈ handlers, ∀ around ∈ handlers, around.kind.isFinalizer = true →
    ent.kind.isFinalizer = true → ent.body.Inside around.body → ent.body.hi < around.body.hi
  last : ∀ ent ∈ handlers, ∀ around ∈ handlers, around.kind.isFinalizer = true →
    ent.range.Within around.body → ent.range.hi < around.body.hi
  first : ∀ ent ∈ handlers, ∀ around ∈ handlers, around.kind = .iteratorClose →
    ent.range.Within around.body → around.body.lo < ent.range.lo

/-! ## Saved completions -/

/-- An active finalizer and the completion it has saved. -/
abbrev Saved := HandlerEntry × CompletionRecord

/-- A saved completion can be replayed: it has its value, or a target that is in no body but those
around the finalizer. -/
def RecordFits (handlers : List HandlerEntry) (ent : HandlerEntry) (record : CompletionRecord) :
    Prop :=
  match record.kind with
  | .normal => True
  | .throw | .return => ∃ value, record.value = some value
  | .break | .continue => ∃ tgt, record.target = some tgt ∧
      ∀ around ∈ handlers, around.kind.isFinalizer = true →
        around.body.Contains tgt.index.toNat → ent.body.Inside around.body

/-- The bodies that are active while a completion is dispatched: those around the offset, or those
around the finalizer that has just been left. -/
def Around (inner : Option HandlerEntry) (off : Nat) (ent : HandlerEntry) : Prop :=
  match inner with
  | none => ent.body.Contains off
  | some left => left.body.Inside ent.body

/-- The active finalizers while a completion is dispatched at an offset. -/
structure Dispatching (handlers : List HandlerEntry) (inner : Option HandlerEntry) (off : Nat)
    (saved : List Saved) : Prop where
  entries : ∀ s ∈ saved, s.1 ∈ handlers ∧ s.1.kind.isFinalizer = true
  nested : saved.Pairwise fun outer inner => inner.1.body.Inside outer.1.body
  records : ∀ s ∈ saved, RecordFits handlers s.1 s.2
  active : ∀ ent ∈ handlers, ent.kind.isFinalizer = true →
    (Around inner off ent ↔ ∃ s ∈ saved, s.1.body = ent.body)
  left : ∀ left ∈ inner, left ∈ handlers ∧ left.kind.isFinalizer = true ∧ left.body.Contains off ∧
    ∀ ent ∈ handlers, ent.range.Contains off → ¬ent.range.Within left.body

/-- The active finalizers are those whose body contains the program counter. -/
def InLockstep (handlers : List HandlerEntry) (pc : Nat) (saved : List Saved) : Prop :=
  Dispatching handlers none pc saved

/-- A completion that can be dispatched. -/
def CompletionFits (handlers : List HandlerEntry) (inner : Option HandlerEntry) (off : Nat)
    (completion : CompletionRecord) : Prop :=
  match completion.kind with
  | .normal => False
  | .throw | .return => ∃ value, completion.value = some value
  | .break | .continue => ∃ tgt, completion.target = some tgt ∧
      ∀ around ∈ handlers, around.kind.isFinalizer = true →
        around.body.Contains tgt.index.toNat → Around inner off around

/-- A break or continue is not taken over by a finalizer inside the body of another one that its
target leaves. -/
def BreakFits (handlers : List HandlerEntry) (off : WordOffset) (completion : CompletionRecord) :
    Prop :=
  completion.kind = .break ∨ completion.kind = .continue →
  ∀ tgt, completion.target = some tgt →
    ∀ found, findAbruptHandler handlers off completion = some found →
      ∀ around ∈ handlers, around.kind.isFinalizer = true →
        around.body.Contains off.index.toNat → found.2.range.Within around.body →
          around.body.Contains tgt.index.toNat

/-- The finalizers that a transfer keeps. -/
def keepEntered (off : WordOffset) (completion : CompletionRecord)
    (candidate : Option HandlerEntry) (saved : List Saved) : List Saved :=
  saved.rdropWhile fun s => !s.1.preserves off completion candidate

/-! ## Selecting a handler -/

variable {idx : Nat} {handler : HandlerEntry}

variable {handlers : List HandlerEntry}

theorem findLastHandler_some {p : HandlerEntry → Bool} (h : findLastHandler p handlers = some (idx,
    handler)) : handlers[idx]? = some handler ∧ p handler = true := by
  simp only [findLastHandler, Option.map_eq_some_iff] at h
  obtain ⟨ent, hfind, heq⟩ := h
  obtain ⟨rfl, rfl⟩ := Prod.mk.inj heq
  have hm := List.mem_of_find?_eq_some hfind
  have hp := List.find?_some hfind
  rw [List.mem_reverse] at hm
  exact ⟨List.mem_zipIdx_iff_getElem?.mp hm, hp⟩

variable {off : WordOffset}

theorem findAbruptHandler_some {completion : CompletionRecord} (h : findAbruptHandler handlers off
    completion = some (idx, handler)) :
    handlers[idx]? = some handler ∧ handler ∈ handlers ∧
      handler.range.Contains off.index.toNat ∧ handler.eligible completion = true := by
  obtain ⟨hget, hp⟩ := findLastHandler_some h
  obtain ⟨hcovers, heligible⟩ := Bool.and_eq_true_iff.mp hp
  exact ⟨hget, List.mem_of_getElem? hget, HandlerEntry.covers_iff.mp hcovers, heligible⟩

theorem findCoveringFinally_some (h : findCoveringFinally handlers off = some (idx, handler)) :
    handlers[idx]? = some handler ∧ handler ∈ handlers ∧
      handler.range.Contains off.index.toNat ∧ handler.kind.isFinalizer = true := by
  obtain ⟨hget, hp⟩ := findLastHandler_some h
  obtain ⟨hfin, hcovers⟩ := Bool.and_eq_true_iff.mp hp
  exact ⟨hget, List.mem_of_getElem? hget, HandlerEntry.covers_iff.mp hcovers, hfin⟩

/-! ## Transfers -/

section Transfer

variable {handlers : List HandlerEntry} {inner : Option HandlerEntry} {saved : List Saved}

namespace Dispatching

variable {off : Nat}

variable {ent : HandlerEntry}

/-- An active body contains the offset. -/
theorem contains (h : Dispatching handlers inner off saved) (haround : Around inner off ent) :
    ent.body.Contains off := by
  cases inner with
  | none => exact haround
  | some left => exact haround.1.contains (h.left left rfl).2.2.1

variable {around : HandlerEntry}

section

variable (h : Dispatching handlers inner off saved)

include h

/-- A body that a range around the offset stands in is active. -/
theorem around_of_within (hnested : WellNested handlers) (he : ent ∈ handlers)
    (hcovers : ent.range.Contains off) (hwi : ent.range.Within around.body) :
    Around inner off around := by
  cases inner with
  | none => exact hwi.contains hcovers
  | some left =>
    obtain ⟨hl, hfin, hcon, hclear⟩ := h.left left rfl
    have hnot := hclear ent he hcovers
    rcases hnested.ranges ent he left hl hfin with hin | hin | hdisjoint
    · exact absurd hin hnot
    · refine ⟨hin.trans hwi, ?_⟩
      intro heq
      rw [← heq] at hwi
      exact hnot hwi
    · exact absurd hcon (hdisjoint.not_contains hcovers)

/-- The bodies around a handler are the active ones that its range stands in, and its own. -/
theorem handler_mem_body (hval : HandlersValid handlers) (hnested : WellNested handlers)
    (he : ent ∈ handlers) (hcovers : ent.range.Contains off)
    (haround : around ∈ handlers) (hfin : around.kind.isFinalizer = true) :
    around.body.Contains ent.body.lo ↔ (Around inner off around ∧ ent.range.Within around.body) ∨
        (ent.kind.isFinalizer = true ∧ ent.body = around.body) := by
  constructor
  · intro hcon
    rcases hnested.outward ent he around haround hfin hcon with hwi | hs
    · exact .inl ⟨h.around_of_within hnested he hcovers hwi, hwi⟩
    · exact .inr hs
  · rintro (⟨-, hwi⟩ | ⟨-, hs⟩)
    · exact (hnested.inward ent he around haround hfin hwi).1
    · rw [hs]
      exact ⟨le_refl _, hval.body around haround hfin⟩

/-- An active body and a range around the offset do not cross. -/
theorem range_or_body (hnested : WellNested handlers) (he : ent ∈ handlers)
    (hcovers : ent.range.Contains off) (haround : around ∈ handlers)
    (hfin : around.kind.isFinalizer = true) (hact : Around inner off around) :
    ent.range.Within around.body ∨ around.body.Within ent.range := by
  rcases hnested.ranges ent he around haround hfin with hin | hin | hdisjoint
  · exact .inl hin
  · exact .inr hin
  · exact absurd (h.contains hact) (hdisjoint.not_contains hcovers)

/-- An entry of the list is around the offset. -/
theorem around_of_mem {s : Saved} (hs : s ∈ saved) : Around inner off s.1 :=
  (h.active s.1 (h.entries s hs).1 (h.entries s hs).2).mpr ⟨s, hs, rfl⟩

end

/-- Leaving the innermost finalizer, to an offset in its body that no range inside it covers. -/
theorem pop {top : Saved} {next : Nat}
    (h : Dispatching handlers inner off (saved ++ [top])) (hn : top.1.body.Contains next)
    (hclear : ∀ ent ∈ handlers, ent.range.Contains next → ¬ent.range.Within top.1.body) :
    Dispatching handlers (some top.1) next saved := by
  obtain ⟨hnested, -, htop⟩ := List.pairwise_append.mp h.nested
  have hm : top ∈ saved ++ [top] := List.mem_append.mpr (.inr (List.mem_singleton.mpr rfl))
  refine ⟨fun s hs => h.entries s (List.mem_append.mpr (.inl hs)), hnested,
    fun s hs => h.records s (List.mem_append.mpr (.inl hs)), ?_, ?_⟩
  · intro ent he hfin
    constructor
    · intro hins
      -- a body around the one that is left is active, and is not the one that is left
      have haround : Around inner off ent := by
        have htopAround := h.around_of_mem hm
        cases inner with
        | none => exact hins.1.contains htopAround
        | some left => exact htopAround.trans_within hins.1
      obtain ⟨s, hs, hbody⟩ := (h.active ent he hfin).mp haround
      rcases List.mem_append.mp hs with hs | hs
      · exact ⟨s, hs, hbody⟩
      · obtain rfl := List.mem_singleton.mp hs
        exact absurd hbody hins.2
    · rintro ⟨s, hs, hbody⟩
      have hins := htop s hs top (List.mem_singleton.mpr rfl)
      rw [hbody] at hins
      exact hins
  · rintro left hl
    cases hl
    exact ⟨(h.entries top hm).1, (h.entries top hm).2, hn, hclear⟩

end Dispatching

/-- What a transfer keeps is given by its test, when the test passes from inner to outer bodies. -/
theorem mem_keepEntered {off : WordOffset} {completion : CompletionRecord}
    {candidate : Option HandlerEntry} (k : HandlerEntry → Prop)
    (hnested : saved.Pairwise fun outer inner => inner.1.body.Inside outer.1.body)
    (htest : ∀ s ∈ saved, s.1.preserves off completion candidate = true ↔ k s.1)
    (hout : ∀ outer inner : HandlerEntry, inner.body.Inside outer.body → k inner → k outer)
    {s : Saved} : s ∈ keepEntered off completion candidate saved ↔ s ∈ saved ∧ k s.1 := by
  have hpairs : saved.Pairwise fun outer inner =>
      inner.1.preserves off completion candidate = true →
        outer.1.preserves off completion candidate = true := by
    refine List.Pairwise.imp_of_mem ?_ hnested
    intro outer inner houter hinner hins hpass
    exact (htest outer houter).mpr (hout _ _ hins ((htest inner hinner).mp hpass))
  rw [keepEntered, mem_rdropWhile_iff hpairs]
  constructor
  · rintro ⟨hs, hpass⟩
    exact ⟨hs, (htest s hs).mp hpass⟩
  · rintro ⟨hs, hkeeps⟩
    exact ⟨hs, (htest s hs).mpr hkeeps⟩

theorem keepEntered_isInitial (off : WordOffset) (completion : CompletionRecord)
    (candidate : Option HandlerEntry) (saved : List Saved) :
    keepEntered off completion candidate saved <+: saved :=
  List.rdropWhile_prefix _ _

namespace Dispatching

variable {off : WordOffset} {completion : CompletionRecord}

variable {ent candidate : HandlerEntry}

/-- The test of a throw or a return: the range of the candidate stands in the body. -/
theorem preserves_candidate_iff (hbody : ent.body.Contains off.index.toNat)
    (hk : completion.kind = .throw ∨ completion.kind = .return) :
    ent.preserves off completion (some candidate) = true ↔ candidate.range.Within ent.body := by
  have hcon := HandlerEntry.bodyContains_iff.mpr hbody
  rcases hk with hk | hk
  · simp only [HandlerEntry.preserves, hcon, hk, Option.any_some, Bool.true_and,
      Bool.and_eq_true, decide_eq_true_eq, UInt32.le_iff_toNat_le, Interval.Within,
      HandlerEntry.body, HandlerEntry.range]
  · simp only [HandlerEntry.preserves, hcon, hk, Option.any_some, Bool.true_and,
      Bool.and_eq_true, decide_eq_true_eq, UInt32.le_iff_toNat_le, Interval.Within,
      HandlerEntry.body, HandlerEntry.range]

variable {tgt : WordOffset}

/-- The test of a break or a continue: the target stands in the body. -/
theorem preserves_target_iff {candidate : Option HandlerEntry}
    (hbody : ent.body.Contains off.index.toNat)
    (hk : completion.kind = .break ∨ completion.kind = .continue)
    (ht : completion.target = some tgt) : ent.preserves off completion candidate = true ↔
      ent.body.Contains tgt.index.toNat := by
  have hcon := HandlerEntry.bodyContains_iff.mpr hbody
  rw [← HandlerEntry.bodyContains_iff]
  rcases hk with hk | hk
  · simp only [HandlerEntry.preserves, hcon, hk, ht, Option.any_some, Bool.true_and]
  · simp only [HandlerEntry.preserves, hcon, hk, ht, Option.any_some, Bool.true_and]

/-- A finalizer takes a break only when the target is outside of its range. -/
theorem not_contains_of_eligible (heligible : ent.eligible completion = true)
    (hk : completion.kind = .break ∨ completion.kind = .continue)
    (ht : completion.target = some tgt) : ¬ent.range.Contains tgt.index.toNat := by
  have hout : tgt.index < ent.protectedStart.index ∨ ent.protectedEnd.index ≤ tgt.index := by
    rcases hk with hk | hk
    · simp only [HandlerEntry.eligible, hk, ht, Option.any_some, Bool.and_eq_true,
        Bool.or_eq_true, decide_eq_true_eq] at heligible
      exact heligible.2
    · simp only [HandlerEntry.eligible, hk, ht, Option.any_some, Bool.and_eq_true,
        Bool.or_eq_true, decide_eq_true_eq] at heligible
      exact heligible.2
  rw [UInt32.lt_iff_toNat_lt, UInt32.le_iff_toNat_le] at hout
  simp only [Interval.Contains, HandlerEntry.range]
  omega

variable {idx : Nat}

section

variable (h : Dispatching handlers inner off.index.toNat saved)

include h

/-- The test of a transfer to a handler, for every kind of completion. -/
theorem preserves_iff (hnested : WellNested handlers)
    (hfits : CompletionFits handlers inner off.index.toNat completion)
    (hbreak : BreakFits handlers off completion)
    (hf : findAbruptHandler handlers off completion = some (idx, candidate)) :
    ∀ s ∈ saved, s.1.preserves off completion (some candidate) = true ↔
      candidate.range.Within s.1.body := by
  obtain ⟨-, hcand, hcovers, heligible⟩ := findAbruptHandler_some hf
  intro s hs
  obtain ⟨he, hfin⟩ := h.entries s hs
  have haround := h.around_of_mem hs
  have hbody := h.contains haround
  have htransfer : (completion.kind = .break ∨ completion.kind = .continue) →
      (s.1.preserves off completion (some candidate) = true ↔ candidate.range.Within s.1.body) := by
    intro hk
    obtain ⟨tgt, ht⟩ : ∃ tgt, completion.target = some tgt := by
      rcases hk with hk | hk
      · simp only [CompletionFits, hk] at hfits
        obtain ⟨tgt, ht, -⟩ := hfits
        exact ⟨tgt, ht⟩
      · simp only [CompletionFits, hk] at hfits
        obtain ⟨tgt, ht, -⟩ := hfits
        exact ⟨tgt, ht⟩
    rw [preserves_target_iff hbody hk ht]
    constructor
    · intro htargetIn
      rcases h.range_or_body hnested hcand hcovers he hfin haround with hin | hin
      · exact hin
      · exact absurd (hin.contains htargetIn) (not_contains_of_eligible heligible hk ht)
    · intro hwi
      exact hbreak hk tgt ht (idx, candidate) hf s.1 he hfin hbody hwi
  cases hk : completion.kind with
  | normal =>
    simp only [CompletionFits, hk] at hfits
  | throw => exact preserves_candidate_iff hbody (.inl hk)
  | «return» => exact preserves_candidate_iff hbody (.inr hk)
  | «break» => exact htransfer (.inl hk)
  | «continue» => exact htransfer (.inr hk)

/-- The completion that a finalizer saves can be replayed behind it. -/
theorem recordFits (hnested : WellNested handlers)
    (hfits : CompletionFits handlers inner off.index.toNat completion)
    (hf : findAbruptHandler handlers off completion = some (idx, candidate))
    (hfinalizer : candidate.kind.isFinalizer = true) :
    RecordFits handlers candidate completion := by
  obtain ⟨-, hcand, hcovers, heligible⟩ := findAbruptHandler_some hf
  have htransfer : (completion.kind = .break ∨ completion.kind = .continue) →
      (∃ tgt, completion.target = some tgt ∧ ∀ around ∈ handlers, around.kind.isFinalizer = true →
          around.body.Contains tgt.index.toNat → Around inner off.index.toNat around) →
      ∃ tgt, completion.target = some tgt ∧ ∀ around ∈ handlers, around.kind.isFinalizer = true →
          around.body.Contains tgt.index.toNat → candidate.body.Inside around.body := by
    rintro hk ⟨tgt, ht, hout⟩
    refine ⟨tgt, ht, fun around haround hfin hcon => ?_⟩
    have hact := hout around haround hfin hcon
    rcases h.range_or_body hnested hcand hcovers haround hfin hact with hin | hin
    · exact (hnested.inward candidate hcand around haround hfin hin).2 hfinalizer
    · exact absurd (hin.contains hcon) (not_contains_of_eligible heligible hk ht)
  cases hk : completion.kind with
  | normal => simp only [CompletionFits, hk] at hfits
  | throw | «return» =>
    simp only [CompletionFits, hk] at hfits
    simp only [RecordFits, hk]
    exact hfits
  | «break» =>
    simp only [CompletionFits, hk] at hfits
    simp only [RecordFits, hk]
    exact htransfer (.inl hk) hfits
  | «continue» =>
    simp only [CompletionFits, hk] at hfits
    simp only [RecordFits, hk]
    exact htransfer (.inr hk) hfits

omit h in
/-- The finalizers that a transfer keeps, with the one it enters: the invariant at the handler,
when the kept ones are those that its range stands in. -/
theorem enter_of_kept {off : Nat} (h : Dispatching handlers inner off saved)
    (hval : HandlersValid handlers) (hnested : WellNested handlers)
    (hcand : candidate ∈ handlers) (hcovers : candidate.range.Contains off)
    {kept entered : List Saved} (hinit : kept <+: saved)
    (hkept : ∀ s, s ∈ kept ↔ s ∈ saved ∧ candidate.range.Within s.1.body)
    (hentered : ∀ s ∈ entered, s.1 = candidate ∧ candidate.kind.isFinalizer = true ∧
      RecordFits handlers candidate s.2) (hone : entered.length ≤ 1)
    (hfinalizer : candidate.kind.isFinalizer = true → entered ≠ []) :
    InLockstep handlers candidate.body.lo (kept ++ entered) := by
  have hsub : ∀ s ∈ kept, s ∈ saved := fun s hs => ((hkept s).mp hs).1
  constructor
  case entries =>
    intro s hs
    rcases List.mem_append.mp hs with hs | hs
    · exact h.entries s (hsub s hs)
    · obtain ⟨heq, hfin, -⟩ := hentered s hs
      rw [heq]
      exact ⟨hcand, hfin⟩
  case nested =>
    refine List.pairwise_append.mpr ⟨h.nested.sublist hinit.sublist, ?_, ?_⟩
    · exact List.pairwise_iff_getElem.mpr fun i j hi hj hlt => by omega
    · intro outer houter s hs
      obtain ⟨heq, hfin, -⟩ := hentered s hs
      obtain ⟨hsaved, hwi⟩ := (hkept outer).mp houter
      obtain ⟨hm, houterFin⟩ := h.entries outer hsaved
      rw [heq]
      exact (hnested.inward candidate hcand outer.1 hm houterFin hwi).2 hfin
  case records =>
    intro s hs
    rcases List.mem_append.mp hs with hs | hs
    · exact h.records s (hsub s hs)
    · obtain ⟨heq, -, hrec⟩ := hentered s hs
      rw [heq]
      exact hrec
  case active =>
    intro ent he hfin
    rw [Around, h.handler_mem_body hval hnested hcand hcovers he hfin]
    constructor
    · rintro (⟨haround, hwi⟩ | ⟨hcandidateFin, hsm⟩)
      · obtain ⟨s, hs, hbody⟩ := (h.active ent he hfin).mp haround
        refine ⟨s, List.mem_append.mpr (.inl ((hkept s).mpr ⟨hs, ?_⟩)), hbody⟩
        rw [hbody]
        exact hwi
      · obtain ⟨s, hs⟩ := List.exists_mem_of_ne_nil entered (hfinalizer hcandidateFin)
        refine ⟨s, List.mem_append.mpr (.inr hs), ?_⟩
        rw [(hentered s hs).1, hsm]
    · rintro ⟨s, hs, hbody⟩
      rcases List.mem_append.mp hs with hs | hs
      · obtain ⟨hsaved, hwi⟩ := (hkept s).mp hs
        refine .inl ⟨(h.active ent he hfin).mpr ⟨s, hsaved, hbody⟩, ?_⟩
        rw [← hbody]
        exact hwi
      · obtain ⟨heq, hcandidateFin, -⟩ := hentered s hs
        refine .inr ⟨hcandidateFin, ?_⟩
        rw [← heq, hbody]
  case left =>
    intro left hl
    cases hl

/-- A completion that is taken by a handler of the frame. -/
theorem enter (hval : HandlersValid handlers) (hnested : WellNested handlers)
    (hfits : CompletionFits handlers inner off.index.toNat completion)
    (hbreak : BreakFits handlers off completion)
    (hf : findAbruptHandler handlers off completion = some (idx, candidate)) :
    InLockstep handlers candidate.body.lo (keepEntered off completion (some candidate) saved ++
        if candidate.kind.isFinalizer then [(candidate, completion)] else []) := by
  obtain ⟨-, hcand, hcovers, -⟩ := findAbruptHandler_some hf
  refine h.enter_of_kept hval hnested hcand hcovers (keepEntered_isInitial _ _ _ _) ?_ ?_ ?_ ?_
  · intro s
    have hout : ∀ outer inner : HandlerEntry, inner.body.Inside outer.body →
        candidate.range.Within inner.body → candidate.range.Within outer.body :=
      fun outer inner hins hwi => hwi.trans hins.1
    have htest := h.preserves_iff hnested hfits hbreak hf
    exact mem_keepEntered (fun ent => candidate.range.Within ent.body) h.nested htest hout
  · intro s hs
    split_ifs at hs with hfin
    · obtain rfl := List.mem_singleton.mp hs
      exact ⟨rfl, hfin, h.recordFits hnested hfits hf hfin⟩
    · cases hs
  · split
    · exact le_refl _
    · exact Nat.zero_le _
  · intro hfin
    rw [if_pos hfin]
    exact List.cons_ne_nil _ _

/-- A break or a continue that no finalizer takes goes to its target. -/
theorem land (hk : completion.kind = .break ∨ completion.kind = .continue)
    (ht : completion.target = some tgt)
    (hout : ∀ around ∈ handlers, around.kind.isFinalizer = true →
      around.body.Contains tgt.index.toNat → Around inner off.index.toNat around) :
    InLockstep handlers tgt.index.toNat (keepEntered off completion none saved) := by
  have hkept : ∀ s, s ∈ keepEntered off completion none saved ↔
      s ∈ saved ∧ s.1.body.Contains tgt.index.toNat := by
    intro s
    exact mem_keepEntered (fun ent => ent.body.Contains tgt.index.toNat) h.nested
      (fun s hs => preserves_target_iff (h.contains (h.around_of_mem hs)) hk ht)
      fun outer inner hins hcon => hins.1.contains hcon
  have hinit := keepEntered_isInitial off completion none saved
  refine ⟨fun s hs => h.entries s ((hkept s).mp hs).1, h.nested.sublist hinit.sublist,
    fun s hs => h.records s ((hkept s).mp hs).1, ?_, fun left hl => by cases hl⟩
  intro ent he hfin
  constructor
  · intro hcon
    obtain ⟨s, hs, hbody⟩ := (h.active ent he hfin).mp (hout ent he hfin hcon)
    refine ⟨s, (hkept s).mpr ⟨hs, ?_⟩, hbody⟩
    rw [hbody]
    exact hcon
  · rintro ⟨s, hs, hbody⟩
    have hcon := ((hkept s).mp hs).2
    rw [hbody] at hcon
    exact hcon

end

end Dispatching

end Transfer

end TachyonEngine.Vm
