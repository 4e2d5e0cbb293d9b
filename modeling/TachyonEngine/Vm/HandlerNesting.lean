import TachyonEngine.Vm.FinalizerTable

/-!
# The innermost handler of a validated table

The pairwise checks of `validateHandlers` order a table by nesting: of two ranges with a common
offset, the later one is properly inside the earlier one. So the handlers around an offset are a
chain, and a scan from the end of the table meets the innermost one first.
-/

namespace TachyonEngine.Vm

open Bytecode Lib List

/-! ## Tables ordered by nesting -/

/-- Of two ranges with a common offset, the later one is properly inside the earlier one. -/
def OrderedByNesting (handlers : List HandlerEntry) : Prop := handlers.Pairwise fun earlier later =>
    ∀ offset, earlier.range.Contains offset → later.range.Contains offset →
      later.range.Inside earlier.range

variable {fn : FunctionId}

/-- What the checks of an entry against an earlier one leave for ranges that meet. -/
theorem inside_of_validateNesting {earlier later : HandlerEntry}
    (h : validateNesting fn later earlier = .ok ()) {off : Nat}
    (hearlier : earlier.range.Contains off) (hlat : later.range.Contains off) :
    later.range.Inside earlier.range := by
  simp only [validateNesting] at h
  split at h
  · cases h
  next hordered =>
    simp only [Bool.or_eq_true, Bool.and_eq_true, decide_eq_true_eq, not_or, not_and,
      crossesHandlerRanges, and_imp, UInt32.le_iff_toNat_le, UInt32.lt_iff_toNat_lt,
      not_lt, not_le] at hordered
    obtain ⟨⟨hst, hequal⟩, hcrosses⟩ := hordered
    have hs : earlier.protectedStart.index.toNat = later.protectedStart.index.toNat →
        later.protectedEnd.index.toNat < earlier.protectedEnd.index.toNat := by
      intro heq
      have hoff : earlier.protectedStart = later.protectedStart := by
        cases hfirst : earlier.protectedStart
        cases hsec : later.protectedStart
        rw [hfirst, hsec] at heq
        exact congrArg WordOffset.mk (UInt32.toNat_inj.mp heq)
      exact hequal hoff
    simp only [HandlerEntry.range, Interval.Contains] at hearlier hlat
    have hends : later.protectedEnd.index.toNat ≤ earlier.protectedEnd.index.toNat := by
      by_contra hbeyond
      rcases lt_or_ge earlier.protectedStart.index.toNat later.protectedStart.index.toNat with
        hlt | hge
      · exact hbeyond (hcrosses hlt (by omega))
      · exact absurd (hs (by omega)) (by omega)
    refine ⟨⟨hst, hends⟩, ?_⟩
    intro heq
    have hlo := congrArg Interval.lo heq
    have hhi := congrArg Interval.hi heq
    simp only [HandlerEntry.range] at hlo hhi
    exact absurd (hs hlo.symm) (by omega)

/-- The pass checks each entry against all of those before it. -/
theorem orderedByNesting_of_nestingPass {pre rest : List HandlerEntry} {depth final : HandlerDepth}
    (h : nestingPass fn pre rest depth = .ok final) (hb : OrderedByNesting pre) :
    OrderedByNesting (pre ++ rest) := by
  induction rest generalizing pre depth with
  | nil =>
    rw [append_nil]
    exact hb
  | cons cur rest ih =>
    obtain ⟨_, hcheck, hrest⟩ := bind_ok h
    have hextended : OrderedByNesting (pre ++ [cur]) := by
      refine pairwise_append.mpr ⟨hb, pairwise_singleton _ _, ?_⟩
      intro earlier hearlier later hlat off
      rw [mem_singleton.mp hlat]
      exact inside_of_validateNesting (forAll_ok hcheck earlier hearlier)
    have hwhole := ih hrest hextended
    rwa [append_assoc] at hwhole

variable {handlers : List HandlerEntry}

theorem orderedByNesting_of_validate {bytecode : VerifiedBytecode} {depth : HandlerDepth}
    (h : validateHandlers fn handlers bytecode = .ok depth) : OrderedByNesting handlers := by
  obtain ⟨_, -, hrest⟩ := bind_ok h
  obtain ⟨final, hpass, -⟩ := bind_ok hrest
  exact orderedByNesting_of_nestingPass hpass List.Pairwise.nil

/-! ## Scanning from the end -/

variable {p : HandlerEntry → Bool}

/-- The handler that is found is behind all the others that qualify. -/
theorem findLastHandler_split {idx : Nat} {handler : HandlerEntry}
    (h : findLastHandler p handlers = some (idx, handler)) :
    ∃ front back, handlers = front ++ handler :: back ∧ p handler = true ∧
      ∀ later ∈ back, p later = false := by
  simp only [findLastHandler, Option.map_eq_some_iff] at h
  obtain ⟨ent, hfind, heq⟩ := h
  obtain ⟨rfl, rfl⟩ := Prod.mk.inj heq
  obtain ⟨hp, skipped, rest, hsplit, hskipped⟩ := find?_eq_some_iff_append.mp hfind
  have hzip : handlers.zipIdx = rest.reverse ++ ent :: skipped.reverse := by
    rw [← reverse_reverse handlers.zipIdx, hsplit]
    simp
  have hhandlers := congrArg (map Prod.fst) hzip
  rw [zipIdx_map_fst, map_append] at hhandlers
  refine ⟨_, _, hhandlers, hp, ?_⟩
  intro later hlat
  obtain ⟨pair, hpair, rfl⟩ := mem_map.mp hlat
  have hfails := hskipped pair (mem_reverse.mp hpair)
  simpa using hfails

theorem findLastHandler_none (h : findLastHandler p handlers = none) :
    ∀ handler ∈ handlers, p handler = false := by
  intro handler hm
  rw [Bool.eq_false_iff]
  intro hp
  obtain ⟨idx, hi, rfl⟩ := getElem_of_mem hm
  rw [findLastHandler, Option.map_eq_none_iff, find?_eq_none] at h
  refine h (handlers[idx], idx) ?_ hp
  rw [mem_reverse, mem_zipIdx_iff_getElem?]
  exact getElem?_eq_getElem hi

/-- A scan that finds the innermost one of the handlers that cover an offset and qualify, where
there is one. -/
structure Innermost (handlers : List HandlerEntry) (offset : WordOffset)
    (qualifies : HandlerEntry → Bool)
    (found : Option (Nat × HandlerEntry)) : Prop where
  some_iff : (∃ entry ∈ handlers, entry.covers offset = true ∧ qualifies entry = true) ↔
    ∃ result, found = some result
  within : ∀ index handler, found = some (index, handler) →
    handlers[index]? = some handler ∧ handler.covers offset = true ∧ qualifies handler = true ∧
      ∀ other ∈ handlers, other.covers offset = true → qualifies other = true →
        handler.range.Within other.range

theorem OrderedByNesting.innermost (h : OrderedByNesting handlers) {off : WordOffset}
    {qualifies : HandlerEntry → Bool}
    (hp : ∀ ent, p ent = true ↔ ent.covers off = true ∧ qualifies ent = true) :
    Innermost handlers off qualifies (findLastHandler p handlers) := by
  constructor
  · constructor
    · rintro ⟨ent, hm, he⟩
      cases hf : findLastHandler p handlers with
      | some res => exact ⟨res, rfl⟩
      | none =>
        have hfails := findLastHandler_none hf ent hm
        rw [(hp ent).mpr he] at hfails
        cases hfails
    · rintro ⟨⟨idx, handler⟩, hf⟩
      obtain ⟨hget, hhandler⟩ := findLastHandler_some hf
      exact ⟨handler, mem_of_getElem? hget, (hp handler).mp hhandler⟩
  · intro idx handler hf
    obtain ⟨hget, hhandler⟩ := findLastHandler_some hf
    obtain ⟨hcovers, hqualifies⟩ := (hp handler).mp hhandler
    refine ⟨hget, hcovers, hqualifies, ?_⟩
    intro other ho hothercovers hotherqualifies
    obtain ⟨front, back, rfl, -, hback⟩ := findLastHandler_split hf
    rcases mem_append.mp ho with hfront | hrest
    · -- an entry before the one that is found is around it
      have hins := (pairwise_append.mp h).2.2 other hfront handler mem_cons_self
      exact (hins _ (HandlerEntry.covers_iff.mp hothercovers)
        (HandlerEntry.covers_iff.mp hcovers)).1
    · rcases mem_cons.mp hrest with rfl | hlat
      · exact Interval.Within.refl _
      · have hfails := hback other hlat
        rw [(hp other).mpr ⟨hothercovers, hotherqualifies⟩] at hfails
        cases hfails

/-! ## Validated tables -/

/-- The handlers around an offset are nested, and both scans find the innermost of those that can
take a completion. -/
structure SelectsInnermost (handlers : List HandlerEntry) (offset : WordOffset) : Prop where
  chain : ∀ first ∈ handlers, ∀ second ∈ handlers, first.covers offset = true →
    second.covers offset = true → first.range.Within second.range ∨ second.range.Within first.range
  abrupt : ∀ completion, Innermost handlers offset (·.eligible completion)
    (findAbruptHandler handlers offset completion)
  covering : Innermost handlers offset (·.kind.isFinalizer) (findCoveringFinally handlers offset)

theorem selectsInnermost_of_validate {fn : FunctionId} {handlers : List HandlerEntry}
    {bytecode : VerifiedBytecode} {depth : HandlerDepth}
    (h : validateHandlers fn handlers bytecode = .ok depth) (off : WordOffset) :
    SelectsInnermost handlers off := by
  have hordered := orderedByNesting_of_validate h
  constructor
  · intro first hfirst second hsec hfirstcovers hsecondcovers
    rw [HandlerEntry.covers_iff] at hfirstcovers hsecondcovers
    obtain ⟨low, hlow, rfl⟩ := getElem_of_mem hfirst
    obtain ⟨high, hhigh, rfl⟩ := getElem_of_mem hsec
    have hpairs := pairwise_iff_getElem.mp hordered
    rcases lt_trichotomy low high with hlt | rfl | hgt
    · exact .inr (hpairs low high hlow hhigh hlt _ hfirstcovers hsecondcovers).1
    · exact .inl (Interval.Within.refl _)
    · exact .inl (hpairs high low hhigh hlow hgt _ hsecondcovers hfirstcovers).1
  · intro completion
    apply hordered.innermost
    intro ent
    rw [Bool.and_eq_true]
  · apply hordered.innermost
    intro ent
    rw [Bool.and_eq_true, And.comm]

/-- Two catches with equal starts, the outer one first. -/
def nestedCatches : List HandlerEntry :=
  [{ protectedStart := ⟨0⟩, protectedEnd := ⟨2⟩, handler := ⟨2⟩, handlerEnd := ⟨2⟩
     kind := .catch_, environmentDepth := 0 },
   { protectedStart := ⟨0⟩, protectedEnd := ⟨1⟩, handler := ⟨2⟩, handlerEnd := ⟨2⟩
     kind := .catch_, environmentDepth := 0 }]

theorem selectsInnermost_nestedCatches :
    SelectsInnermost nestedCatches ⟨0⟩ ∧
      findAbruptHandler nestedCatches ⟨0⟩ (.throw .undefined) = some (1, nestedCatches[1]) := by
  have hval : ∃ depth, validateHandlers ⟨0⟩ nestedCatches ⟨⟨[0, 0, 46]⟩, [true, true, true]⟩ =
      .ok depth := ⟨_, rfl⟩
  obtain ⟨depth, hval⟩ := hval
  exact ⟨selectsInnermost_of_validate hval ⟨0⟩, by decide⟩

end TachyonEngine.Vm
