import TachyonEngine.Gc.FreeRanges
import TachyonEngine.Gc.SweepSteps

/-!
# Vacant and occupied entries

What the table knows of its own entries: the free ranges are exactly the vacant indices,
a large owner is followed by its continuations and by no others, the count of live spans
is that of the occupied entries, and the vector of free ranges has room for every range
it will ever hold. Entries are seen by their `shape`; an operation either fills vacant
entries or empties occupied ones, and `Tracked.fill` and `Tracked.empty` are the two
steps everything else is made of.
-/

namespace TachyonEngine.Gc

open Lib.Traversal Lib.Capacity List Option

/-- What an occupied entry is, without its contents. -/
inductive SpanShape where
  | small
  | largeOwner (spanCount : Nat)
  | largeContinuation (owner : SpanId) (ordinal : Nat)

def SpanKind.shape : SpanKind → SpanShape
  | .small _ => .small
  | .largeOwner s => .largeOwner s.metadata.spanCount
  | .largeContinuation owner ordinal => .largeContinuation owner ordinal

/-- Index `i` is one of `count` indices from `owner` on. -/
def InSpanRange (owner count i : Nat) : Prop := owner ≤ i ∧ i < owner + count

instance (owner count i : Nat) : Decidable (InSpanRange owner count i) :=
  inferInstanceAs (Decidable (_ ∧ _))

namespace SpanTable

def shape (t : SpanTable) (i : SpanId) : Option SpanShape := (t.kind i).map SpanKind.shape

/-- The occupied entries. -/
def occupied (t : SpanTable) : Finset Nat :=
  (Finset.range t.entries.length).filter fun i => (t.shape i).isSome

/-- The table keeps track of its vacant entries. -/
structure Tracked (t : SpanTable) : Prop where
  ranges : RangesSound t.freeRanges
  free_iff : ∀ i : Nat, IsFree t.freeRanges i ↔ i < t.entries.length ∧ t.shape i = none
  length_le : t.entries.length ≤ maxLogicalSpans
  continued : ∀ owner count : Nat, t.shape owner = some (.largeOwner count) →
    0 < count ∧ ∀ ordinal, 0 < ordinal → ordinal < count →
      t.shape (owner + ordinal) = some (.largeContinuation owner ordinal)
  owned : ∀ i owner ordinal : Nat, t.shape i = some (.largeContinuation owner ordinal) →
    0 < ordinal ∧ i = owner + ordinal ∧
      ∃ count, t.shape owner = some (.largeOwner count) ∧ ordinal < count
  live : t.liveSpans = t.occupied.card
  room : t.freeRanges.length ≤ t.freeRangesCapacity

variable {t t' : SpanTable} {span : SpanId}

theorem shape_eq_none_of_le (h : t.entries.length ≤ span) : t.shape span = none := by
  unfold shape kind
  rw [getElem?_eq_none h]
  rfl

theorem lt_of_shape {shape : SpanShape} (h : t.shape span = some shape) :
    span < t.entries.length := by
  apply Nat.lt_of_not_le
  intro hle
  rw [shape_eq_none_of_le hle] at h
  cases h

variable {i : Nat}

theorem mem_occupied : i ∈ t.occupied ↔ t.shape i ≠ none := by
  unfold occupied
  rw [Finset.mem_filter, Finset.mem_range, isSome_iff_ne_none]
  constructor
  · exact fun h => h.2
  · intro h
    refine ⟨?_, h⟩
    obtain ⟨shape, hshape⟩ := ne_none_iff_exists'.mp h
    exact lt_of_shape hshape

/-- The ranges leave room for the vector that holds them. -/
theorem Tracked.ranges_length_le (h : t.Tracked) : t.freeRanges.length ≤ maxFreeSpanRanges := by
  have hbound : 2 * t.freeRanges.length ≤ maxLogicalSpans + 1 - 0 := by
    apply h.ranges.length_le fun _ _ => Nat.zero_le _
    intro range hrange
    have hl : IsFree t.freeRanges range.last :=
      ⟨range, hrange, h.ranges.nonempty range hrange, le_refl _⟩
    exact lt_of_lt_of_le ((h.free_iff _).mp hl).1 h.length_le
  unfold maxFreeSpanRanges
  omega

/-- Contents, links and generations do not matter. -/
theorem Tracked.congr (h : t.Tracked) (hlen : t'.entries.length = t.entries.length)
    (hshape : ∀ i, t'.shape i = t.shape i) (hranges : t'.freeRanges = t.freeRanges)
    (hlive : t'.liveSpans = t.liveSpans) (hroom : t.freeRangesCapacity ≤ t'.freeRangesCapacity) :
    t'.Tracked where
  ranges := hranges ▸ h.ranges
  free_iff := by
    intro i
    rw [hranges, h.free_iff, hlen, hshape]
  length_le := hlen ▸ h.length_le
  continued := by
    intro owner cnt howner
    rw [hshape] at howner
    refine ⟨(h.continued owner cnt howner).1, ?_⟩
    intro ordinal hpos hlt
    rw [hshape]
    exact (h.continued owner cnt howner).2 ordinal hpos hlt
  owned := by
    intro i owner ordinal hi
    rw [hshape] at hi
    obtain ⟨hpos, heq, cnt, howner, hlt⟩ := h.owned i owner ordinal hi
    exact ⟨hpos, heq, cnt, (hshape owner).trans howner, hlt⟩
  live := by
    have hocc : t'.occupied = t.occupied := by
      ext i
      rw [mem_occupied, mem_occupied, hshape]
    rw [hlive, h.live, hocc]
  room := by
    rw [hranges]
    exact le_trans h.room hroom

/-! ## Filling and emptying entries -/

/-- The shape of an entry of a new range: one small span, or a large owner and its
continuations. -/
def filledShape (owner count : Nat) (small : Bool) (i : Nat) : SpanShape :=
  if small then .small
  else if i = owner then .largeOwner count
  else .largeContinuation owner (i - owner)

/-- Vacant entries, perhaps at the end of the table, are filled. -/
structure Fills (t t' : SpanTable) (owner count : Nat) (small : Bool) : Prop where
  count_pos : 0 < count
  single : small = true → count = 1
  length : t.entries.length ≤ t'.entries.length ∧ t'.entries.length ≤ maxLogicalSpans
  shape : ∀ i, t'.shape i =
    if InSpanRange owner count i then some (filledShape owner count small i) else t.shape i
  vacant : ∀ i, InSpanRange owner count i → t.shape i = none ∧ i < t'.entries.length
  appended : ∀ i, t.entries.length ≤ i → i < t'.entries.length → InSpanRange owner count i
  ranges : RangesSound t'.freeRanges
  free_iff : ∀ i, IsFree t'.freeRanges i ↔ IsFree t.freeRanges i ∧ ¬InSpanRange owner count i
  live : t'.liveSpans = t.liveSpans + count
  room : t'.freeRanges.length ≤ t'.freeRangesCapacity

variable {owner cnt : Nat}

theorem Tracked.fill {small : Bool} (h : t.Tracked) (hfills : Fills t t' owner cnt small) :
    t'.Tracked where
  ranges := hfills.ranges
  free_iff := by
    intro i
    rw [hfills.free_iff, h.free_iff, hfills.shape]
    by_cases hi : InSpanRange owner cnt i
    · simp [hi]
    · simp only [hi, not_false_eq_true, and_true]
      constructor
      · exact fun ⟨hlt, hn⟩ => ⟨lt_of_lt_of_le hlt hfills.length.1, hn⟩
      · rintro ⟨hlt, hn⟩
        refine ⟨Nat.lt_of_not_le fun hle => hi (hfills.appended i hle hlt), hn⟩
  length_le := hfills.length.2
  continued := by
    intro o n ho
    rw [hfills.shape] at ho
    by_cases hrange : InSpanRange owner cnt o
    · -- The new owner: its continuations are the rest of the range.
      rw [if_pos hrange] at ho
      cases small with
      | true => cases ho
      | false =>
        simp only [filledShape, Bool.false_eq_true, if_false] at ho
        split_ifs at ho with heq
        · cases ho
          subst heq
          refine ⟨hfills.count_pos, ?_⟩
          intro ordinal hpos hlt
          have hin : InSpanRange o cnt (o + ordinal) := ⟨by omega, by omega⟩
          rw [hfills.shape, if_pos hin]
          simp [filledShape, ne_of_gt hpos]
        · cases ho
    · rw [if_neg hrange] at ho
      refine ⟨(h.continued o n ho).1, ?_⟩
      intro ordinal hpos hlt
      have hold := (h.continued o n ho).2 ordinal hpos hlt
      rw [hfills.shape, if_neg, hold]
      intro hin
      rw [(hfills.vacant _ hin).1] at hold
      cases hold
  owned := by
    intro i o ordinal hi
    rw [hfills.shape] at hi
    by_cases hrange : InSpanRange owner cnt i
    · rw [if_pos hrange] at hi
      cases small with
      | true => cases hi
      | false =>
        simp only [filledShape, Bool.false_eq_true, if_false] at hi
        split at hi
        · cases hi
        · cases hi
          obtain ⟨hle, hlt⟩ := hrange
          have hin : InSpanRange owner cnt owner := ⟨le_refl _, by omega⟩
          refine ⟨by omega, (Nat.add_sub_cancel' hle).symm, cnt, ?_, by omega⟩
          rw [hfills.shape, if_pos hin]
          simp [filledShape]
    · rw [if_neg hrange] at hi
      obtain ⟨hpos, heq, n, ho, hlt⟩ := h.owned i o ordinal hi
      refine ⟨hpos, heq, n, ?_, hlt⟩
      rw [hfills.shape, if_neg, ho]
      intro hin
      rw [(hfills.vacant _ hin).1] at ho
      cases ho
  live := by
    have hocc : t'.occupied = t.occupied ∪ Finset.Ico owner (owner + cnt) := by
      ext i
      rw [Finset.mem_union, Finset.mem_Ico, mem_occupied, mem_occupied, hfills.shape]
      by_cases hi : InSpanRange owner cnt i
      · have hi' := hi
        unfold InSpanRange at hi'
        simp [hi, hi']
      · have hi' := hi
        unfold InSpanRange at hi'
        simp [hi, hi']
    have hdisjoint : Disjoint t.occupied (Finset.Ico owner (owner + cnt)) := by
      rw [Finset.disjoint_left]
      intro i hi hin
      exact mem_occupied.mp hi (hfills.vacant i (Finset.mem_Ico.mp hin)).1
    rw [hfills.live, h.live, hocc, Finset.card_union_of_disjoint hdisjoint, Nat.card_Ico]
    omega
  room := hfills.room

/-- Occupied entries, with an owner all of its continuations, are emptied. -/
structure Empties (t t' : SpanTable) (owner count : Nat) : Prop where
  length : t'.entries.length = t.entries.length
  shape : ∀ i, t'.shape i = if InSpanRange owner count i then none else t.shape i
  occupied : ∀ i, InSpanRange owner count i → t.shape i ≠ none
  whole : ∀ i o ordinal : Nat, t.shape i = some (.largeContinuation o ordinal) →
    (InSpanRange owner count i ↔ InSpanRange owner count o)
  ranges : RangesSound t'.freeRanges
  free_iff : ∀ i, IsFree t'.freeRanges i ↔ IsFree t.freeRanges i ∨ InSpanRange owner count i
  live : t'.liveSpans = t.liveSpans - count
  room : t'.freeRanges.length ≤ t'.freeRangesCapacity

theorem Tracked.empty (h : t.Tracked) (hempties : Empties t t' owner cnt) : t'.Tracked where
  ranges := hempties.ranges
  free_iff := by
    intro i
    rw [hempties.free_iff, h.free_iff, hempties.shape, hempties.length]
    by_cases hi : InSpanRange owner cnt i
    · obtain ⟨shape, hshape⟩ := ne_none_iff_exists'.mp (hempties.occupied i hi)
      simp [hi, lt_of_shape hshape]
    · simp [hi]
  length_le := hempties.length ▸ h.length_le
  continued := by
    intro o n ho
    rw [hempties.shape] at ho
    split_ifs at ho
    refine ⟨(h.continued o n ho).1, ?_⟩
    intro ordinal hpos hlt
    have hold := (h.continued o n ho).2 ordinal hpos hlt
    rw [hempties.shape, if_neg, hold]
    rwa [hempties.whole _ _ _ hold]
  owned := by
    intro i o ordinal hi
    rw [hempties.shape] at hi
    split_ifs at hi
    obtain ⟨hpos, heq, n, ho, hlt⟩ := h.owned i o ordinal hi
    refine ⟨hpos, heq, n, ?_, hlt⟩
    rw [hempties.shape, if_neg, ho]
    rwa [← hempties.whole _ _ _ hi]
  live := by
    have hocc : t'.occupied = t.occupied \ Finset.Ico owner (owner + cnt) := by
      ext i
      rw [Finset.mem_sdiff, Finset.mem_Ico, mem_occupied, mem_occupied, hempties.shape]
      by_cases hi : InSpanRange owner cnt i
      · have hi' := hi
        unfold InSpanRange at hi'
        simp [hi, hi']
      · have hi' := hi
        unfold InSpanRange at hi'
        simp [hi, hi']
    have hsub : Finset.Ico owner (owner + cnt) ⊆ t.occupied := by
      intro i hi
      exact mem_occupied.mpr (hempties.occupied i (Finset.mem_Ico.mp hi))
    rw [hempties.live, h.live, hocc, Finset.card_sdiff_of_subset hsub, Nat.card_Ico]
    omega
  room := hempties.room

/-! ## Room for a free range -/

theorem Tracked.reserve (h : t.Tracked) (idx : Nat) :
    (t.reserveFreeRangeIfNeeded idx).2.Tracked := by
  obtain ⟨cap, alloc, heq, hcap, -, -⟩ := t.reserveFreeRangeIfNeeded_facts idx
  rw [heq]
  exact h.congr rfl (fun _ => rfl) rfl rfl hcap

/-! ## Emptying entries -/

@[simp] theorem length_vacate (t : SpanTable) (i : SpanId) :
    (t.vacate i).entries.length = t.entries.length := by
  exact length_modifyEntry ..

theorem shape_vacate (t : SpanTable) (span i : SpanId) :
    (t.vacate span).shape i = if span = i then none else t.shape i := by
  unfold shape
  rw [kind_vacate]
  split <;> rfl

theorem vacateRange_succ (t : SpanTable) (owner cnt : Nat) :
    t.vacateRange owner (cnt + 1) = (t.vacateRange owner cnt).vacate (owner + cnt) := by
  unfold vacateRange
  rw [range_succ, foldl_append]
  rfl

/-- Entries emptied one after the other. Only the first may need a range of its own: each
of the others joins the one before it. -/
structure Vacated (t : SpanTable) (owner count : Nat) (t' : SpanTable) : Prop where
  length : t'.entries.length = t.entries.length
  capacity : t'.freeRangesCapacity = t.freeRangesCapacity
  live : t'.liveSpans = t.liveSpans
  shape : ∀ i, t'.shape i = if InSpanRange owner count i then none else t.shape i
  ranges : RangesSound t'.freeRanges
  free_iff : ∀ i, IsFree t'.freeRanges i ↔ IsFree t.freeRanges i ∨ InSpanRange owner count i
  room : t'.freeRanges.length ≤ t.freeRangesCapacity

theorem vacated_vacateRange (hranges : RangesSound t.freeRanges) (hroom : t.freeRanges.length ≤
    t.freeRangesCapacity) (hreserved : adjacentFreeRange t.freeRanges owner = true ∨
    t.freeRanges.length + 1 ≤ t.freeRangesCapacity) (hocc : ∀ i, InSpanRange owner cnt i → ¬IsFree
    t.freeRanges i) : Vacated t owner cnt (t.vacateRange owner cnt) := by
  induction cnt with
  | zero =>
    have hempty : ∀ i, ¬InSpanRange owner 0 i := by
      intro i hi
      unfold InSpanRange at hi
      omega
    exact ⟨rfl, rfl, rfl, fun i => by rw [if_neg (hempty i)]; rfl, hranges,
      fun i => by simp [hempty, vacateRange], hroom⟩
  | succ cnt ih =>
    have hvacated := ih fun i hi => hocc i ⟨hi.1, Nat.lt_succ_of_lt hi.2⟩
    -- The first entry joins a range or has room; the others join the entry before them.
    have hreserved' : adjacentFreeRange (t.vacateRange owner cnt).freeRanges (owner + cnt) =
        true ∨ (t.vacateRange owner cnt).freeRanges.length + 1 ≤ t.freeRangesCapacity := by
      rcases eq_zero_or_pos cnt with rfl | hpos
      · exact hreserved
      · refine Or.inl ?_
        rw [← Bool.not_eq_false, adjacentFreeRange_eq_false]
        intro hapart
        obtain ⟨r, hr, hst, hl⟩ := (hvacated.free_iff (owner + cnt - 1)).mpr
          (Or.inr ⟨by omega, by omega⟩)
        have := hapart r hr
        omega
    rw [vacateRange_succ]
    generalize t.vacateRange owner cnt = s at hvacated hreserved' ⊢
    have hstep : ∀ i, InSpanRange owner (cnt + 1) i ↔
        InSpanRange owner cnt i ∨ i = owner + cnt := by
      unfold InSpanRange
      omega
    have hnew : ¬IsFree s.freeRanges (owner + cnt) := by
      rw [hvacated.free_iff]
      rintro (hfree | hin)
      · exact hocc _ ⟨Nat.le_add_right _ _, Nat.lt_succ_self _⟩ hfree
      · exact lt_irrefl _ hin.2
    have hinserts := insertsIndex_insertFreeSpan hvacated.ranges hnew
    refine ⟨(length_vacate _ _).trans hvacated.length, hvacated.capacity, hvacated.live, ?_,
      hinserts.sound, ?_, ?_⟩
    · intro i
      rw [shape_vacate, hvacated.shape]
      by_cases hi : owner + cnt = i
      · rw [if_pos hi, if_pos ((hstep i).mpr (Or.inr hi.symm))]
      · rw [if_neg hi]
        by_cases hin : InSpanRange owner cnt i
        · rw [if_pos hin, if_pos ((hstep i).mpr (Or.inl hin))]
        · rw [if_neg hin, if_neg]
          rw [hstep]
          rintro (h | h)
          · exact hin h
          · exact hi h.symm
    · intro i
      refine (hinserts.free_iff i).trans ?_
      rw [hvacated.free_iff, hstep]
      tauto
    · rcases hreserved' with hadjacent | hfits
      · exact le_trans (hinserts.joins hadjacent) hvacated.room
      · exact le_trans hinserts.length_le hfits

/-- Entries that were emptied after a reservation for the first of them. -/
theorem Tracked.empties {cap : Nat} {alloc : Allocator} {reserved : SpanTable}
    (h : t.Tracked) (owner cnt : Nat) (s : SpanTable)
    (heq : reserved = { t with freeRangesCapacity := cap, allocator := alloc })
    (hcap : t.freeRangesCapacity ≤ cap)
    (hreserved : adjacentFreeRange t.freeRanges owner = true ∨ t.freeRanges.length + 1 ≤ cap)
    (hs : s = reserved.vacateRange owner cnt)
    (hocc : ∀ i, InSpanRange owner cnt i → t.shape i ≠ none)
    (hwhole : ∀ i o ordinal : Nat, t.shape i = some (.largeContinuation o ordinal) →
      (InSpanRange owner cnt i ↔ InSpanRange owner cnt o))
    (hlen : t'.entries.length = s.entries.length) (hshape : ∀ i, t'.shape i = s.shape i)
    (hranges : t'.freeRanges = s.freeRanges) (hcap' : t'.freeRangesCapacity = s.freeRangesCapacity)
    (hlive : t'.liveSpans = s.liveSpans - cnt) : Empties t t' owner cnt := by
  subst hs
  have hvacated : Vacated reserved owner cnt (reserved.vacateRange owner cnt) := by
    subst heq
    refine vacated_vacateRange h.ranges (le_trans h.room hcap) hreserved ?_
    intro i hi hfree
    exact hocc i hi ((h.free_iff i).mp hfree).2
  have hbase : ∀ i, reserved.shape i = t.shape i := by
    subst heq
    exact fun i => rfl
  refine ⟨?_, ?_, hocc, hwhole, hranges ▸ hvacated.ranges, ?_, ?_, ?_⟩
  · rw [hlen, hvacated.length, heq]
  · intro i
    rw [hshape, hvacated.shape, hbase]
  · intro i
    rw [hranges, hvacated.free_iff, heq]
  · rw [hlive, hvacated.live, heq]
  · rw [hranges, hcap', hvacated.capacity]
    exact hvacated.room

variable {f : SpanEntry → SpanEntry}

/-- A change of links and flags keeps the shapes. -/
theorem shape_modifyEntry_of_kind (hf : ∀ ent : SpanEntry, (f ent).kind = ent.kind) (span i :
    SpanId) : (t.modifyEntry span f).shape i = t.shape i := by
  unfold shape
  rw [kind_modifyEntry_of_kind hf]

theorem shape_modifyKind {f : SpanKind → SpanKind} (hf : ∀ kind, (f kind).shape = kind.shape)
    (span i : SpanId) : (t.modifyKind span f).shape i = t.shape i := by
  unfold shape
  rw [kind_modifyKind]
  split
  · rw [Option.map_map]
    congr 1
    funext kind
    exact hf kind
  · rfl

variable {o ordinal : Nat}

/-- The entries of a range that is one span, or an owner with its continuations. -/
theorem Tracked.inSpanRange_small {span : Nat} (h : t.Tracked) (hsm : t.shape span = some .small)
    (hi : t.shape i = some (.largeContinuation o ordinal)) :
    InSpanRange span 1 i ↔ InSpanRange span 1 o := by
  obtain ⟨-, -, cnt, ho, -⟩ := h.owned i o ordinal hi
  have hne : i ≠ span := by
    rintro rfl
    rw [hi] at hsm
    cases hsm
  have hne' : o ≠ span := by
    rintro rfl
    rw [ho] at hsm
    cases hsm
  unfold InSpanRange
  constructor
  · intro hin
    exact absurd (show i = span by omega) hne
  · intro hin
    exact absurd (show o = span by omega) hne'

theorem Tracked.inSpanRange_large {span : Nat} (h : t.Tracked) (howner : t.shape span = some
    (.largeOwner cnt)) (hi : t.shape i = some (.largeContinuation o ordinal)) :
    InSpanRange span cnt i ↔ InSpanRange span cnt o := by
  obtain ⟨hpos, heq, n, ho, hlt⟩ := h.owned i o ordinal hi
  obtain ⟨hc, hcontinued⟩ := h.continued span cnt howner
  constructor
  · intro hin
    have hne : i ≠ span := by
      rintro rfl
      rw [hi] at howner
      cases howner
    have he := hcontinued (i - span) (by have := hin.1; omega) (by have := hin.2; omega)
    rw [Nat.add_sub_cancel' hin.1, hi] at he
    cases he
    exact ⟨le_refl _, by omega⟩
  · intro hin
    by_cases heq' : o = span
    · subst heq'
      rw [ho] at howner
      cases howner
      exact ⟨by omega, by omega⟩
    · -- Otherwise the owner would be a continuation itself.
      have he := hcontinued (o - span) (by have := hin.1; omega) (by have := hin.2; omega)
      rw [Nat.add_sub_cancel' hin.1, ho] at he
      cases he

theorem Tracked.release (h : t.Tracked) (span : SpanId) : (t.release span).2.Tracked := by
  rcases t.release_outcome span with ⟨e, cap, alloc, hcap, heq⟩ | ⟨s, reserved, hk, -, hres, heq⟩
  · rw [heq]
    exact h.congr rfl (fun _ => rfl) rfl rfl hcap
  · rw [heq]
    obtain ⟨cap, alloc, hreserved, hcap, hok, -⟩ := t.reserveFreeRangeIfNeeded_facts span
    rw [hres] at hreserved hok
    have hsm : t.shape span = some .small := by
      unfold shape
      rw [hk]
      rfl
    refine h.empty (h.empties span 1 (reserved.vacate span) hreserved hcap (hok rfl) rfl ?_
      (fun i o ordinal hi => h.inSpanRange_small hsm hi) (length_modifyEntry ..) ?_ rfl rfl rfl)
    · intro i hi
      have hspan : i = span := le_antisymm (Nat.le_of_lt_succ hi.2) hi.1
      rw [hspan, hsm]
      exact some_ne_none _
    · intro i
      have hflag : ((reserved.vacate span).modifyEntry span fun ent =>
          { ent with inEdenPool := false }).shape i = (reserved.vacate span).shape i := by
        apply shape_modifyEntry_of_kind
        intro ent
        rfl
      exact hflag

/-- Marks, cards, fields and cohorts do not matter. -/
theorem Tracked.modifyKind {f : SpanKind → SpanKind} (h : t.Tracked) (span : SpanId)
    (hf : ∀ kind, (f kind).shape = kind.shape) : (t.modifyKind span f).Tracked :=
  h.congr (length_modifyEntry ..) (shape_modifyKind hf span) rfl rfl (le_refl _)

theorem Tracked.unpublishLargeForDrop {ref : RawHeapRef} (h : t.Tracked)
    (hunpublish : t.unpublishLargeForDrop ref = .ok t') : t'.Tracked := by
  obtain ⟨s, -, rfl⟩ := unpublishLargeForDrop_eq_ok hunpublish
  apply h.modifyKind
  intro kind
  cases kind <;> rfl

theorem Tracked.releaseUnpublishedLarge (h : t.Tracked) (ref : RawHeapRef) :
    (t.releaseUnpublishedLarge ref).2.Tracked := by
  rcases t.releaseUnpublishedLarge_outcome ref with
    ⟨e, cap, alloc, hcap, heq⟩ | ⟨s, reclaim, reserved, hk, hres, heq⟩
  · rw [heq]
    exact h.congr rfl (fun _ => rfl) rfl rfl hcap
  · rw [heq]
    obtain ⟨cap, alloc, hreserved, hcap, hok, -⟩ := t.reserveFreeRangeIfNeeded_facts ref.spanId
    rw [hres] at hreserved hok
    have howner : t.shape ref.spanId = some (.largeOwner s.metadata.spanCount) := by
      unfold shape
      rw [hk]
      rfl
    refine h.empty (h.empties ref.spanId s.metadata.spanCount _ hreserved hcap (hok rfl)
      rfl ?_ (fun i o ordinal hi => h.inSpanRange_large howner hi) rfl (fun i => rfl) rfl rfl rfl)
    intro i hi
    rcases eq_or_lt_of_le hi.1 with heq' | hlt
    · rw [← heq', howner]
      exact some_ne_none _
    · have he := (h.continued _ _ howner).2 (i - ref.spanId) (by omega) (by have := hi.2; omega)
      rw [Nat.add_sub_cancel' hi.1] at he
      rw [he]
      exact some_ne_none _

theorem Tracked.reclaimLargeAfterDrop (h : t.Tracked) (ref : RawHeapRef) :
    (t.reclaimLargeAfterDrop ref).2.Tracked := by
  unfold SpanTable.reclaimLargeAfterDrop
  split
  · exact h
  · rcases t.kind ref.spanId with _ | ⟨s⟩ | s | ⟨owner, ordinal⟩
    · exact h
    · exact h
    · simp only
      split
      · exact h
      · have hrsv := h.reserve ref.spanId
        generalize t.reserveFreeRangeIfNeeded ref.spanId = res at hrsv ⊢
        obtain ⟨e | ⟨⟩, reserved⟩ := res
        · exact hrsv
        · simp only at hrsv ⊢
          rcases hunpublish : reserved.unpublishLargeForDrop ref with e | unpublished
          · exact hrsv
          · exact (hrsv.unpublishLargeForDrop hunpublish).releaseUnpublishedLarge ref
    · exact h

/-! ## Filling entries -/

theorem Tracked.linkRememberedSource (h : t.Tracked) (span : SpanId) :
    (t.linkRememberedSource span).Tracked := by
  refine h.congr ?_ (fun i => by unfold shape; rw [kind_linkRememberedSource]) ?_ ?_ ?_
  all_goals unfold SpanTable.linkRememberedSource
  · split
    · rfl
    · exact length_modifyEntry ..
  · split <;> rfl
  · split <;> rfl
  · split <;> exact le_refl _

theorem Tracked.linkYoungSpan (h : t.Tracked) (span : SpanId) : (t.linkYoungSpan span).Tracked := by
  refine h.congr ?_ (fun i => by unfold shape; rw [kind_linkYoungSpan]) ?_ ?_ ?_
  all_goals unfold SpanTable.linkYoungSpan
  · split
    · rfl
    · exact length_modifyEntry ..
  · split <;> rfl
  · split <;> rfl
  · split <;> exact le_refl _

theorem Tracked.publishSmall (h : t.Tracked) (span : SpanId) (space : SpanSpace) :
    (t.publishSmall span space).Tracked := by
  unfold SpanTable.publishSmall
  split
  · exact h
  · exact (h.linkYoungSpan span).congr rfl (fun _ => rfl) rfl rfl (le_refl _)

theorem shape_modifyEntry_of_lt (shape : SpanShape) {span : Nat} (hlt : span < t.entries.length) (hf
    : ∀ ent : SpanEntry, ((f ent).kind).map SpanKind.shape = some shape) (i : Nat) :
    (t.modifyEntry span f).shape i = if i = span then some shape else t.shape i := by
  unfold SpanTable.shape
  rw [kind_modifyEntry]
  by_cases hi : i = span
  · subst hi
    rw [if_pos rfl, if_pos rfl, getElem?_eq_getElem hlt]
    exact hf _
  · rw [if_neg (Ne.symm hi), if_neg hi]

variable {ranges : List FreeSpanRange}

/-- What became of the ranges when some of them were taken for a new range of entries. -/
theorem Tracked.fills_of_take (h : t.Tracked) (small : Bool) (hc : 0 < cnt) (hsingle : small = true
    → cnt = 1) (htake : TakesRange t.freeRanges owner cnt ranges) (hlen : t'.entries.length =
    t.entries.length) (hshape : ∀ i, t'.shape i = if InSpanRange owner cnt i then some (filledShape
    owner cnt small i) else t.shape i) (hranges : t'.freeRanges = ranges) (hlive : t'.liveSpans =
    t.liveSpans + cnt) (hcap : t'.freeRangesCapacity = t.freeRangesCapacity) :
    Fills t t' owner cnt small := by
  have hvac : ∀ i, InSpanRange owner cnt i → i < t.entries.length ∧ t.shape i = none :=
    fun i hi => (h.free_iff i).mp ((htake.free_iff i).mpr (Or.inl hi))
  refine ⟨hc, hsingle, ⟨le_of_eq hlen.symm, hlen ▸ h.length_le⟩, hshape, ?_, ?_,
    hranges ▸ htake.sound, ?_, hlive, ?_⟩
  · intro i hi
    exact ⟨(hvac i hi).2, hlen ▸ (hvac i hi).1⟩
  · intro i hle hlt
    exact absurd hlt (not_lt.mpr (hlen ▸ hle))
  · intro i
    rw [hranges, htake.free_iff]
    by_cases hi : InSpanRange owner cnt i
    · have := htake.taken i hi.1 hi.2
      tauto
    · unfold InSpanRange at hi ⊢
      tauto
  · rw [hranges, hcap]
    exact le_trans htake.length_le h.room

/-- Entries at the end of the table. -/
theorem Tracked.fills_of_append (h : t.Tracked) (cnt : Nat) (small : Bool) (hc : 0 < cnt)
    (hsingle : small = true → cnt = 1) (hlen : t'.entries.length = t.entries.length + cnt)
    (hbound : t.entries.length + cnt ≤ maxLogicalSpans)
    (hshape : ∀ i, t'.shape i = if InSpanRange t.entries.length cnt i then
      some (filledShape t.entries.length cnt small i) else t.shape i)
    (hranges : t'.freeRanges = t.freeRanges) (hlive : t'.liveSpans = t.liveSpans + cnt)
    (hcap : t'.freeRangesCapacity = t.freeRangesCapacity) :
    Fills t t' t.entries.length cnt small := by
  refine ⟨hc, hsingle, ⟨by omega, by omega⟩, hshape, ?_, ?_, hranges ▸ h.ranges, ?_, hlive, ?_⟩
  · intro i hi
    exact ⟨shape_eq_none_of_le hi.1, hlen ▸ hi.2⟩
  · intro i hle hlt
    exact ⟨hle, hlen ▸ hlt⟩
  · intro i
    rw [hranges]
    constructor
    · intro hfree
      refine ⟨hfree, ?_⟩
      intro hin
      exact absurd ((h.free_iff i).mp hfree).1 (not_lt.mpr hin.1)
    · exact fun hfree => hfree.1
  · rw [hranges, hcap]
    exact h.room

theorem reserveEntries_facts (t : SpanTable) (additional : Nat) :
    ∃ cap alloc, (t.reserveEntries additional).2 =
      { t with entriesCapacity := cap, allocator := alloc } := by
  unfold reserveEntries
  rcases reserveForAdditional t.entries.length t.entriesCapacity additional
    initialSpanTableCapacity maxLogicalSpans t.allocator with ⟨_ | cap, alloc⟩
  · exact ⟨_, _, rfl⟩
  · exact ⟨_, _, rfl⟩

theorem shape_append (t : SpanTable) (entries : List SpanEntry) (shapes : Nat → SpanShape)
    (hes : ∀ ordinal, ordinal < entries.length → ∃ ent, entries[ordinal]? = some ent ∧
      ent.kind.map SpanKind.shape = some (shapes ordinal)) (i : Nat) :
    ({ t with entries := t.entries ++ entries } : SpanTable).shape i =
      if InSpanRange t.entries.length entries.length i then some (shapes (i - t.entries.length))
      else t.shape i := by
  have hshape : ({ t with entries := t.entries ++ entries } : SpanTable).shape i =
      ((t.entries ++ entries)[i]?).bind fun ent => ent.kind.map SpanKind.shape := by
    unfold shape kind
    cases (t.entries ++ entries)[i]? <;> rfl
  rw [hshape]
  by_cases hlt : i < t.entries.length
  · rw [List.getElem?_append_left hlt, if_neg (fun hin => not_lt.mpr hin.1 hlt)]
    unfold shape kind
    cases t.entries[i]? <;> rfl
  · have hle := Nat.le_of_not_lt hlt
    rw [getElem?_append_right hle]
    by_cases hin : InSpanRange t.entries.length entries.length i
    · obtain ⟨ent, he, hk⟩ := hes (i - t.entries.length) (by have := hin.2; omega)
      rw [if_pos hin, he]
      exact hk
    · rw [if_neg hin, shape_eq_none_of_le hle, getElem?_eq_none]
      · rfl
      · unfold InSpanRange at hin
        omega

/-- A small span at a vacant index. -/
theorem Tracked.installReused {span : SpanId} (h : t.Tracked) (htake : TakesRange t.freeRanges span
    1 ranges) (sizeClass : SizeClass) (space : SpanSpace) :
    (({ t with freeRanges := ranges } : SpanTable).installReused span sizeClass space).Tracked := by
  have hfree := (h.free_iff span).mp
    ((htake.free_iff span).mpr (Or.inl ⟨le_refl _, Nat.lt_succ_self _⟩))
  refine h.fill (h.fills_of_take true one_pos (fun _ => rfl) htake
    (length_modifyEntry ..) ?_ rfl rfl rfl)
  intro i
  refine Eq.trans (shape_modifyEntry_of_lt .small hfree.1 (fun ent => rfl) i) ?_
  have hin : InSpanRange span 1 i ↔ i = span := by
    constructor
    · intro hi
      exact le_antisymm (Nat.le_of_lt_succ hi.2) hi.1
    · rintro rfl
      exact ⟨le_refl _, Nat.lt_succ_self _⟩
  by_cases hi : i = span
  · rw [if_pos hi, if_pos (hin.mpr hi)]
    rfl
  · rw [if_neg hi, if_neg (fun h => hi (hin.mp h))]

theorem Tracked.installNew (h : t.Tracked) (sizeClass : SizeClass) (space : SpanSpace) :
    (t.installNew sizeClass space).2.Tracked := by
  unfold SpanTable.installNew
  split
  · exact h
  · obtain ⟨cap, alloc, heq⟩ := t.reserveEntries_facts 1
    rcases hres : t.reserveEntries 1 with ⟨_ | _, reserved⟩
    · rw [hres] at heq
      subst heq
      exact h.congr rfl (fun _ => rfl) rfl rfl (le_refl _)
    · rw [hres] at heq
      subst heq
      have hle := h.length_le
      refine h.fill (h.fills_of_append 1 true one_pos (fun _ => rfl)
        (by simp) (by omega) ?_ rfl rfl rfl)
      intro i
      refine shape_append t
        [.new (.small { storage := .new 1, metadata := .new sizeClass space 0 })] (fun _ => .small)
        ?_ i
      intro ordinal hordinal
      obtain rfl : ordinal = 0 := by simpa using hordinal
      exact ⟨_, rfl, rfl⟩

theorem Tracked.tryAllocateSmall (h : t.Tracked) (sizeClass : SizeClass) (space : SpanSpace) :
    (t.tryAllocateSmall sizeClass space).2.Tracked := by
  have hcongr : ∀ alloc : Allocator, ({ t with allocator := alloc } : SpanTable).Tracked :=
    fun alloc => h.congr rfl (fun _ => rfl) rfl rfl (le_refl _)
  unfold SpanTable.tryAllocateSmall
  rcases t.allocator.request with ⟨_ | _, alloc⟩
  · exact hcongr alloc
  · simp only
    rcases alloc.request with ⟨_ | _, alloc'⟩
    · exact hcongr alloc'
    · have ht := hcongr alloc'
      rcases htake : takeFreeSpanRange 1 t.freeRanges with _ | ⟨span, ranges⟩
      · have hnew := ht.installNew sizeClass space
        simp only
        generalize SpanTable.installNew { t with allocator := alloc' } sizeClass space = res
          at hnew ⊢
        obtain ⟨e | span, tbl⟩ := res
        · exact hnew
        · exact hnew.publishSmall span space
      · exact (ht.installReused (takesRange_takeFreeSpanRange one_pos h.ranges htake) sizeClass
          space).publishSmall span space

theorem shape_largeKind (owner : SpanId) (storage : SpanStorage)
    (objectBytes spanCount generation ordinal : Nat) :
    (largeKind owner storage objectBytes spanCount generation ordinal).shape =
      filledShape owner spanCount false (owner + ordinal) := by
  unfold largeKind filledShape
  by_cases hz : ordinal = 0
  · subst hz
    simp [SpanKind.shape, LargeSpanMetadata.new]
  · simp [hz, SpanKind.shape]

/-- Owner and continuations are written into the taken entries one after the other. -/
theorem shape_installLargeRange_reused (storage : SpanStorage) (objectBytes spanCount : Nat)
    (hlength : owner + cnt ≤ t.entries.length) :
    let t' := (range cnt).foldl
      (fun (t : SpanTable) ordinal => t.modifyEntry (owner + ordinal) fun ent =>
        { ent with
          kind := some (largeKind owner storage objectBytes spanCount ent.generation ordinal) }) t
    t'.entries.length = t.entries.length ∧ t'.freeRanges = t.freeRanges ∧
      t'.freeRangesCapacity = t.freeRangesCapacity ∧ t'.liveSpans = t.liveSpans ∧
      ∀ i : Nat, t'.shape i =
        if InSpanRange owner cnt i then some (filledShape owner spanCount false i)
        else t.shape i := by
  induction cnt with
  | zero =>
    refine ⟨rfl, rfl, rfl, rfl, ?_⟩
    intro i
    rw [if_neg]
    · rfl
    · unfold InSpanRange
      omega
  | succ cnt ih =>
    obtain ⟨hlen, hranges, hcap, hlive, hshape⟩ := ih (by omega)
    rw [range_succ, foldl_append]
    simp only [foldl_cons, foldl_nil]
    refine ⟨(length_modifyEntry ..).trans hlen, hranges, hcap, hlive, ?_⟩
    intro i
    rw [shape_modifyEntry_of_lt (filledShape owner spanCount false (owner + cnt)) (by omega)
      (fun ent => by simp [shape_largeKind]), hshape]
    have hstep : InSpanRange owner (cnt + 1) i ↔ InSpanRange owner cnt i ∨ i = owner + cnt := by
      unfold InSpanRange
      omega
    by_cases hi : i = owner + cnt
    · rw [if_pos hi, if_pos (hstep.mpr (Or.inr hi)), hi]
    · rw [if_neg hi]
      by_cases hin : InSpanRange owner cnt i
      · rw [if_pos hin, if_pos (hstep.mpr (Or.inl hin))]
      · rw [if_neg hin, if_neg]
        tauto

/-- The shapes at the end of the table. -/
theorem shape_installLargeRange_append (t : SpanTable) (storage : SpanStorage)
    (objectBytes spanCount : Nat) (i : Nat) :
    (t.installLargeRange (.append t.entries.length) storage objectBytes spanCount).shape i =
      if InSpanRange t.entries.length spanCount i then
        some (filledShape t.entries.length spanCount false i) else t.shape i := by
  have happend := shape_append t ((range spanCount).map fun ordinal =>
      SpanEntry.new (largeKind t.entries.length storage objectBytes spanCount 0 ordinal))
    (fun ordinal => filledShape t.entries.length spanCount false (t.entries.length + ordinal))
    (by
      intro ordinal hordinal
      rw [length_map, length_range] at hordinal
      refine ⟨_, by rw [getElem?_map, getElem?_range hordinal]; rfl, ?_⟩
      simp [SpanEntry.new, shape_largeKind]) i
  refine Eq.trans happend ?_
  rw [length_map, length_range]
  split_ifs with hin
  · rw [Nat.add_sub_cancel' hin.1]
  · rfl

/-- The count of live spans and the links do not meet. -/
theorem installLarge_eq (t : SpanTable) (placement : SpanRangePlacement) (storage : SpanStorage)
    (objectBytes spanCount : Nat) :
    t.installLarge placement storage objectBytes spanCount =
      ({ t.installLargeRange placement storage objectBytes spanCount with
          liveSpans := (t.installLargeRange placement storage objectBytes spanCount).liveSpans +
            spanCount } : SpanTable).linkRememberedSource placement.owner := by
  unfold installLarge linkRememberedSource
  generalize t.installLargeRange placement storage objectBytes spanCount = s
  by_cases hin : s.isInRememberedSet placement.owner = true
  · have hin' : ({ s with liveSpans := s.liveSpans + spanCount } : SpanTable).isInRememberedSet
        placement.owner = true := hin
    rw [if_pos hin, if_pos hin']
  · have hin' : ¬({ s with liveSpans := s.liveSpans + spanCount } : SpanTable).isInRememberedSet
        placement.owner = true := hin
    rw [if_neg hin, if_neg hin']
    rfl

variable {layout : Layout} {header : GcHeader} {payload : List TraceField}
  {res : Except LargeAllocationError (RawHeapRef × Nat)}

/-- A large allocation keeps every entry, or fills a free range or the end of the table. -/
theorem tryAllocateLarge_cases (hal : t.tryAllocateLarge layout header payload = some (res, t')) :
    ∃ cap alloc, t' = { t with entriesCapacity := cap, allocator := alloc } ∨
      ∃ storage objectBytes spanCount, 0 < spanCount ∧
        ((∃ owner ranges, takeFreeSpanRange spanCount t.freeRanges = some (owner, ranges) ∧
          t' = { t with allocator := alloc, freeRanges := ranges }.installLarge (.reused owner)
            storage objectBytes spanCount) ∨
        t.entries.length + spanCount ≤ maxLogicalSpans ∧
          t' = { t with entriesCapacity := cap, allocator := alloc }.installLarge
            (.append t.entries.length) storage objectBytes spanCount) := by
  unfold SpanTable.tryAllocateLarge at hal
  generalize ObjectLayout.forPayloadLayout layout = obj at hal
  obtain e | obj := obj
  · cases hal
    exact ⟨_, _, Or.inl rfl⟩
  · simp only at hal
    split at hal
    · cases hal
      exact ⟨_, _, Or.inl rfl⟩
    · split at hal
      · cases hal
        exact ⟨_, _, Or.inl rfl⟩
      · have hc' : 0 < largeSpanCount obj := by omega
        generalize t.allocator.request = req at hal
        obtain ⟨_ | _, alloc⟩ := req
        · cases hal
          exact ⟨_, _, Or.inl rfl⟩
        · generalize (SpanStorage.new (largeSpanCount obj)).initializeObject firstOffset layout
            header payload = storage at hal
          simp only [reserveSpanRange] at hal
          rcases htake : takeFreeSpanRange (largeSpanCount obj) t.freeRanges with
            _ | ⟨owner, ranges⟩
          · rw [htake] at hal
            split_ifs at hal with hbound
            · cases hal
              exact ⟨_, _, Or.inl rfl⟩
            · obtain ⟨cap, alloc', heq⟩ :=
                reserveEntries_facts { t with allocator := alloc } (largeSpanCount obj)
              generalize SpanTable.reserveEntries { t with allocator := alloc }
                (largeSpanCount obj) = reserved at hal heq
              obtain ⟨_ | _, reserved⟩ := reserved
              · cases hal
                exact ⟨_, _, Or.inl heq⟩
              · obtain rfl : reserved = _ := heq
                obtain e | storage := storage
                · cases hal
                · cases hal
                  exact ⟨cap, alloc', Or.inr ⟨storage, _, _, hc',
                    Or.inr ⟨Nat.le_of_not_lt hbound, rfl⟩⟩⟩
          · rw [htake] at hal
            obtain e | storage := storage
            · cases hal
            · cases hal
              exact ⟨0, alloc, Or.inr ⟨storage, _, _, hc', Or.inl ⟨owner, ranges, htake, rfl⟩⟩⟩

theorem Tracked.tryAllocateLarge (h : t.Tracked) (hal : t.tryAllocateLarge layout header payload =
    some (res, t')) : t'.Tracked := by
  have hcongr : ∀ cap alloc,
      ({ t with entriesCapacity := cap, allocator := alloc } : SpanTable).Tracked :=
    fun _ _ => h.congr rfl (fun _ => rfl) rfl rfl (le_refl _)
  obtain ⟨cap, alloc, rfl | ⟨storage, objectBytes, spanCount, hc,
    ⟨owner, ranges, htake, rfl⟩ | ⟨hbound, rfl⟩⟩⟩ := tryAllocateLarge_cases hal
  · exact hcongr cap alloc
  · rw [installLarge_eq]
    apply linkRememberedSource
    have htakes := takesRange_takeFreeSpanRange hc h.ranges htake
    have hl := (h.free_iff (owner + spanCount - 1)).mp
      ((htakes.free_iff _).mpr (Or.inl ⟨by omega, by omega⟩))
    obtain ⟨hlen, hranges, hcap, hlive, hshape⟩ := @shape_installLargeRange_reused
      { t with allocator := alloc, freeRanges := ranges } owner spanCount storage objectBytes
      spanCount (by simp only; omega)
    refine h.fill (h.fills_of_take false hc (fun h => by cases h) htakes hlen hshape hranges
      ?_ hcap)
    exact congrArg (· + spanCount) hlive
  · rw [installLarge_eq]
    apply linkRememberedSource
    refine h.fill (h.fills_of_append spanCount false hc (fun h => by cases h) ?_ hbound ?_ rfl rfl
      rfl)
    · simp [SpanTable.installLargeRange]
    · exact shape_installLargeRange_append
        { t with entriesCapacity := cap, allocator := alloc } storage objectBytes spanCount

/-! ## Runs -/

/-- An operation on the entries of the table. -/
inductive TableOp where
  | allocateSmall (sizeClass : SizeClass) (space : SpanSpace)
  | release (span : SpanId)
  | allocateLarge (layout : Layout) (header : GcHeader) (payload : List TraceField)
  | unpublishLarge (reference : RawHeapRef)
  | releaseLarge (reference : RawHeapRef)
  | reclaimLarge (reference : RawHeapRef)

/-- One operation, whatever its outcome; `none` when the program ends. -/
def tableStep (t : SpanTable) : TableOp → Option SpanTable
  | .allocateSmall sizeClass space => some (t.tryAllocateSmall sizeClass space).2
  | .release span => some (t.release span).2
  | .allocateLarge layout header payload =>
    (t.tryAllocateLarge layout header payload).map Prod.snd
  | .unpublishLarge reference =>
    match t.unpublishLargeForDrop reference with
    | .error _ => some t
    | .ok t => some t
  | .releaseLarge reference => some (t.releaseUnpublishedLarge reference).2
  | .reclaimLarge reference => some (t.reclaimLargeAfterDrop reference).2

def runTable : List TableOp → SpanTable → Option SpanTable
  | [], t => some t
  | op :: ops, t => (t.tableStep op).bind (runTable ops)

theorem Tracked.new (alloc : Allocator) : (SpanTable.new alloc).Tracked where
  ranges := .nil
  free_iff := by
    intro i
    constructor
    · exact fun h => absurd h (isFree_nil i)
    · rintro ⟨hlt, -⟩
      exact absurd hlt (Nat.not_lt_zero i)
  length_le := Nat.zero_le _
  continued := fun _ _ h => by cases h
  owned := fun _ _ _ h => by cases h
  live := rfl
  room := Nat.zero_le _

theorem Tracked.tableStep {op : TableOp} (h : t.Tracked) (hstep : t.tableStep op = some t') :
    t'.Tracked := by
  cases op with
  | allocateSmall sizeClass space =>
    cases hstep
    exact h.tryAllocateSmall sizeClass space
  | release span =>
    cases hstep
    exact h.release span
  | allocateLarge layout header payload =>
    obtain ⟨⟨res, tbl⟩, hal, rfl⟩ := map_eq_some_iff.mp hstep
    exact h.tryAllocateLarge hal
  | unpublishLarge ref =>
    simp only [SpanTable.tableStep] at hstep
    rcases hunpublish : t.unpublishLargeForDrop ref with e | tbl
    · rw [hunpublish] at hstep
      cases hstep
      exact h
    · rw [hunpublish] at hstep
      cases hstep
      exact h.unpublishLargeForDrop hunpublish
  | releaseLarge ref =>
    cases hstep
    exact h.releaseUnpublishedLarge ref
  | reclaimLarge ref =>
    cases hstep
    exact h.reclaimLargeAfterDrop ref

theorem Tracked.runTable {ops : List TableOp} (h : t.Tracked) (hrun : runTable ops t = some t') :
    t'.Tracked := by
  induction ops generalizing t with
  | nil =>
    cases hrun
    exact h
  | cons op ops ih =>
    obtain ⟨next, hstep, hrest⟩ := bind_eq_some_iff.mp hrun
    exact ih (h.tableStep hstep) hrest

/-- Room for one more range is refused by the allocator only, and what was reserved is
enough for the release. -/
theorem Tracked.room_for_release (h : t.Tracked) (hi : t.shape i ≠ none) :
    (insertFreeSpan t.freeRanges i).length ≤ maxFreeSpanRanges ∧
      ((t.reserveFreeRangeIfNeeded i).1 ≠ .ok () → t.allocator.request.1 = false) ∧
      ((t.reserveFreeRangeIfNeeded i).1 = .ok () → (insertFreeSpan t.freeRanges i).length ≤
          (t.reserveFreeRangeIfNeeded i).2.freeRangesCapacity) := by
  have hfree : ¬IsFree t.freeRanges i := fun hfree => hi ((h.free_iff i).mp hfree).2
  have hinserts := insertsIndex_insertFreeSpan h.ranges hfree
  obtain ⟨shape, hshape⟩ := ne_none_iff_exists'.mp hi
  have hbound : 2 * (insertFreeSpan t.freeRanges i).length ≤ maxLogicalSpans + 1 - 0 := by
    apply hinserts.sound.length_le fun _ _ => Nat.zero_le _
    intro range hrange
    have hl : IsFree (insertFreeSpan t.freeRanges i) range.last :=
      ⟨range, hrange, hinserts.sound.nonempty range hrange, le_refl _⟩
    rcases (hinserts.free_iff _).mp hl with heq | hl
    · exact heq ▸ lt_of_lt_of_le (lt_of_shape hshape) h.length_le
    · exact lt_of_lt_of_le ((h.free_iff _).mp hl).1 h.length_le
  have hmaximum : (insertFreeSpan t.freeRanges i).length ≤ maxFreeSpanRanges := by
    unfold maxFreeSpanRanges
    omega
  obtain ⟨cap, alloc, heq, hcap, hok, herr⟩ := t.reserveFreeRangeIfNeeded_facts i
  refine ⟨hmaximum, ?_, ?_⟩
  · intro hres
    obtain ⟨hapart, href⟩ := herr hres
    apply href
    -- An index that joins no range makes one more.
    rw [← hinserts.length_of_apart hapart]
    exact hmaximum
  · intro hres
    rw [heq]
    rcases hok hres with hadjacent | hroom
    · exact le_trans (le_trans (hinserts.joins hadjacent) h.room) hcap
    · exact le_trans hinserts.length_le hroom

/-- After any operations on an empty table, each with any outcome, the free ranges are
sorted, coalesced and exactly the vacant entries, large ranges are whole, and live spans
are counted. The ranges never outgrow their vector: a reservation before the release of
an occupied entry is refused by the allocator only, and it is enough for the release. -/
theorem runTable_tracked {alloc : Allocator} {ops : List TableOp} {t : SpanTable}
    (hrun : runTable ops (.new alloc) = some t) :
    t.Tracked ∧ t.freeRanges.length ≤ maxFreeSpanRanges ∧
      ∀ i, t.shape i ≠ none → (insertFreeSpan t.freeRanges i).length ≤ maxFreeSpanRanges ∧
        ((t.reserveFreeRangeIfNeeded i).1 ≠ .ok () → t.allocator.request.1 = false) ∧
        ((t.reserveFreeRangeIfNeeded i).1 = .ok () → (insertFreeSpan t.freeRanges i).length ≤
            (t.reserveFreeRangeIfNeeded i).2.freeRangesCapacity) := by
  have htracked := (Tracked.new alloc).runTable hrun
  exact ⟨htracked, htracked.ranges_length_le, fun i hi => htracked.room_for_release hi⟩

/-- Three small spans of which two are released, a large object behind them, and the rest
released from the middle. -/
def trackedRun : List TableOp := [.allocateSmall ⟨32, by decide, by decide, by decide⟩ .eden,
   .allocateSmall ⟨32, by decide, by decide, by decide⟩ .eden,
   .allocateSmall ⟨32, by decide, by decide, by decide⟩ .old,
   .release 0, .release 2,
   .allocateLarge { size := 65536, align := 8 } (.new ⟨1, Nat.one_pos⟩ 0 0) [],
   .release 1, .reclaimLarge ⟨3, firstOffset⟩]

theorem runTable_tracked_trackedRun :
    ∃ t, runTable trackedRun (.new .granting) = some t ∧ t.Tracked ∧
      t.freeRanges = [{ start := 0, last := 4 }] ∧ t.liveSpans = 0 := by
  have hranges : ((runTable trackedRun (.new .granting)).map fun t => (t.freeRanges, t.liveSpans)) =
      some ([{ start := 0, last := 4 }], 0) := rfl
  rcases hrun : runTable trackedRun (.new .granting) with _ | t
  · rw [hrun] at hranges
    cases hranges
  · rw [hrun] at hranges
    simp only [map_some, some.injEq, Prod.mk.injEq] at hranges
    exact ⟨t, rfl, (runTable_tracked hrun).1, hranges⟩

end SpanTable

end TachyonEngine.Gc
