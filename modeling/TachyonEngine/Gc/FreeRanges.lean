import TachyonEngine.Gc.Publication

/-!
# Free ranges

The coalesced ranges of vacant indices. A list of ranges is sound when no range is empty
and every range ends at least two indices before the next one begins, so that it is
sorted, disjoint and fully coalesced. Taking a range takes exactly its indices away,
inserting an index adds exactly that one, and both keep the list sound.
-/

namespace TachyonEngine.Gc

open List

/-- The index lies in the range. -/
def FreeSpanRange.Contains (range : FreeSpanRange) (idx : Nat) : Prop :=
  range.start ≤ idx ∧ idx ≤ range.last

/-- The index lies in one of the ranges. -/
def IsFree (ranges : List FreeSpanRange) (idx : Nat) : Prop :=
  ∃ range ∈ ranges, range.Contains idx

/-- Two ranges in order that cannot be joined. -/
def FreeSpanRange.Before (left right : FreeSpanRange) : Prop := left.last + 1 < right.start

/-- Sorted, disjoint and coalesced ranges. -/
structure RangesSound (ranges : List FreeSpanRange) : Prop where
  nonempty : ∀ range ∈ ranges, range.start ≤ range.last
  separated : ranges.Pairwise FreeSpanRange.Before

theorem RangesSound.nil : RangesSound [] := ⟨fun _ h => absurd h not_mem_nil, .nil⟩

@[simp] theorem isFree_nil (idx : Nat) : ¬IsFree [] idx := by
  rintro ⟨range, h, -⟩
  exact absurd h not_mem_nil

@[simp] theorem isFree_cons (range : FreeSpanRange) (ranges : List FreeSpanRange) (idx : Nat) :
    IsFree (range :: ranges) idx ↔ range.Contains idx ∨ IsFree ranges idx := by
  unfold IsFree
  simp only [mem_cons, exists_eq_or_imp]

@[simp] theorem isFree_append (front back : List FreeSpanRange) (idx : Nat) :
    IsFree (front ++ back) idx ↔ IsFree front idx ∨ IsFree back idx := by
  unfold IsFree
  simp only [mem_append, or_and_right, exists_or]

namespace RangesSound

variable {range : FreeSpanRange} {ranges front back olds : List FreeSpanRange} {idx : Nat}

theorem tail (h : RangesSound (range :: ranges)) : RangesSound ranges where
  nonempty := fun r hr => h.nonempty r (mem_cons_of_mem _ hr)
  separated := (pairwise_cons.mp h.separated).2

theorem cons (h : RangesSound ranges) (hrange : range.start ≤ range.last)
    (hb : ∀ r ∈ ranges, range.Before r) : RangesSound (range :: ranges) where
  nonempty := by
    intro r hr
    rcases mem_cons.mp hr with rfl | hr
    · exact hrange
    · exact h.nonempty r hr
  separated := pairwise_cons.mpr ⟨hb, h.separated⟩

theorem of_append (h : RangesSound (front ++ back)) :
    RangesSound front ∧ RangesSound back ∧ ∀ f ∈ front, ∀ b ∈ back, f.Before b := by
  obtain ⟨hfront, hback, hcross⟩ := pairwise_append.mp h.separated
  exact ⟨⟨fun r hr => h.nonempty r (mem_append_left _ hr), hfront⟩,
    ⟨fun r hr => h.nonempty r (mem_append_right _ hr), hback⟩, hcross⟩

theorem append (hfront : RangesSound front) (hback : RangesSound back)
    (hcross : ∀ f ∈ front, ∀ b ∈ back, f.Before b) : RangesSound (front ++ back) where
  nonempty := by
    exact forall_mem_append.mpr ⟨hfront.nonempty, hback.nonempty⟩
  separated := pairwise_append.mpr ⟨hfront.separated, hback.separated, hcross⟩

/-- Sound ranges below a bound leave every second index at most to the ranges. -/
theorem length_le {low high : Nat} (h : RangesSound ranges)
    (hlow : ∀ r ∈ ranges, low ≤ r.start) (hhigh : ∀ r ∈ ranges, r.last < high) :
    2 * ranges.length ≤ high + 1 - low := by
  induction ranges generalizing low with
  | nil => simp
  | cons range ranges ih =>
    have hrange := h.nonempty range (mem_cons_self ..)
    have hst := hlow range (mem_cons_self ..)
    have hl := hhigh range (mem_cons_self ..)
    have hrest : 2 * ranges.length ≤ high + 1 - (range.last + 2) :=
      ih h.tail (fun r hr => (pairwise_cons.mp h.separated).1 r hr)
        (fun r hr => hhigh r (mem_cons_of_mem _ hr))
    simp only [length_cons]
    omega

end RangesSound

/-! ## Taking a range -/

/-- What taking `count` indices from `owner` on did with the ranges. -/
structure TakesRange (ranges : List FreeSpanRange) (owner count : Nat)
    (ranges' : List FreeSpanRange) : Prop where
  sound : RangesSound ranges'
  free_iff : ∀ i, IsFree ranges i ↔ (owner ≤ i ∧ i < owner + count) ∨ IsFree ranges' i
  taken : ∀ i, owner ≤ i → i < owner + count → ¬IsFree ranges' i
  length_le : ranges'.length ≤ ranges.length
  /-- No range begins earlier than one did. -/
  low : ∀ low, (∀ r ∈ ranges, low ≤ r.start) → ∀ r ∈ ranges', low ≤ r.start

variable {ranges : List FreeSpanRange}

theorem takesRange_takeFreeSpanRange {cnt : Nat} {ranges' : List FreeSpanRange} {owner : SpanId} (hc
    : 0 < cnt) (hranges : RangesSound ranges) (h : takeFreeSpanRange cnt ranges = some (owner,
    ranges')) : TakesRange ranges owner cnt ranges' := by
  induction ranges generalizing owner ranges' with
  | nil => cases h
  | cons range rest ih =>
    have hrange := hranges.nonempty range (mem_cons_self ..)
    have hb := (pairwise_cons.mp hranges.separated).1
    unfold takeFreeSpanRange at h
    cases htake : takeFreeSpanRange cnt rest with
    | some found =>
      rw [htake] at h
      cases h
      have hrest := ih hranges.tail htake
      -- What the taken indices leave behind still begins behind the first range.
      have hlow := hrest.low (range.last + 2) hb
      refine ⟨hrest.sound.cons hrange hlow, ?_, ?_, ?_, ?_⟩
      · intro i
        rw [isFree_cons, isFree_cons, hrest.free_iff]
        exact or_left_comm
      · intro i hi hi'
        rw [isFree_cons]
        rintro (hcon | hfree)
        · obtain ⟨r, hr, hcon'⟩ := (hrest.free_iff i).mpr (Or.inl ⟨hi, hi'⟩)
          have hb' := hb r hr
          unfold FreeSpanRange.Before at hb'
          unfold FreeSpanRange.Contains at hcon hcon'
          omega
        · exact hrest.taken i hi hi' hfree
      · simpa using hrest.length_le
      · intro low hall r hr
        rcases mem_cons.mp hr with rfl | hr
        · exact hall r (mem_cons_self ..)
        · exact hrest.low low (fun r hr => hall r (mem_cons_of_mem _ hr)) r hr
    | none =>
      rw [htake] at h
      simp only at h
      split at h
      · -- The indices behind this range are behind the taken ones too.
        have hbehind : ∀ i, IsFree rest i → range.last + 1 < i := by
          rintro i ⟨r, hr, hcon⟩
          have hb' := hb r hr
          unfold FreeSpanRange.Before at hb'
          unfold FreeSpanRange.Contains at hcon
          omega
        split at h
        · cases h
          refine ⟨hranges.tail, ?_, ?_, Nat.le_succ _, ?_⟩
          · intro i
            rw [isFree_cons]
            unfold FreeSpanRange.Contains
            constructor
            · rintro (hi | hi)
              · exact Or.inl (by omega)
              · exact Or.inr hi
            · rintro (hi | hi)
              · exact Or.inl (by omega)
              · exact Or.inr hi
          · intro i hi hi' hfree
            have := hbehind i hfree
            omega
          · intro low hall r hr
            exact hall r (mem_cons_of_mem _ hr)
        · cases h
          refine ⟨hranges.tail.cons (by simp only; omega) ?_, ?_, ?_, by simp, ?_⟩
          · intro r hr
            have := hb r hr
            unfold FreeSpanRange.Before at this ⊢
            simp only
            omega
          · intro i
            rw [isFree_cons, isFree_cons]
            unfold FreeSpanRange.Contains
            simp only
            constructor
            · rintro (hi | hi)
              · by_cases hlt : i < range.last + 1 - cnt
                · exact Or.inr (Or.inl (by omega))
                · exact Or.inl (by omega)
              · exact Or.inr (Or.inr hi)
            · rintro (hi | hi | hi)
              · exact Or.inl (by omega)
              · exact Or.inl (by omega)
              · exact Or.inr hi
          · intro i hi hi'
            rw [isFree_cons]
            unfold FreeSpanRange.Contains
            simp only
            rintro (hi'' | hi'')
            · omega
            · have := hbehind i hi''
              omega
          · intro low hall r hr
            rcases mem_cons.mp hr with rfl | hr
            · exact hall range (mem_cons_self ..)
            · exact hall r (mem_cons_of_mem _ hr)
      · cases h

/-! ## Inserting an index -/

/-- What inserting an index did with the ranges. -/
structure InsertsIndex (ranges : List FreeSpanRange) (idx : Nat) (ranges' : List FreeSpanRange) :
    Prop where
  sound : RangesSound ranges'
  free_iff : ∀ i, IsFree ranges' i ↔ i = idx ∨ IsFree ranges i
  length_le : ranges'.length ≤ ranges.length + 1
  joins : adjacentFreeRange ranges idx = true → ranges'.length ≤ ranges.length
  length_of_apart : adjacentFreeRange ranges idx = false → ranges'.length = ranges.length + 1

variable {idx : Nat}

/-- One range takes the place of some others and has one index more. -/
theorem insertsIndex_replace (front olds back : List FreeSpanRange) {range : FreeSpanRange} (hranges
    : RangesSound (front ++ (olds ++ back))) (hrange : range.start ≤ range.last) (hcon : ∀ i,
    range.Contains i ↔ i = idx ∨ IsFree olds i) (hfront : ∀ f ∈ front, f.Before range) (hback : ∀ b
    ∈ back, range.Before b) (hjoins : olds = [] ↔ adjacentFreeRange (front ++ (olds ++ back)) idx =
    false) : InsertsIndex (front ++ (olds ++ back)) idx (front ++ range :: back) := by
  obtain ⟨hfront', hrest, hcross⟩ := hranges.of_append
  obtain ⟨-, hback', -⟩ := hrest.of_append
  refine ⟨hfront'.append (hback'.cons hrange hback) ?_, ?_, ?_, ?_, ?_⟩
  · intro f hf b hb
    rcases mem_cons.mp hb with rfl | hb
    · exact hfront f hf
    · exact hcross f hf b (mem_append_right _ hb)
  · simp only [isFree_append, isFree_cons, hcon]
    tauto
  · simp only [length_append, length_cons]
    omega
  · intro hadjacent
    cases olds with
    | nil =>
      rw [hjoins.mp rfl] at hadjacent
      cases hadjacent
    | cons old olds =>
      simp only [length_append, length_cons]
      omega
  · intro hapart
    rw [hjoins.mpr hapart]
    simp only [nil_append, length_append, length_cons]
    omega

theorem adjacentFreeRange_eq_false :
    adjacentFreeRange ranges idx = false ↔ ∀ r ∈ ranges, idx + 1 < r.start ∨ r.last + 1 < idx := by
  unfold adjacentFreeRange
  rw [any_eq_false]
  constructor
  · intro h r hr
    have := h r hr
    simp only [Bool.and_eq_true, decide_eq_true_eq] at this
    omega
  · intro h r hr
    have := h r hr
    simp only [Bool.and_eq_true, decide_eq_true_eq]
    omega

/-- An index that meets a range is adjacent to one. -/
theorem adjacentFreeRange_of_meets {front olds back : List FreeSpanRange} {old : FreeSpanRange}
    (hold : old.start ≤ old.last) (hmeets : old.last + 1 = idx ∨ idx + 1 = old.start) :
    old :: olds = [] ↔ adjacentFreeRange (front ++ (old :: olds ++ back)) idx = false := by
  refine ⟨fun h => absurd h (cons_ne_nil _ _), ?_⟩
  intro hapart
  have := adjacentFreeRange_eq_false.mp hapart old (by simp)
  omega

section Neighbours

variable {front behind : List FreeSpanRange} {left right : FreeSpanRange} {idx : Nat}

/-- An index that meets no range is a range of its own. -/
theorem insertsIndex_between (hranges : RangesSound (front ++ behind))
    (hfront : ∀ f ∈ front, f.last + 1 < idx) (hbehind : ∀ b ∈ behind, idx + 1 < b.start) :
    InsertsIndex (front ++ behind) idx (front ++ { start := idx, last := idx } :: behind) := by
  refine insertsIndex_replace front [] behind hranges (le_refl _) ?_ hfront hbehind ?_
  · simp only [isFree_nil, or_false]
    unfold FreeSpanRange.Contains
    simp only
    omega
  · refine ⟨fun _ => ?_, fun _ => rfl⟩
    rw [adjacentFreeRange_eq_false]
    exact forall_mem_append.mpr ⟨fun r hr => Or.inr (hfront r hr), fun r hr => Or.inl (hbehind
      r hr)⟩

theorem insertsIndex_left (hranges : RangesSound (front ++ ([left] ++ behind)))
    (hl : left.last + 1 = idx) (hbehind : ∀ b ∈ behind, idx + 1 < b.start) :
    InsertsIndex (front ++ ([left] ++ behind)) idx
      (front ++ { left with last := idx } :: behind) := by
  have hnonempty := hranges.nonempty left (by simp)
  refine insertsIndex_replace front [left] behind hranges ?_ ?_ ?_ hbehind
    (adjacentFreeRange_of_meets hnonempty (Or.inl hl))
  · simp only
    omega
  · simp only [isFree_cons, isFree_nil, or_false]
    unfold FreeSpanRange.Contains
    simp only
    omega
  · intro f hf
    exact hranges.of_append.2.2 f hf left (by simp)

theorem insertsIndex_right (hranges : RangesSound (front ++ ([right] ++ behind)))
    (hr : idx + 1 = right.start) (hfront : ∀ f ∈ front, f.last + 1 < idx) :
    InsertsIndex (front ++ ([right] ++ behind)) idx
      (front ++ { right with start := idx } :: behind) := by
  have hnonempty := hranges.nonempty right (by simp)
  refine insertsIndex_replace front [right] behind hranges ?_ ?_ hfront ?_
    (adjacentFreeRange_of_meets hnonempty (Or.inr hr))
  · simp only
    omega
  · simp only [isFree_cons, isFree_nil, or_false]
    unfold FreeSpanRange.Contains
    simp only
    omega
  · intro b hb
    exact hranges.of_append.2.1.of_append.2.2 right (mem_singleton_self _) b hb

/-- An index between two ranges joins them. -/
theorem insertsIndex_join (hranges : RangesSound (front ++ ([left, right] ++ behind)))
    (hl : left.last + 1 = idx) (hr : idx + 1 = right.start) :
    InsertsIndex (front ++ ([left, right] ++ behind)) idx
      (front ++ { left with last := right.last } :: behind) := by
  have hnonempty := hranges.nonempty left (by simp)
  have hnonempty' := hranges.nonempty right (by simp)
  refine insertsIndex_replace front [left, right] behind hranges ?_ ?_ ?_ ?_
    (adjacentFreeRange_of_meets hnonempty (Or.inl hl))
  · simp only
    omega
  · simp only [isFree_cons, isFree_nil, or_false]
    unfold FreeSpanRange.Contains
    simp only
    omega
  · intro f hf
    exact hranges.of_append.2.2 f hf left (by simp)
  · intro b hb
    exact hranges.of_append.2.1.of_append.2.2 right (by simp) b hb

end Neighbours

theorem insertsIndex_insertFreeSpan (hranges : RangesSound ranges) (hi : ¬IsFree ranges idx) :
    InsertsIndex ranges idx (insertFreeSpan ranges idx) := by
  -- The ranges are those that end before the index and those that begin behind it.
  have hsplit := (@List.takeWhile_append_dropWhile _ (fun range => range.start < idx) ranges).symm
  have hbf : ∀ f ∈ ranges.takeWhile (fun range => range.start < idx), f.start < idx := by
    intro f hf
    simpa using all_eq_true.mp all_takeWhile f hf
  have hhead : ∀ b, (ranges.dropWhile (fun range => range.start < idx)).head? = some b →
      ¬b.start < idx := by
    intro b hb
    have hnot := head?_dropWhile_not (fun range : FreeSpanRange => range.start < idx) ranges
    rw [hb] at hnot
    simpa using hnot
  unfold insertFreeSpan
  simp only
  generalize ranges.takeWhile (fun range => range.start < idx) = pre at hsplit hbf ⊢
  generalize ranges.dropWhile (fun range => range.start < idx) = behind at hsplit hhead ⊢
  subst hsplit
  have hends : ∀ f ∈ pre, f.last < idx := by
    intro f hf
    apply Nat.lt_of_not_le
    intro hle
    exact hi ⟨f, mem_append_left _ hf, le_of_lt (hbf f hf), hle⟩
  have hbegins : ∀ b ∈ behind, idx < b.start := by
    cases behind with
    | nil => exact fun b hb => absurd hb not_mem_nil
    | cons right rest =>
      have hr := hranges.nonempty right (by simp)
      have hst : idx < right.start := by
        apply lt_of_le_of_ne (Nat.le_of_not_lt (hhead right rfl))
        intro heq
        exact hi ⟨right, by simp, le_of_eq heq.symm, heq ▸ hr⟩
      intro b hb
      rcases mem_cons.mp hb with rfl | hb
      · exact hst
      · have hsep := (pairwise_cons.mp hranges.of_append.2.1.separated).1 b hb
        unfold FreeSpanRange.Before at hsep
        omega
  -- A range that cannot be joined leaves an index free on its side.
  have hbehind : ∀ right rest, behind = right :: rest → idx + 1 ≠ right.start →
      ∀ b ∈ behind, idx + 1 < b.start := by
    rintro right rest rfl hne b hb
    have hst := hbegins right (mem_cons_self ..)
    rcases mem_cons.mp hb with rfl | hb
    · omega
    · have hsep := (pairwise_cons.mp hranges.of_append.2.1.separated).1 b hb
      have hr := hranges.nonempty right (by simp)
      unfold FreeSpanRange.Before at hsep
      omega
  cases hl : pre.getLast? with
  | none =>
    have hnil : pre = [] := getLast?_eq_none_iff.mp hl
    subst hnil
    have hfront : ∀ f ∈ ([] : List FreeSpanRange), f.last + 1 < idx :=
      fun f hf => absurd hf not_mem_nil
    cases behind with
    | nil => exact insertsIndex_between hranges hfront fun b hb => absurd hb not_mem_nil
    | cons right rest =>
      simp only
      split_ifs with hr
      · exact insertsIndex_right hranges hr hfront
      · exact insertsIndex_between hranges hfront (hbehind right rest rfl hr)
  | some left =>
    have hbf' : pre = pre.dropLast ++ [left] := (dropLast_append_getLast? left hl).symm
    generalize pre.dropLast = front at hbf' ⊢
    subst hbf'
    have hranges' := hranges
    rw [append_assoc] at hranges'
    have hleftmost := hranges.nonempty left (by simp)
    have hfront : left.last + 1 ≠ idx → ∀ f ∈ front ++ [left], f.last + 1 < idx := by
      intro hne f hf
      have hend := hends left (by simp)
      rcases mem_append.mp hf with hf | hf
      · have hsep := hranges.of_append.1.of_append.2.2 f hf left (mem_singleton_self _)
        unfold FreeSpanRange.Before at hsep
        omega
      · rw [mem_singleton.mp hf]
        omega
    cases behind with
    | nil =>
      simp only
      split_ifs with hleft
      · rw [append_assoc]
        exact insertsIndex_left hranges' hleft fun b hb => absurd hb not_mem_nil
      · exact insertsIndex_between hranges (hfront hleft) fun b hb => absurd hb not_mem_nil
    | cons right rest =>
      simp only
      split
      next hleft =>
        rw [append_assoc]
        split_ifs with hr
        · exact insertsIndex_join hranges' hleft hr
        · exact insertsIndex_left hranges' hleft (hbehind right rest rfl hr)
      next hleft =>
        split_ifs with hr
        · exact insertsIndex_right hranges hr (hfront hleft)
        · exact insertsIndex_between hranges (hfront hleft) (hbehind right rest rfl hr)

end TachyonEngine.Gc
