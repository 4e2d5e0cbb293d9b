import Mathlib.Data.Finset.Card

/-!
# Linear probing over an array of entries

A hash table of this kind keeps its entries apart from its buckets: a bucket is empty, a tombstone,
or the index of an entry, and a key is looked for along a path of buckets up to the first empty one.
A key is stored in the first tombstone of its path, or in the empty bucket at the end.

The entries that no key uses form a list that runs through an array of successors.
-/

namespace TachyonEngine.Lib.Probing

open List Function

universe u

variable {K : Type u}

inductive Bucket where
  | empty
  | tombstone
  | entry (idx : Nat)
  deriving DecidableEq

/-- The buckets from a start on, around the end of the array. -/
def path (start size : Nat) : List Nat :=
  (List.range size).map fun distance => (start + distance) % size

theorem mem_path {start size pos : Nat} : pos ∈ path start size ↔ pos < size := by
  rw [path, mem_map]
  constructor
  · rintro ⟨distance, hdist, rfl⟩
    rw [mem_range] at hdist
    exact Nat.mod_lt _ (by omega)
  · intro hpos
    -- the distance from the start, which stands somewhere in an earlier round
    refine ⟨(pos + (size - start % size)) % size, ?_, ?_⟩
    · rw [mem_range]
      exact Nat.mod_lt _ (by omega)
    · have hst : start % size < size := Nat.mod_lt _ (by omega)
      rw [Nat.add_mod_mod, ← Nat.mod_add_mod]
      have hsum : start % size + (pos + (size - start % size)) = pos + size := by omega
      rw [hsum, Nat.add_mod_right, Nat.mod_eq_of_lt hpos]

section Loops

variable (bucketAt : Nat → Bucket)

/-- The first bucket along a path with an entry that hits, and the entry. -/
def find (hits : Nat → Bool) : List Nat → Option (Nat × Nat)
  | [] => none
  | pos :: rest =>
    match bucketAt pos with
    | .empty => none
    | .entry idx => if hits idx then some (pos, idx) else find hits rest
    | .tombstone => find hits rest

/-- The bucket for a new key. The first tombstone of the path is kept on the way. -/
def insertion : Option Nat → List Nat → Option Nat
  | tombstone, [] => tombstone
  | tombstone, pos :: rest =>
    match bucketAt pos with
    | .empty => some (tombstone.getD pos)
    | .tombstone => insertion (tombstone.or (some pos)) rest
    | .entry _ => insertion tombstone rest

/-- A position of a path that has no empty bucket in front of it. -/
inductive Reaches : List Nat → Nat → Prop where
  | here (pos : Nat) (rest : List Nat) : Reaches (pos :: rest) pos
  | next {skipped pos : Nat} {rest : List Nat} (hskipped : bucketAt skipped ≠ .empty)
      (hrest : Reaches rest pos) : Reaches (skipped :: rest) pos

/-- A bucket that a new key may take. -/
def Free (pos : Nat) : Prop := bucketAt pos = .empty ∨ bucketAt pos = .tombstone

end Loops

section Paths

variable {bucketAt bucketAt' : Nat → Bucket} {hits : Nat → Bool} {positions : List Nat}
  {pos idx : Nat}

theorem Reaches.mem (h : Reaches bucketAt positions pos) : pos ∈ positions := by
  induction h with
  | here pos rest => exact mem_cons_self
  | next hskipped hrest ih => exact mem_cons_of_mem _ ih

/-- Reaching needs only that no further bucket is empty. -/
theorem Reaches.mono (h : Reaches bucketAt positions pos)
    (hempty : ∀ pos, bucketAt' pos = .empty → bucketAt pos = .empty) :
    Reaches bucketAt' positions pos := by
  induction h with
  | here pos rest => exact .here pos rest
  | next hskipped hrest ih => exact .next (fun h => hskipped (hempty _ h)) ih

theorem find_sound {found : Nat × Nat} (h : find bucketAt hits positions = some found) :
    found.1 ∈ positions ∧ bucketAt found.1 = .entry found.2 ∧ hits found.2 = true := by
  induction positions with
  | nil => cases h
  | cons first rest ih =>
    have hlat : find bucketAt hits rest = some found →
        found.1 ∈ first :: rest ∧ bucketAt found.1 = .entry found.2 ∧ hits found.2 = true := by
      intro h
      obtain ⟨hm, hrest⟩ := ih h
      exact ⟨mem_cons_of_mem _ hm, hrest⟩
    rw [find] at h
    split at h
    · cases h
    next idx hbk =>
      split_ifs at h with hhit
      · cases h
        exact ⟨mem_cons_self, hbk, hhit⟩
      · exact hlat h
    · exact hlat h

/-- The only entry that hits is found if a probe reaches it. -/
theorem find_complete (hreached : Reaches bucketAt positions pos)
    (hbk : bucketAt pos = .entry idx) (hhit : hits idx = true)
    (honly : ∀ other, hits other = true → other = idx) :
    ∃ found, find bucketAt hits positions = some (found, idx) := by
  induction hreached with
  | here pos rest => exact ⟨pos, by rw [find, hbk]; simp only [hhit, if_true]⟩
  | @next skipped pos rest hskipped hrest ih =>
    rw [find]
    split
    next hempty =>
      exact absurd hempty hskipped
    next other ho =>
      split_ifs with hhits
      · exact ⟨skipped, by rw [honly other hhits]⟩
      · exact ih hbk
    · exact ih hbk

variable {tombstone : Option Nat}

theorem insertion_sound (h : insertion bucketAt tombstone positions = some pos) :
    tombstone = some pos ∨ Reaches bucketAt positions pos ∧ Free bucketAt pos := by
  induction positions generalizing tombstone with
  | nil => exact .inl h
  | cons first rest ih =>
    rw [insertion] at h
    split at h
    next hempty =>
      cases tombstone with
      | none =>
        cases h
        exact .inr ⟨.here _ _, .inl hempty⟩
      | some kept => exact .inl h
    next htombstone =>
      have hpass : bucketAt first ≠ .empty := by
        rw [htombstone]
        exact fun h => (nomatch h)
      rcases ih h with hkept | ⟨hrest, hfree⟩
      · cases tombstone with
        | none =>
          cases hkept
          exact .inr ⟨.here _ _, .inr htombstone⟩
        | some kept => exact .inl hkept
      · exact .inr ⟨.next hpass hrest, hfree⟩
    next idx he =>
      have hpass : bucketAt first ≠ .empty := by
        rw [he]
        exact fun h => (nomatch h)
      rcases ih h with hkept | ⟨hrest, hfree⟩
      · exact .inl hkept
      · exact .inr ⟨.next hpass hrest, hfree⟩

/-- There is a bucket for a new key if one along the path is free. -/
theorem insertion_isSome (h : tombstone.isSome = true ∨ ∃ pos ∈ positions, Free bucketAt pos) :
    (insertion bucketAt tombstone positions).isSome = true := by
  induction positions generalizing tombstone with
  | nil =>
    rcases h with hkept | ⟨pos, hm, -⟩
    · exact hkept
    · cases hm
  | cons first rest ih =>
    rw [insertion]
    split
    · rfl
    · apply ih
      left
      cases tombstone with
      | none | some kept => rfl
    next idx he =>
      apply ih
      rcases h with hkept | ⟨pos, hm, hfree⟩
      · exact .inl hkept
      · rcases mem_cons.mp hm with rfl | hm
        · rcases hfree with hfree | hfree
          · rw [he] at hfree
            cases hfree
          · rw [he] at hfree
            cases hfree
        · exact .inr ⟨pos, hm, hfree⟩

end Paths

/-! ## Tables -/

/-- The buckets index the entries by their keys. -/
structure Indexes (size : Nat) (start : K → Nat) (bucketAt : Nat → Bucket)
    (keyOf : Nat → Option K) : Prop where
  reached : ∀ {idx key}, keyOf idx = some key →
    ∃ pos, bucketAt pos = .entry idx ∧ Reaches bucketAt (path (start key) size) pos
  used : ∀ {pos idx}, pos < size → bucketAt pos = .entry idx → (keyOf idx).isSome
  single : ∀ {pos other idx}, pos < size → other < size →
    bucketAt pos = .entry idx → bucketAt other = .entry idx → pos = other
  distinct : ∀ {idx other key}, keyOf idx = some key → keyOf other = some key → idx = other

namespace Indexes

variable {size : Nat} {start : K → Nat} {bucketAt : Nat → Bucket} {keyOf : Nat → Option K}
  {key : K} {pos idx : Nat}

/-- Without keys every bucket may be empty. -/
theorem empty (size : Nat) (start : K → Nat) :
    Indexes size start (fun _ => .empty) fun _ => none where
  reached := fun h => (nomatch h)
  used := fun _ h => (nomatch h)
  single := fun _ _ h => (nomatch h)
  distinct := fun h => (nomatch h)

section

variable (h : Indexes size start bucketAt keyOf)

include h

/-- Looking a key up finds its entry and the bucket of the entry, and nothing else. -/
theorem find_iff [DecidableEq K] :
    find bucketAt (fun idx => keyOf idx = some key) (path (start key) size) = some (pos, idx) ↔
      keyOf idx = some key ∧ pos < size ∧ bucketAt pos = .entry idx := by
  constructor
  · intro hfind
    obtain ⟨hm, hbk, hhit⟩ := find_sound hfind
    exact ⟨of_decide_eq_true hhit, mem_path.mp hm, hbk⟩
  · rintro ⟨hkey, hpos, hbk⟩
    obtain ⟨reached, hreached, hpath⟩ := h.reached hkey
    obtain ⟨found, hfind⟩ : ∃ found, find bucketAt (fun idx => keyOf idx = some key)
        (path (start key) size) = some (found, idx) :=
      find_complete hpath hreached (decide_eq_true hkey)
        fun other ho => h.distinct (of_decide_eq_true ho) hkey
    obtain ⟨hm, hf, -⟩ := find_sound hfind
    have hs : found = pos := h.single (mem_path.mp hm) hpos hf hbk
    rw [hfind, hs]

theorem find_index_iff [DecidableEq K] :
    (find bucketAt (fun idx => keyOf idx = some key) (path (start key) size)).map Prod.snd =
      some idx ↔ keyOf idx = some key := by
  constructor
  · intro hfind
    obtain ⟨⟨pos, found⟩, hpair, rfl⟩ := Option.map_eq_some_iff.mp hfind
    exact (h.find_iff.mp hpair).1
  · intro hkey
    obtain ⟨pos, hbk, hpath⟩ := h.reached hkey
    rw [h.find_iff.mpr ⟨hkey, mem_path.mp hpath.mem, hbk⟩, Option.map_some]

/-- A new key goes into the bucket that an insertion finds. -/
theorem insert (hi : keyOf idx = none) (hkey : ∀ other, keyOf other ≠ some key)
    (hpos : insertion bucketAt none (path (start key) size) = some pos) :
    Indexes size start (Function.update bucketAt pos (.entry idx))
      (Function.update keyOf idx (some key)) := by
  obtain ⟨hreached, hfree⟩ : Reaches bucketAt (path (start key) size) pos ∧ Free bucketAt pos := by
    rcases insertion_sound hpos with hn | hf
    · cases hn
    · exact hf
  have hempty : ∀ other, update bucketAt pos (.entry idx) other = .empty →
      bucketAt other = .empty := by
    intro other ho
    by_cases heq : other = pos
    · rw [heq, update_self] at ho
      cases ho
    · rwa [update_of_ne heq] at ho
  -- no other bucket leads to the entry, since it had no key
  have hunused : ∀ other, other < size → bucketAt other ≠ .entry idx := by
    intro other ho he
    have hused := h.used ho he
    rw [hi] at hused
    cases hused
  refine ⟨?_, ?_, ?_, ?_⟩
  · intro other otherKey ho
    by_cases heq : other = idx
    · subst heq
      rw [update_self] at ho
      cases ho
      exact ⟨pos, update_self .., hreached.mono hempty⟩
    · rw [update_of_ne heq] at ho
      obtain ⟨place, hplace, hpath⟩ := h.reached ho
      refine ⟨place, ?_, hpath.mono hempty⟩
      rw [update_of_ne, hplace]
      rintro rfl
      rcases hfree with hfree | hfree
      · rw [hplace] at hfree
        cases hfree
      · rw [hplace] at hfree
        cases hfree
  · intro place other hplace he
    by_cases heq : place = pos
    · rw [heq, update_self] at he
      cases he
      rw [update_self]
      rfl
    · rw [update_of_ne heq] at he
      have hne : other ≠ idx := by
        rintro rfl
        exact hunused place hplace he
      rw [update_of_ne hne]
      exact h.used hplace he
  · intro place place' other hplace hplace' he he'
    by_cases heq : place = pos
    · rw [heq, update_self] at he
      cases he
      by_contra hne
      rw [heq] at hne
      rw [update_of_ne (Ne.symm hne)] at he'
      exact hunused place' hplace' he'
    · rw [update_of_ne heq] at he
      by_cases heq' : place' = pos
      · rw [heq', update_self] at he'
        cases he'
        exact absurd he (hunused place hplace)
      · rw [update_of_ne heq'] at he'
        exact h.single hplace hplace' he he'
  · intro left right shared hl hr
    by_cases heq : left = idx
    · by_cases heq' : right = idx
      · rw [heq, heq']
      · rw [heq, update_self] at hl
        rw [update_of_ne heq'] at hr
        cases hl
        exact absurd hr (hkey right)
    · rw [update_of_ne heq] at hl
      by_cases heq' : right = idx
      · rw [heq', update_self] at hr
        cases hr
        exact absurd hl (hkey left)
      · rw [update_of_ne heq'] at hr
        exact h.distinct hl hr

/-- A deleted entry leaves a tombstone in its bucket. -/
theorem delete (hpos : pos < size) (hbk : bucketAt pos = .entry idx) :
    Indexes size start (Function.update bucketAt pos .tombstone)
      (Function.update keyOf idx none) := by
  have hempty : ∀ other, update bucketAt pos .tombstone other = .empty →
      bucketAt other = .empty := by
    intro other ho
    by_cases heq : other = pos
    · rw [heq, update_self] at ho
      cases ho
    · rwa [update_of_ne heq] at ho
  have hkept : ∀ {other otherIndex},
      update bucketAt pos .tombstone other = .entry otherIndex →
        other ≠ pos ∧ bucketAt other = .entry otherIndex := by
    intro other otherIndex ho
    by_cases heq : other = pos
    · rw [heq, update_self] at ho
      cases ho
    · rw [update_of_ne heq] at ho
      exact ⟨heq, ho⟩
  have hkeys : ∀ {other otherKey}, update keyOf idx none other = some otherKey →
      other ≠ idx ∧ keyOf other = some otherKey := by
    intro other otherKey ho
    by_cases heq : other = idx
    · rw [heq, update_self] at ho
      cases ho
    · rw [update_of_ne heq] at ho
      exact ⟨heq, ho⟩
  refine ⟨?_, ?_, ?_, ?_⟩
  · intro other otherKey ho
    obtain ⟨hne, ho⟩ := hkeys ho
    obtain ⟨place, hplace, hpath⟩ := h.reached ho
    refine ⟨place, ?_, hpath.mono hempty⟩
    rw [update_of_ne, hplace]
    rintro rfl
    rw [hbk] at hplace
    exact hne (Bucket.entry.inj hplace).symm
  · intro place other hplace he
    obtain ⟨hne, he⟩ := hkept he
    have ho : other ≠ idx := by
      rintro rfl
      exact hne (h.single hplace hpos he hbk)
    rw [update_of_ne ho]
    exact h.used hplace he
  · intro place place' other hplace hplace' he he'
    exact h.single hplace hplace' (hkept he).2 (hkept he').2
  · intro left right shared hl hr
    exact h.distinct (hkeys hl).2 (hkeys hr).2

variable {cap : Nat}

/-- With more buckets than entries there is always room. -/
theorem exists_free (hkeys : ∀ {idx}, (keyOf idx).isSome → idx < cap) (hsize : cap < size) :
    ∃ pos < size, Free bucketAt pos := by
  by_contra hfull
  have he : ∀ pos < size, ∃ idx, bucketAt pos = .entry idx := by
    intro pos hpos
    cases hbk : bucketAt pos with
    | empty => exact absurd ⟨pos, hpos, .inl hbk⟩ hfull
    | tombstone => exact absurd ⟨pos, hpos, .inr hbk⟩ hfull
    | entry idx => exact ⟨idx, rfl⟩
  choose! indexOf hindexOf using he
  have hcard := Finset.card_le_card_of_injOn (s := Finset.range size) (t := Finset.range cap)
    indexOf
    (by
      intro pos hpos
      rw [Finset.coe_range] at hpos ⊢
      exact hkeys (h.used hpos (hindexOf pos hpos)))
    (by
      intro pos hpos other ho heq
      rw [Finset.coe_range] at hpos ho
      refine h.single hpos ho (hindexOf pos hpos) ?_
      rw [heq]
      exact hindexOf other ho)
  rw [Finset.card_range, Finset.card_range] at hcard
  omega

theorem insertion_isSome (hkeys : ∀ {idx}, (keyOf idx).isSome → idx < cap) (hsize : cap < size) (key
    : K) : (insertion bucketAt none (path (start key) size)).isSome = true := by
  obtain ⟨pos, hpos, hfree⟩ := h.exists_free hkeys hsize
  exact Probing.insertion_isSome (.inr ⟨pos, mem_path.mpr hpos, hfree⟩)

end

end Indexes

/-! ## Lists through an array -/

/-- The list that starts at a head and follows the successors. -/
inductive Chain (next : Nat → Option Nat) : Option Nat → List Nat → Prop where
  | nil : Chain next none []
  | cons {idx : Nat} {rest : List Nat} (hrest : Chain next (next idx) rest) :
      Chain next (some idx) (idx :: rest)

namespace Chain

variable {next next' : Nat → Option Nat} {head : Option Nat} {list : List Nat}

/-- A list depends on the successors of its members only. -/
theorem congr (h : Chain next head list) (hs : ∀ idx ∈ list, next idx = next' idx) :
    Chain next' head list := by
  induction h with
  | nil => exact .nil
  | @cons idx rest hrest ih =>
    apply Chain.cons
    rw [← hs idx mem_cons_self]
    exact ih fun other ho => hs other (mem_cons_of_mem _ ho)

/-- What holds of the head and of every successor holds of the members. -/
theorem forall_mem (h : Chain next head list) (P : Nat → Prop)
    (hhead : ∀ idx, head = some idx → P idx)
    (hn : ∀ idx other, next idx = some other → P other) : ∀ idx ∈ list, P idx := by
  induction h with
  | nil =>
    intro idx hi
    cases hi
  | @cons first rest hrest ih =>
    intro idx hi
    rcases mem_cons.mp hi with rfl | hi
    · exact hhead idx rfl
    · exact ih (fun other ho => hn first other ho) idx hi

end Chain

/-- The list from the head lists the members of a set once each. -/
def Lists (next : Nat → Option Nat) (head : Option Nat) (members : Nat → Prop) : Prop :=
  ∃ list, Chain next head list ∧ list.Nodup ∧ ∀ idx, idx ∈ list ↔ members idx

namespace Lists

variable {next : Nat → Option Nat} {head : Option Nat} {members : Nat → Prop} {idx : Nat}

/-- Taking the head off. -/
theorem pop (h : Lists next (some idx) members) (cut : Option Nat) :
    Lists (Function.update next idx cut) (next idx) fun other => members other ∧ other ≠ idx := by
  obtain ⟨list, hchain, hnodup, hmembers⟩ := h
  cases hchain with
  | @cons _ rest hrest =>
    rw [nodup_cons] at hnodup
    refine ⟨rest, hrest.congr ?_, hnodup.2, ?_⟩
    · intro other ho
      rw [update_of_ne]
      rintro rfl
      exact hnodup.1 ho
    · intro other
      show other ∈ rest ↔ members other ∧ other ≠ idx
      rw [← hmembers, mem_cons]
      constructor
      · intro ho
        refine ⟨.inr ho, ?_⟩
        rintro rfl
        exact hnodup.1 ho
      · rintro ⟨rfl | ho, hne⟩
        · exact absurd rfl hne
        · exact ho

section

variable (h : Lists next head members)

include h

/-- Putting an index in front. -/
theorem push (hi : ¬ members idx) :
    Lists (Function.update next idx head) (some idx) fun other => members other ∨ other = idx := by
  obtain ⟨list, hchain, hnodup, hmembers⟩ := h
  have hnot : idx ∉ list := fun hm => hi ((hmembers idx).mp hm)
  refine ⟨idx :: list, ?_, nodup_cons.mpr ⟨hnot, hnodup⟩, ?_⟩
  · apply Chain.cons
    rw [update_self]
    refine hchain.congr ?_
    intro other ho
    rw [update_of_ne]
    rintro rfl
    exact hnot ho
  · intro other
    rw [mem_cons, hmembers]
    exact or_comm

theorem congr {members' : Nat → Prop} (hs : ∀ idx, members idx ↔ members' idx) :
    Lists next head members' := by
  obtain ⟨list, hchain, hnodup, hmembers⟩ := h
  exact ⟨list, hchain, hnodup, fun idx => (hmembers idx).trans (hs idx)⟩

/-- The successors of other indices do not matter. -/
theorem update (hi : ¬ members idx) (successor : Option Nat) :
    Lists (Function.update next idx successor) head members := by
  obtain ⟨list, hchain, hnodup, hmembers⟩ := h
  refine ⟨list, hchain.congr ?_, hnodup, hmembers⟩
  intro other ho
  rw [update_of_ne]
  rintro rfl
  exact hi ((hmembers other).mp ho)

/-- The head is a member, if there is one. -/
theorem head_isSome (hi : members idx) : head.isSome = true := by
  obtain ⟨list, hchain, -, hmembers⟩ := h
  cases hchain with
  | nil => exact absurd ((hmembers idx).mpr hi) not_mem_nil
  | cons hrest => rfl

end

theorem nil (next : Nat → Option Nat) (hn : ∀ idx, ¬ members idx) : Lists next none members :=
  ⟨[], .nil, nodup_nil, fun idx => iff_of_false not_mem_nil (hn idx)⟩

/-- The indices below a bound in their order. -/
theorem ascending {bound : Nat}
    (hn : ∀ idx < bound, next idx = if idx + 1 < bound then some (idx + 1) else none) :
    Lists next (if 0 < bound then some 0 else none) fun idx => idx < bound := by
  have hfrom : ∀ cnt first, first + cnt = bound →
      Chain next (if first < bound then some first else none) (range' first cnt) := by
    intro cnt
    induction cnt with
    | zero =>
      intro first hfirst
      rw [if_neg (by omega)]
      exact .nil
    | succ cnt ih =>
      intro first hfirst
      rw [if_pos (by omega)]
      apply Chain.cons
      rw [hn first (by omega)]
      exact ih (first + 1) (by omega)
  refine ⟨range' 0 bound, hfrom bound 0 (Nat.zero_add bound), nodup_range', ?_⟩
  intro idx
  rw [mem_range'_1]
  omega

end Lists

end TachyonEngine.Lib.Probing
