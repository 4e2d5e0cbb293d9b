import Mathlib

/-!
# Insertion-ordered maps with live cursors

A map keeps its entries in the order of their insertion. Each insertion gets a ticket, and the
tickets ascend. A cursor walks over the entries while they are inserted and deleted; it knows the
ticket it goes on from. A record follows a map through its mutations and notes when each ticket was
born and died and what each cursor took.
-/

namespace TachyonEngine.Lib

open List

universe u v

variable {K : Type u} {V : Type v}

/-! ## Maps -/

/-- One entry with the ticket of its insertion. -/
structure LiveEntry (K : Type u) (V : Type v) where
  ticket : Nat
  key : K
  value : V

/-- The live entries, and the ticket of the next insertion. -/
structure LiveMap (K : Type u) (V : Type v) where
  entries : List (LiveEntry K V)
  fresh : Nat

/-- A mutation. `insert` leaves an entry alone that is there already. -/
inductive LiveMutation (K : Type u) (V : Type v) where
  | set (key : K) (value : V)
  | insert (key : K) (value : V)
  | delete (key : K)
  | clear

/-- The key that a mutation may bring in. -/
def LiveMutation.key? : LiveMutation K V → Option K
  | .set key _ | .insert key _ => some key
  | .delete _ | .clear => none

namespace LiveMap

variable (same : K → K → Bool)

def empty : LiveMap K V := { entries := [], fresh := 0 }

def has (map : LiveMap K V) (key : K) : Bool := map.entries.any fun entry => same entry.key key

def get? (map : LiveMap K V) (key : K) : Option V :=
  (map.entries.find? fun entry => same entry.key key).map LiveEntry.value

/-- An entry with another value if it has the key. -/
def updated (key : K) (value : V) (entry : LiveEntry K V) : LiveEntry K V :=
  if same entry.key key then { entry with value := value } else entry

def append (map : LiveMap K V) (key : K) (value : V) : LiveMap K V :=
  { entries := map.entries ++ [⟨map.fresh, key, value⟩], fresh := map.fresh + 1 }

def apply (map : LiveMap K V) : LiveMutation K V → LiveMap K V
  | .set key value =>
    if map.has same key then { map with entries := map.entries.map (updated same key value) }
    else map.append key value
  | .insert key value => if map.has same key then map else map.append key value
  | .delete key => { map with entries := map.entries.filter fun entry => !same entry.key key }
  | .clear => { map with entries := [] }

/-- The first entry from a ticket on. -/
def nextFrom (map : LiveMap K V) (ticket : Nat) : Option (LiveEntry K V) :=
  map.entries.find? fun entry => ticket ≤ entry.ticket

/-- The value that was set last for a key; the latest mutation stands first. -/
def lastSet (key : K) : List (LiveMutation K V) → Option V
  | [] => none
  | .set other value :: earlier => if same other key then some value else lastSet key earlier
  | .insert other value :: earlier =>
    if same other key then some ((lastSet key earlier).getD value) else lastSet key earlier
  | .delete other :: earlier => if same other key then none else lastSet key earlier
  | .clear :: _ => none

def tickets (map : LiveMap K V) : List Nat := map.entries.map LiveEntry.ticket

/-- The tickets ascend and stand below the fresh one, and the keys differ. -/
structure WellFormed (map : LiveMap K V) : Prop where
  ascending : map.tickets.Pairwise (· < ·)
  bounded : ∀ ticket ∈ map.tickets, ticket < map.fresh
  distinct : map.entries.Pairwise fun left right => same left.key right.key = false

end LiveMap

/-! ## Equivalent keys -/

/-- A decidable equivalence. -/
structure SameKey (same : K → K → Bool) : Prop where
  refl : ∀ key, same key key = true
  symm : ∀ {left right}, same left right = true → same right left = true
  trans : ∀ {left middle right}, same left middle = true → same middle right = true →
    same left right = true

theorem SameKey.congr {same : K → K → Bool} (h : SameKey same) {left right : K}
    (hs : same left right = true) (key : K) : same key left = same key right := by
  rw [Bool.eq_iff_iff]
  exact ⟨fun hl => h.trans hl hs, fun hr => h.trans hr (h.symm hs)⟩

namespace LiveMap

section Values

variable {same : K → K → Bool} (h : SameKey same) {map : LiveMap K V}

@[simp] theorem key_updated (key : K) (val : V) (ent : LiveEntry K V) :
    (updated same key val ent).key = ent.key := by
  simp only [updated]
  split <;> rfl

@[simp] theorem ticket_updated (key : K) (val : V) (ent : LiveEntry K V) :
    (updated same key val ent).ticket = ent.ticket := by
  simp only [updated]
  split <;> rfl

theorem has_eq_false_iff (key : K) :
    map.has same key = false ↔ ∀ ent ∈ map.entries, same ent.key key = false := by
  simp [has]

theorem get?_eq_none_of_has (key : K) (hn : map.has same key = false) :
    map.get? same key = none := by
  rw [get?, Option.map_eq_none_iff, find?_eq_none]
  intro ent he hs
  rw [(has_eq_false_iff key).mp hn ent he] at hs
  cases hs

theorem has_eq_isSome (key : K) : map.has same key = (map.get? same key).isSome := by
  rw [has, get?, Option.isSome_map, Bool.eq_iff_iff, any_eq_true, find?_isSome]

include h in
/-- A key that is missing is missing under the keys that are the same. -/
theorem get?_eq_none_of_same {key other : K} (hn : map.has same key = false)
    (hs : same key other = true) : map.get? same other = none := by
  apply get?_eq_none_of_has
  rw [has_eq_false_iff] at hn ⊢
  intro ent he
  rw [← h.congr hs ent.key]
  exact hn ent he

include h in
/-- An update is seen under the keys that are the same. -/
theorem get?_update (key : K) (val : V) (hhas : map.has same key = true) (other : K) :
    ({ map with entries := map.entries.map (updated same key val) } : LiveMap K V).get? same other =
      if same key other then some val else map.get? same other := by
  have hfind : (map.entries.map (updated same key val)).find? (fun ent => same ent.key other) =
        (map.entries.find? fun ent => same ent.key other).map (updated same key val) := by
    rw [find?_map]
    congr 1
    apply congrArg (find? · map.entries)
    funext ent
    simp only [Function.comp_apply, key_updated]
  simp only [get?, hfind, Option.map_map]
  split_ifs with hs
  · -- the entry that is found has the key, so it is the one that was updated
    obtain ⟨ent, he, hkey⟩ := any_eq_true.mp hhas
    obtain ⟨found, hf⟩ : ∃ found,
        (map.entries.find? fun ent => same ent.key other) = some found := by
      rw [← Option.isSome_iff_exists, find?_isSome]
      exact ⟨ent, he, h.trans hkey hs⟩
    have ho : same found.key other = true := by simpa using find?_some hf
    rw [hf, Option.map_some, Function.comp_apply, updated, if_pos (h.trans ho (h.symm hs))]
  · cases hf : map.entries.find? fun ent => same ent.key other with
    | none => rfl
    | some found =>
      have ho : same found.key other = true := by simpa using find?_some hf
      have hkey : ¬ same found.key key = true := by
        intro hkey
        exact hs (h.trans (h.symm hkey) ho)
      rw [Option.map_some, Option.map_some, Function.comp_apply, updated, if_neg hkey]

theorem get?_append (key : K) (val : V) (other : K) :
    (map.append key val).get? same other =
      (map.get? same other).or (if same key other then some val else none) := by
  simp only [get?, append, find?_append, Option.map_or]
  simp only [find?_singleton]
  split
  · rfl
  · rfl

include h in
theorem get?_delete (key other : K) :
    ({ map with entries := map.entries.filter fun ent => !same ent.key key } :
        LiveMap K V).get? same other =
      if same key other then none else map.get? same other := by
  simp only [get?, find?_filter]
  split_ifs with hs
  · rw [Option.map_eq_none_iff, find?_eq_none]
    intro ent _ hboth
    rw [h.congr hs ent.key] at hboth
    simp at hboth
  · congr 1
    apply congrArg (find? · map.entries)
    funext ent
    cases ho : same ent.key other with
    | false => simp
    | true =>
      have hkey : same ent.key key = false := by
        rw [← Bool.not_eq_true]
        intro hkey
        exact hs (h.trans (h.symm hkey) ho)
      simp [hkey]

include h in
/-- What a mutation does to the value of a key. -/
theorem get?_apply (mutation : LiveMutation K V) {history : List (LiveMutation K V)} {key : K}
    (hget : ∀ other, map.get? same other = lastSet same other history) :
    (map.apply same mutation).get? same key = lastSet same key (mutation :: history) := by
  cases mutation with
  | set other val =>
    simp only [apply, lastSet]
    split
    · next hhas => rw [get?_update h other val hhas, hget]
    next hn =>
      rw [Bool.not_eq_true] at hn
      rw [get?_append]
      split
      · next hs => rw [get?_eq_none_of_same h hn hs, Option.none_or]
      · rw [Option.or_none, hget]
  | insert other val =>
    simp only [apply, lastSet]
    split
    next hhas =>
      split_ifs with hs
      · have hsome : (map.get? same key).isSome = true := by
          rw [← has_eq_isSome]
          obtain ⟨ent, he, hkey⟩ := any_eq_true.mp hhas
          exact any_eq_true.mpr ⟨ent, he, h.trans hkey hs⟩
        obtain ⟨found, hf⟩ := Option.isSome_iff_exists.mp hsome
        rw [← hget key, hf, Option.getD_some]
      · exact hget key
    next hn =>
      rw [Bool.not_eq_true] at hn
      rw [get?_append]
      split_ifs with hs
      · rw [← hget key, get?_eq_none_of_same h hn hs, Option.none_or, Option.getD_none]
      · rw [Option.or_none, hget]
  | delete other =>
    simp only [apply, lastSet]
    rw [get?_delete h, hget]
  | clear => rfl

/-! ## Tickets -/

/-- A mutation only takes tickets away, or it adds the fresh one. -/
theorem tickets_apply (mutation : LiveMutation K V) : ((map.apply same mutation).fresh = map.fresh ∧
        (map.apply same mutation).tickets.Sublist map.tickets) ∨
      ((map.apply same mutation).fresh = map.fresh + 1 ∧
        (map.apply same mutation).tickets = map.tickets ++ [map.fresh]) := by
  have happend : ∀ key val, (map.append key val).fresh = map.fresh + 1 ∧
      (map.append key val).tickets = map.tickets ++ [map.fresh] := by
    intro key val
    exact ⟨rfl, map_append⟩
  cases mutation with
  | set key val =>
    simp only [apply]
    split
    · refine .inl ⟨rfl, ?_⟩
      have hs : (map.entries.map (updated same key val)).map LiveEntry.ticket =
          map.entries.map LiveEntry.ticket := by
        rw [map_map]
        apply map_congr_left
        intro ent _
        exact ticket_updated key val ent
      simp only [tickets, hs]
      exact List.Sublist.refl _
    · exact .inr (happend key val)
  | insert key val =>
    simp only [apply]
    split
    · exact .inl ⟨rfl, List.Sublist.refl _⟩
    · exact .inr (happend key val)
  | delete key => exact .inl ⟨rfl, filter_sublist.map _⟩
  | clear => exact .inl ⟨rfl, nil_sublist _⟩

/-- Where the key of an entry comes from. -/
theorem key_of_mem_apply (mutation : LiveMutation K V) {ent : LiveEntry K V}
    (he : ent ∈ (map.apply same mutation).entries) :
    (∃ old ∈ map.entries, old.key = ent.key) ∨ mutation.key? = some ent.key := by
  have happend : ∀ key val, ent ∈ (map.append key val).entries →
      (∃ old ∈ map.entries, old.key = ent.key) ∨ some key = some ent.key := by
    intro key val hm
    rcases mem_append.mp hm with hold | hnew
    · exact .inl ⟨ent, hold, rfl⟩
    · rw [mem_singleton.mp hnew]
      exact .inr rfl
  cases mutation with
  | set key val =>
    simp only [apply] at he
    split at he
    · obtain ⟨old, hold, rfl⟩ := mem_map.mp he
      exact .inl ⟨old, hold, (key_updated key val old).symm⟩
    · exact happend key val he
  | insert key val =>
    simp only [apply] at he
    split at he
    · exact .inl ⟨ent, he, rfl⟩
    · exact happend key val he
  | delete key => exact .inl ⟨ent, (mem_filter.mp he).1, rfl⟩
  | clear => cases he

theorem distinct_append {key : K} {val : V}
    (h : map.entries.Pairwise fun left right => same left.key right.key = false)
    (hn : map.has same key = false) :
    (map.append key val).entries.Pairwise fun left right => same left.key right.key = false := by
  rw [append, pairwise_append]
  refine ⟨h, pairwise_singleton _ _, ?_⟩
  intro left hl right hr
  rw [mem_singleton.mp hr]
  exact (has_eq_false_iff key).mp hn left hl

theorem distinct_apply (h : map.entries.Pairwise fun left right => same left.key right.key = false)
    (mutation : LiveMutation K V) :
    (map.apply same mutation).entries.Pairwise
      fun left right => same left.key right.key = false := by
  cases mutation with
  | set key val =>
    simp only [apply]
    split
    · rw [pairwise_map]
      apply h.imp
      intro left right hdiffer
      rw [key_updated, key_updated]
      exact hdiffer
    · next hn => exact distinct_append h (Bool.not_eq_true _ ▸ hn)
  | insert key val =>
    simp only [apply]
    split
    · exact h
    · next hn => exact distinct_append h (Bool.not_eq_true _ ▸ hn)
  | delete key => exact h.sublist filter_sublist
  | clear => exact List.Pairwise.nil

theorem WellFormed.apply (h : map.WellFormed same) (mutation : LiveMutation K V) :
    (map.apply same mutation).WellFormed same := by
  refine ⟨?_, ?_, distinct_apply h.distinct mutation⟩
  · rcases tickets_apply mutation with ⟨-, hsub⟩ | ⟨-, happended⟩
    · exact h.ascending.sublist hsub
    · rw [happended, pairwise_append]
      refine ⟨h.ascending, pairwise_singleton _ _, ?_⟩
      intro ticket hticket last hl
      rw [mem_singleton.mp hl]
      exact h.bounded ticket hticket
  · intro ticket hticket
    rcases tickets_apply mutation with ⟨hfr, hsub⟩ | ⟨hfr, happended⟩
    · rw [hfr]
      exact h.bounded ticket (hsub.subset hticket)
    · rw [hfr]
      rw [happended, mem_append, mem_singleton] at hticket
      rcases hticket with hold | rfl
      · exact Nat.lt_succ_of_lt (h.bounded ticket hold)
      · exact Nat.lt_succ_self _

/-- From a ticket on there is no entry, or the first one is found. -/
theorem nextFrom_eq_none_iff (ticket : Nat) :
    map.nextFrom ticket = none ↔ ∀ n ∈ map.tickets, n < ticket := by
  simp [nextFrom, tickets]

theorem nextFrom_eq_some (h : map.tickets.Pairwise (· < ·)) {ticket : Nat} {ent : LiveEntry K V}
    (hnx : map.nextFrom ticket = some ent) : ent ∈ map.entries ∧ ticket ≤ ent.ticket ∧
      ∀ n ∈ map.tickets, ticket ≤ n → ent.ticket ≤ n := by
  have hfrom : ticket ≤ ent.ticket := by simpa using find?_some hnx
  refine ⟨mem_of_find?_eq_some hnx, hfrom, ?_⟩
  intro n hn hle
  obtain ⟨pre, post, hsplit, hb⟩ := (find?_eq_some_iff_append.mp hnx).2
  obtain ⟨other, ho, rfl⟩ := mem_map.mp hn
  rw [hsplit, mem_append, mem_cons] at ho
  rcases ho with hearly | rfl | hlate
  · have hlt := hb other hearly
    simp only [Bool.not_eq_true', decide_eq_false_iff_not] at hlt
    exact absurd hle hlt
  · exact le_refl _
  · rw [tickets, hsplit, map_append] at h
    have htail := (pairwise_append.mp h).2.1
    exact le_of_lt ((pairwise_cons.mp htail).1 _ (mem_map_of_mem hlate))

end Values

end LiveMap

end TachyonEngine.Lib
