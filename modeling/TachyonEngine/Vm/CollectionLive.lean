import TachyonEngine.Lib.LiveRecord
import TachyonEngine.Vm.Collection

/-!
# Positions as tickets

The live entries of a backing with their positions are an insertion-ordered map: an entry keeps its
position as long as it lives, and a position is not used twice. Each operation on the backing is an
operation on the map, and the search of a cursor for its next entry is the search for a ticket.
-/

namespace TachyonEngine.Vm

open OrderedCollection Option

open Lib Lib.Capacity

namespace OrderedCollection

/-- The live entries with their positions. -/
def live (coll : OrderedCollection) : List (LiveEntry Value Value) :=
  (List.range coll.used).filterMap fun index =>
    (coll.entryAt index).map fun entry => ⟨index, entry.key, entry.value⟩

def toLiveMap (coll : OrderedCollection) : LiveMap Value Value :=
  { entries := coll.live, fresh := coll.used }

/-- The positions in use are there, and the live ones are counted. -/
structure Backed (coll : OrderedCollection) : Prop where
  room : coll.used ≤ coll.entries.length
  small : coll.used < 2 ^ 32
  counted : coll.liveLen = coll.live.length

variable {coll : OrderedCollection}

theorem live_congr {other : OrderedCollection} (hused : other.used = coll.used)
    (hes : ∀ idx, idx < coll.used →
      other.entryAt idx = coll.entryAt idx) : other.live = coll.live := by
  rw [live, hused]
  apply List.filterMap_congr
  intro idx hi
  rw [hes idx (List.mem_range.mp hi)]

theorem mem_live {ent : LiveEntry Value Value} : ent ∈ coll.live ↔ ent.ticket < coll.used ∧
      coll.entryAt ent.ticket = some ⟨ent.key, ent.value⟩ := by
  simp only [live, List.mem_filterMap, List.mem_range, map_eq_some_iff]
  constructor
  · rintro ⟨idx, hi, found, hf, rfl⟩
    exact ⟨hi, hf⟩
  · rintro ⟨hticket, hf⟩
    exact ⟨ent.ticket, hticket, _, hf, rfl⟩

theorem live_length_le : coll.live.length ≤ coll.used := by
  have hle := List.length_filterMap_le (fun idx => (coll.entryAt idx).map
    fun ent => (⟨idx, ent.key, ent.value⟩ : LiveEntry Value Value))
    (List.range coll.used)
  rw [List.length_range] at hle
  exact hle

variable {idx : Nat}

theorem entryAt_set (coll : OrderedCollection) (ent : Option CollectionEntry) (hi : idx <
    coll.entries.length) (other : Nat) :
    ({ coll with entries := coll.entries.set idx ent } :
        OrderedCollection).entryAt other =
      if other = idx then ent else coll.entryAt other := by
  simp only [entryAt, List.getElem?_set]
  by_cases ho : idx = other
  · subst ho
    simp [hi]
  · rw [if_neg ho, if_neg (Ne.symm ho)]

/-! ## What the operations do -/

theorem backed_withCapacity (cap : Nat) : (withCapacity cap).Backed :=
  ⟨Nat.zero_le _, Nat.two_pow_pos 32, rfl⟩

theorem live_append_eq (hroom : coll.used < coll.entries.length) (key val : Value) (liveLen : Nat) :
    ({ coll with
        entries := coll.entries.set coll.used (some ⟨key, val⟩)
        used := coll.used + 1
        liveLen := liveLen } : OrderedCollection).live =
      coll.live ++ [⟨coll.used, key, val⟩] := by
  have he := entryAt_set coll (some ⟨key, val⟩) hroom
  simp only [live, List.range_succ, List.filterMap_append]
  congr 1
  · apply List.filterMap_congr
    intro idx hi
    have hne : idx ≠ coll.used := ne_of_lt (List.mem_range.mp hi)
    have hold := he idx
    rw [if_neg hne] at hold
    simp only [entryAt] at hold ⊢
    rw [hold]
  · have hnew := he coll.used
    simp only [entryAt] at hnew
    simp [entryAt, hnew]

/-- An append adds an entry at a fresh position, or it fails and is not seen. -/
theorem append_spec (h : coll.Backed) (key val : Value) :
    (∃ post, coll.append key val = (true, post) ∧ post.Backed ∧
        post.toLiveMap = coll.toLiveMap.append key val) ∨
      ∃ post, coll.append key val = (false, post) ∧ post.Backed ∧
        post.toLiveMap = coll.toLiveMap := by
  simp only [append]
  split_ifs with hroom
  · have hwri : ({ coll with
        entries := coll.entries.set coll.used (some ⟨key, val⟩) } :
          OrderedCollection).live = coll.live := by
      refine live_congr (by rfl) ?_
      intro idx hi
      rw [entryAt_set _ _ hroom, if_neg (ne_of_lt hi)]
    by_cases hsm : coll.used + 1 < 2 ^ 32
    · have hc : coll.liveLen + 1 < 2 ^ 32 := by
        have hle : coll.live.length ≤ coll.used := live_length_le
        have hcounted := h.counted
        omega
      rw [checkedSucc, if_pos hsm]
      rw [checkedSucc, if_pos hc]
      left
      refine ⟨_, rfl, ⟨?_, hsm, ?_⟩, ?_⟩
      · simp only [List.length_set]
        exact hroom
      · rw [live_append_eq hroom, List.length_append, ← h.counted]
        rfl
      · simp only [toLiveMap, LiveMap.append]
        rw [live_append_eq hroom]
    · rw [checkedSucc, if_neg hsm]
      right
      refine ⟨_, rfl, ⟨?_, h.small, ?_⟩, ?_⟩
      · simp only [List.length_set]
        exact h.room
      · rw [hwri]
        exact h.counted
      · simp only [toLiveMap]
        rw [hwri]
  · exact .inr ⟨coll, rfl, h, rfl⟩

variable {ent : CollectionEntry}

theorem entryAt_eq_some_iff :
    coll.entryAt idx = some ent ↔ coll.entries[idx]? = some (some ent) := by
  rw [entryAt, join_eq_some_iff]

theorem updateAt_spec (h : coll.Backed) (he : coll.entryAt idx = some ent) (val : Value) :
    ∃ post, coll.updateAt idx val = some post ∧ post.Backed ∧ post.toLiveMap =
        { coll.toLiveMap with
          entries := coll.live.map fun found =>
            if found.ticket = idx then { found with value := val } else found } := by
  have hget := entryAt_eq_some_iff.mp he
  have hi := (List.getElem?_eq_some_iff.mp hget).1
  have hset := entryAt_set coll (some { ent with value := val }) hi
  have hlive : ({ coll with
      entries := coll.entries.set idx (some { ent with value := val }) } :
        OrderedCollection).live = coll.live.map fun found =>
          if found.ticket = idx then { found with value := val } else found := by
    rw [live, live, List.map_filterMap]
    apply List.filterMap_congr
    intro other _
    rw [hset other]
    by_cases ho : other = idx
    · rw [ho, he]
      simp
    · rw [if_neg ho, map_map]
      congr 1
      funext found
      simp [ho]
  have ha : coll.updateAt idx val = some { coll with
      entries := coll.entries.set idx (some { ent with value := val }) } := by
    rw [updateAt, hget]
  refine ⟨_, ha, ⟨?_, h.small, ?_⟩, ?_⟩
  · simp only [List.length_set]
    exact h.room
  · rw [hlive, List.length_map]
    exact h.counted
  · simp only [toLiveMap]
    rw [hlive]

theorem ascending_tickets : coll.toLiveMap.tickets.Pairwise (· < ·) := by
  simp only [LiveMap.tickets, toLiveMap]
  rw [live, List.map_filterMap]
  have hsub : ((List.range coll.used).filterMap fun idx =>
      ((coll.entryAt idx).map fun ent =>
        (⟨idx, ent.key, ent.value⟩ : LiveEntry Value Value)).map LiveEntry.ticket).Sublist
      (List.range coll.used) := by
    have hid : ∀ idx : Nat, ((coll.entryAt idx).map fun ent =>
        (⟨idx, ent.key, ent.value⟩ : LiveEntry Value Value)).map LiveEntry.ticket =
          if (coll.entryAt idx).isSome then some idx else none := by
      intro idx
      cases coll.entryAt idx <;> rfl
    simp only [hid]
    rw [show (fun idx => if (coll.entryAt idx).isSome = true then some idx else none) =
      guard (fun idx => (coll.entryAt idx).isSome) from rfl, List.filterMap_eq_filter]
    exact List.filter_sublist
  exact List.pairwise_lt_range.sublist hsub

theorem deleteAt_spec (h : coll.Backed) (he : coll.entryAt idx = some ent) (hused : idx < coll.used)
    :
    ∃ post, coll.deleteAt idx = some post ∧ post.Backed ∧ post.toLiveMap =
        { coll.toLiveMap with
          entries := coll.live.filter fun found => found.ticket ≠ idx } := by
  have hget := entryAt_eq_some_iff.mp he
  have hi := (List.getElem?_eq_some_iff.mp hget).1
  have hset := entryAt_set coll none hi
  have hlive : ({ coll with
      entries := coll.entries.set idx none, liveLen := coll.liveLen - 1 } :
        OrderedCollection).live = coll.live.filter fun found => found.ticket ≠ idx := by
    rw [live, live, List.filter_filterMap]
    apply List.filterMap_congr
    intro other _
    have ho := hset other
    simp only [entryAt] at ho ⊢
    rw [ho]
    by_cases heq : other = idx
    · rw [heq]
      cases (coll.entries[idx]?).join <;> simp [Option.filter]
    · cases (coll.entries[other]?).join <;> simp [Option.filter, heq]
  have hc : (coll.live.filter fun found => found.ticket ≠ idx).length + 1 = coll.live.length := by
    have hm : idx ∈ coll.live.map LiveEntry.ticket :=
      List.mem_map.mpr ⟨⟨idx, ent.key, ent.value⟩, mem_live.mpr ⟨hused, he⟩, rfl⟩
    have hnodup : (coll.live.map LiveEntry.ticket).Nodup :=
      ascending_tickets.imp fun hlt => ne_of_lt hlt
    have hlen := List.length_erase_of_mem hm
    rw [hnodup.erase_eq_filter, List.filter_map, List.length_map, List.length_map] at hlen
    have hpos := List.length_pos_of_mem hm
    rw [List.length_map] at hpos
    have hs : ((fun ticket => ticket != idx) ∘ LiveEntry.ticket) =
        fun found : LiveEntry Value Value => decide (found.ticket ≠ idx) := by
      funext found
      rw [Function.comp_apply, bne, beq_eq_decide, decide_not]
    rw [hs] at hlen
    omega
  have ha : coll.deleteAt idx = some { coll with
      entries := coll.entries.set idx none, liveLen := coll.liveLen - 1 } := by
    rw [deleteAt, hget]
  refine ⟨_, ha, ⟨?_, h.small, ?_⟩, ?_⟩
  · simp only [List.length_set]
    exact h.room
  · rw [hlive]
    have hcounted := h.counted
    simp only
    omega
  · simp only [toLiveMap]
    rw [hlive]

theorem clear_spec (h : coll.Backed) : coll.clear.Backed ∧
      coll.clear.toLiveMap = { coll.toLiveMap with entries := [] } := by
  have hlive : coll.clear.live = [] := by
    rw [live, List.filterMap_eq_nil_iff]
    intro idx _
    simp only [clear, entryAt, List.getElem?_map]
    cases coll.entries[idx]? <;> rfl
  refine ⟨⟨?_, h.small, ?_⟩, ?_⟩
  · simp only [clear, List.length_map]
    exact h.room
  · rw [hlive]
    rfl
  · simp only [toLiveMap, hlive]
    rfl

theorem growCopy_spec (h : coll.Backed) {cap : Nat} {post : OrderedCollection}
    (hgrown : coll.growCopy cap = some post) : post.Backed ∧ post.toLiveMap = coll.toLiveMap := by
  simp only [growCopy] at hgrown
  split_ifs at hgrown
  obtain rfl := some.inj hgrown
  have hlen : (coll.entries.take coll.used).length = coll.used := by
    rw [List.length_take, Nat.min_eq_left h.room]
  have hlive : ({ coll with
      entries := coll.entries.take coll.used ++
        List.replicate (cap - coll.used) none } : OrderedCollection).live =
      coll.live := by
    refine live_congr (by rfl) ?_
    intro idx hi
    simp only [entryAt]
    rw [List.getElem?_append_left (by rw [hlen]; exact hi), List.getElem?_take_of_lt hi]
  refine ⟨⟨?_, h.small, ?_⟩, ?_⟩
  · simp only [List.length_append, hlen]
    exact Nat.le_add_right _ _
  · rw [hlive]
    exact h.counted
  · simp only [toLiveMap]
    rw [hlive]

end OrderedCollection

/-! ## Searches -/

namespace CollectionHeap

variable {same : Value → Value → Bool} {storage : OrderedCollection}

/-- The search for a key finds the position of its live entry. -/
theorem collectionFind_eq (key : Value) : collectionFind same storage key =
      (storage.live.find? fun ent => same ent.key key).map LiveEntry.ticket := by
  have hfind : collectionFind same storage key = (List.range storage.used).find? fun idx =>
      ((storage.entryAt idx).map fun ent => (⟨idx, ent.key, ent.value⟩ : LiveEntry Value Value)).any
        fun ent => same ent.key key := by
    rw [collectionFind]
    congr
    funext idx
    cases storage.entryAt idx <;> rfl
  rw [live, List.find?_filterMap, hfind]
  cases hf : (List.range storage.used).find? _ with
  | none => rfl
  | some idx =>
    have hsome := List.find?_some hf
    cases he : storage.entryAt idx with
    | none => simp [he] at hsome
    | some ent => simp [he]

theorem isSome_collectionFind (key : Value) :
    (collectionFind same storage key).isSome = storage.toLiveMap.has same key := by
  rw [collectionFind_eq, LiveMap.has_eq_isSome, LiveMap.get?, isSome_map, isSome_map]
  rfl

variable {key : Value} {idx : Nat}

/-- What is found is live. -/
theorem of_collectionFind (hf : collectionFind same storage key = some idx) :
    ∃ ent, storage.live.find? (fun ent => same ent.key key) = some ent ∧
      ent.ticket = idx ∧ idx < storage.used ∧
      storage.entryAt idx = some ⟨ent.key, ent.value⟩ ∧ same ent.key key = true := by
  rw [collectionFind_eq, map_eq_some_iff] at hf
  obtain ⟨ent, hfind, rfl⟩ := hf
  obtain ⟨hused, he⟩ := mem_live.mp (List.mem_of_find?_eq_some hfind)
  have hs : same ent.key key = true := by simpa using List.find?_some hfind
  exact ⟨ent, hfind, rfl, hused, he, hs⟩

/-- Exactly the entry that was found has the key. -/
theorem same_iff_ticket (hs : SameKey same) (hdist : storage.live.Pairwise fun left right => same
    left.key right.key = false) {found : LiveEntry Value Value} (hf : found ∈ storage.live) (hkey :
    same found.key key = true) {ent : LiveEntry Value Value} (he : ent ∈ storage.live) :
    same ent.key key = true ↔ ent.ticket = found.ticket := by
  constructor
  · intro ho
    by_contra hne
    have hsymm : Std.Symm fun left right : LiveEntry Value Value =>
        same left.key right.key = false := by
      refine ⟨fun left right hfalse => ?_⟩
      rw [← Bool.not_eq_true] at hfalse ⊢
      exact fun htrue => hfalse (hs.symm htrue)
    have hfalse := hdist.forall he hf fun heq => hne (congrArg LiveEntry.ticket heq)
    rw [hs.trans ho (hs.symm hkey)] at hfalse
    cases hfalse
  · intro hticket
    have hl := (mem_live.mp he).2
    have hr := (mem_live.mp hf).2
    rw [hticket, hr] at hl
    have hkeys : found.key = ent.key := congrArg CollectionEntry.key (some.inj hl)
    rw [← hkeys]
    exact hkey

/-- A cursor finds the first live entry from its position on. -/
theorem scanEntries_eq {cnt : Nat} (hc : cnt = storage.used - idx) :
    (∃ ent, storage.toLiveMap.nextFrom idx = some ent ∧
        scanEntries storage cnt idx = (some ⟨ent.key, ent.value⟩, ent.ticket + 1)) ∨
      (storage.toLiveMap.nextFrom idx = none ∧ (scanEntries storage cnt idx).1 = none) := by
  induction cnt generalizing idx with
  | zero =>
    right
    refine ⟨?_, rfl⟩
    rw [LiveMap.nextFrom_eq_none_iff]
    intro ticket hticket
    obtain ⟨ent, he, rfl⟩ := List.mem_map.mp hticket
    have hused := (mem_live.mp he).1
    omega
  | succ cnt ih =>
    have hi : idx < storage.used := by omega
    simp only [scanEntries]
    cases he : storage.entryAt idx with
    | some ent =>
      left
      refine ⟨⟨idx, ent.key, ent.value⟩, ?_, rfl⟩
      have hm : (⟨idx, ent.key, ent.value⟩ : LiveEntry Value Value) ∈ storage.live :=
        mem_live.mpr ⟨hi, he⟩
      have hticket : idx ∈ storage.toLiveMap.tickets := List.mem_map_of_mem hm
      cases hn : storage.toLiveMap.nextFrom idx with
      | none =>
        exact absurd ((LiveMap.nextFrom_eq_none_iff idx).mp hn idx hticket) (lt_irrefl _)
      | some found =>
        obtain ⟨hf, hfrom, hfirst⟩ := LiveMap.nextFrom_eq_some ascending_tickets hn
        have hs : found.ticket = idx := le_antisymm (hfirst idx hticket (le_refl _)) hfrom
        obtain ⟨-, hat⟩ := mem_live.mp hf
        rw [hs, he] at hat
        obtain ⟨hkey, hv⟩ := CollectionEntry.mk.inj (some.inj hat)
        rw [hkey, hv, ← hs]
    | none =>
      -- nothing lives at the position, so the search goes on behind it
      have hs : storage.toLiveMap.nextFrom idx = storage.toLiveMap.nextFrom (idx + 1) := by
        apply List.find?_congr
        intro ent hm
        have hne : ent.ticket ≠ idx := by
          rintro rfl
          rw [(mem_live.mp hm).2] at he
          cases he
        rw [decide_eq_decide]
        omega
      rw [hs]
      exact ih (by omega)

end CollectionHeap

end TachyonEngine.Vm
