import TachyonEngine.Vm.PropertyKeyOrder

/-!
# Own keys and the history of an object

A history stamps each property of each object with the time of its creation. The specified order of
the own keys is: the array indices by their number, then the strings and then the symbols by their
time of creation, where the keys an object is created with come first. The sorted keys are in this
order, whatever the sort does with equal ranks, exactly if no two of the strings share a rank and
the object is not a String wrapper with strings of its own.
-/

namespace TachyonEngine.Vm

open Lib.Capacity Contents Function

/-! ## Histories -/

/-- A heap with the times at which the properties of its objects were created. -/
structure Chronicle where
  heap : PropertyHeap
  clock : Nat
  created : Nat → PropertyKey → Nat

namespace Chronicle

def start (heap : PropertyHeap) : Chronicle :=
  { heap := heap, clock := 0, created := fun _ _ => 0 }

/-- Adds a property and stamps it. -/
def added (chron : Chronicle) (obj : Nat) (record : PropertyRecord) (value : Value) :
    Chronicle :=
  match chron.heap.addPropertySlotWithKind obj record.key record.kind value record.attributes with
  | (.ok (), heap) =>
    { heap := heap
      clock := chron.clock + 1
      created := Function.update chron.created obj
        (Function.update (chron.created obj) record.key chron.clock) }
  | (.error _, heap) => { chron with heap := heap }

/-- Objects add, reconfigure and remove properties; an operation may fail. -/
inductive Step (chron : Chronicle) : Chronicle → Prop where
  | add (obj : Nat) (record : PropertyRecord) (value : Value)
      (absent : chron.heap.shapes.lookup (chron.heap.objects obj).shape record.key = none) :
      Step chron (chron.added obj record value)
  | reconfigure (obj : Nat) (record : PropertyRecord) (value : Option Value)
      (isPresent : chron.heap.shapes.lookup (chron.heap.objects obj).shape record.key ≠ none) :
      Step chron
        { chron with
          heap := (chron.heap.reconfigurePropertySlot obj record.key record.kind
            record.attributes value).2 }
  | remove (obj : Nat) (removed : PropertyKey) :
      Step chron
        { chron with heap := (chron.heap.removePropertySlot obj removed).2 }

/-- The strings and the symbols of every object stand in the order of their creation. -/
structure Ordered (chron : Chronicle) (denote : ShapeId → Layout) : Prop where
  stores : chron.heap.Stores denote
  sorted : ∀ obj symbols, ((Contents.keys (chron.heap.contents denote obj)).filter fun key =>
      !key.isPrivate && (key.isSymbol == symbols)).Pairwise
        fun left right => chron.created obj left < chron.created obj right
  past : ∀ obj, ∀ key ∈ Contents.keys (chron.heap.contents denote obj),
    chron.created obj key < chron.clock

open PropertyHeap in
/-- What an object that is left alone stores. -/
theorem contents_of_same {heap heap' : PropertyHeap} {denote denote' : ShapeId → Layout}
    (h : heap.Stores denote) (hgr : heap.Grows denote heap' denote') {obj : Nat}
    (hs : heap'.objects obj = heap.objects obj) :
    heap'.contents denote' obj = heap.contents denote obj := by
  rw [contents, contents, hs, hgr.kept _ (h.known obj)]

variable {chron chron' : Chronicle} {denote denote' : ShapeId → Layout}

/-- A failed operation leaves the order alone. -/
theorem Ordered.of_same (h : chron.Ordered denote) (hstores : chron'.heap.Stores denote') (hgr :
    chron.heap.Grows denote chron'.heap denote') (hobj : chron'.heap.objects = chron.heap.objects)
    (hclock : chron'.clock = chron.clock) (hcreated : chron'.created = chron.created) :
    chron'.Ordered denote' := by
  have hs : ∀ obj, chron'.heap.contents denote' obj = chron.heap.contents denote obj := by
    intro obj
    exact contents_of_same h.stores hgr (by rw [hobj])
  refine ⟨hstores, ?_, ?_⟩
  · intro obj symbols
    rw [hs, hcreated]
    exact h.sorted obj symbols
  · intro obj
    rw [hs, hcreated, hclock]
    exact h.past obj

/-- An operation that only takes keys away, or none, leaves the order of the others alone. -/
theorem Ordered.of_sublist (h : chron.Ordered denote) {obj : Nat} (hstores : chron'.heap.Stores
    denote') (hgr : chron.heap.Grows denote chron'.heap denote') (hos : ∀ other, other ≠ obj →
    chron'.heap.objects other = chron.heap.objects other) (hclock : chron'.clock = chron.clock)
    (hcreated : chron'.created = chron.created) (hkinds : ∀ symbols, ((keys (chron'.heap.contents
    denote' obj)).filter fun key => !key.isPrivate && (key.isSymbol == symbols)).Sublist ((keys
    (chron.heap.contents denote obj)).filter fun key => !key.isPrivate && (key.isSymbol ==
    symbols))) (hkeys : ∀ key ∈ keys (chron'.heap.contents denote' obj), key ∈ keys
    (chron.heap.contents denote obj)) : chron'.Ordered denote' := by
  refine ⟨hstores, ?_, ?_⟩
  · intro other symbols
    rw [hcreated]
    by_cases ho : other = obj
    · rw [ho]
      exact (h.sorted obj symbols).sublist (hkinds symbols)
    · rw [contents_of_same h.stores hgr (hos other ho)]
      exact h.sorted other symbols
  · intro other
    rw [hcreated, hclock]
    by_cases ho : other = obj
    · rw [ho]
      intro key hkey
      exact h.past obj key (hkeys key hkey)
    · rw [contents_of_same h.stores hgr (hos other ho)]
      exact h.past other

theorem keys_changed (rec : PropertyRecord) (val : Option Value) (contents : Contents) :
    keys (PropertyHeap.changed rec val contents) = keys contents := by
  simp only [keys, PropertyHeap.changed, List.map_map]
  apply List.map_congr_left
  intro ent _
  by_cases hkey : ent.1.key = rec.key
  · simp [hkey]
  · simp [hkey]

theorem Ordered.added (h : chron.Ordered denote) (obj : Nat) (rec : PropertyRecord) (val : Value)
    (hab : chron.heap.shapes.lookup (chron.heap.objects obj).shape rec.key = none) :
    ∃ denote', (chron.added obj rec val).Ordered denote' := by
  have hnew := (h.stores.lookup_eq_none_iff obj rec.key).mp hab
  have hout := PropertyHeap.outcome_add h.stores val hab
  simp only [Chronicle.added]
  generalize chron.heap.addPropertySlotWithKind obj rec.key rec.kind val
    rec.attributes = res at hout ⊢
  cases hout with
  | failed stores grows objects => exact ⟨_, h.of_same stores grows objects rfl rfl⟩
  | @done heap' denote' stores grows others stored =>
    have hkept : ∀ key ∈ keys (chron.heap.contents denote obj),
        update (chron.created obj) rec.key chron.clock key = chron.created obj key := by
      intro key hkey
      apply update_of_ne
      rintro rfl
      exact hnew hkey
    have hkeys : keys (heap'.contents denote' obj) =
        keys (chron.heap.contents denote obj) ++ [rec.key] := by
      rw [stored]
      exact List.map_append
    refine ⟨denote', stores, ?_, ?_⟩
    · intro other symbols
      by_cases ho : other = obj
      · subst ho
        simp only [update_self]
        rw [hkeys, List.filter_append]
        apply List.pairwise_append.mpr
        refine ⟨?_, ?_, ?_⟩
        · apply (h.sorted other symbols).imp_of_mem
          intro left right hleft hr hlt
          rw [hkept left (List.mem_filter.mp hleft).1, hkept right (List.mem_filter.mp hr).1]
          exact hlt
        · exact List.pairwise_singleton _ _ |>.sublist List.filter_sublist
        · intro left hleft right hr
          have hl := List.mem_singleton.mp (List.mem_filter.mp hr).1
          have hm := (List.mem_filter.mp hleft).1
          rw [hkept left hm, hl, update_self]
          exact h.past other left hm
      · simp only [update_of_ne ho]
        rw [contents_of_same h.stores grows (others other ho)]
        exact h.sorted other symbols
    · intro other
      by_cases ho : other = obj
      · subst ho
        simp only [update_self]
        rw [hkeys]
        intro key hkey
        rcases List.mem_append.mp hkey with hold | hl
        · rw [hkept key hold]
          exact Nat.lt_succ_of_lt (h.past other key hold)
        · rw [List.mem_singleton.mp hl, update_self]
          exact Nat.lt_succ_self _
      · simp only [update_of_ne ho]
        rw [contents_of_same h.stores grows (others other ho)]
        intro key hkey
        exact Nat.lt_succ_of_lt (h.past other key hkey)

theorem Ordered.step (h : chron.Ordered denote) (hstep : Step chron chron') :
    ∃ denote', chron'.Ordered denote' := by
  cases hstep with
  | add obj rec val absent => exact h.added obj rec val absent
  | reconfigure obj rec val isPresent =>
    have hout := PropertyHeap.outcome_reconfigure h.stores val isPresent
    generalize chron.heap.reconfigurePropertySlot obj rec.key rec.kind
      rec.attributes val = res at hout ⊢
    cases hout with
    | failed stores grows objects => exact ⟨_, h.of_same stores grows objects rfl rfl⟩
    | done stores grows others stored =>
      have hkeys := keys_changed rec val (chron.heap.contents denote obj)
      rw [← stored] at hkeys
      refine ⟨_, h.of_sublist stores grows others rfl rfl ?_ ?_⟩
      · intro symbols
        rw [hkeys]
      · intro key hkey
        rw [hkeys] at hkey
        exact hkey
  | remove obj removed =>
    have hout := PropertyHeap.outcome_remove h.stores obj removed
    generalize chron.heap.removePropertySlot obj removed = res at hout ⊢
    cases hout with
    | failed stores grows objects => exact ⟨_, h.of_same stores grows objects rfl rfl⟩
    | done stores grows others stored =>
      refine ⟨_, h.of_sublist stores grows others rfl rfl ?_ ?_⟩
      · intro symbols
        rw [stored, filter_keys_retained]
        exact List.filter_sublist
      · intro key hkey
        rw [stored] at hkey
        obtain ⟨ent, he, rfl⟩ := List.mem_map.mp hkey
        exact List.mem_map.mpr ⟨ent, (mem_retained.mp he).1, rfl⟩

theorem ordered_run {shapes : ShapeTable} {limit : Nat} {forShapes forTransitions : Allocator} (hnew
    : ShapeTable.new limit forShapes forTransitions = .ok shapes) {prototype : Nat → Value} {alloc :
    Allocator} (hrun : Relation.ReflTransGen Step (start (.start shapes prototype alloc)) chron) :
    ∃ denote, chron.Ordered denote := by
  induction hrun with
  | refl =>
    obtain ⟨denote, hstores⟩ := PropertyHeap.stores_run hnew (.refl : Relation.ReflTransGen
      PropertyHeap.Step (.start shapes prototype alloc) _)
    have hn : ∀ obj, keys
        ((PropertyHeap.start shapes prototype alloc).contents denote obj) = [] := by
      intro obj
      rw [PropertyHeap.contents, keys]
      simp [PropertyHeap.start, OrdinaryObject.new, OrdinaryObject.slots]
    refine ⟨denote, hstores, ?_, ?_⟩
    · intro obj symbols
      simp only [start]
      rw [hn obj]
      exact List.Pairwise.nil
    · intro obj key hkey
      simp only [start] at hkey
      rw [hn obj] at hkey
      cases hkey
  | tail _ hstep ih =>
    obtain ⟨denote, hordered⟩ := ih
    exact hordered.step hstep

end Chronicle

/-! ## The specified order -/

/-- The entries that `own_keys` lists when it gets its memory. -/
def PropertyHeap.listing (heap : PropertyHeap) (obj : Nat) : List OwnPropertyEntry :=
  match (heap.shapes.ownKeys (heap.objects obj).shape .granting).1 with
  | .ok keys => keys.collect
  | .error _ => []

/-- The keys of a receiver that are neither structural nor virtual keys of a function. -/
def Receiver.OwnsExotic (atoms : AtomTable) (key : PropertyKey) : Receiver → Prop
  | .stringWrapper length _ =>
    key = .atom atoms.lengthAtom ∨ ∃ index, index < length ∧ key = atoms.indexKey index
  | .typedArray length _ => ∃ index, index < length ∧ key = atoms.indexKey index
  | .array elements fits =>
    ∃ index ∈ (Receiver.array elements fits).denseIndices, key = atoms.indexKey index
  | _ => False

/-- The keys an object is created with, in their order. -/
def PropertyHeap.virtualOrdinal (heap : PropertyHeap) (atoms : AtomTable) (obj : Nat)
    (receiver : Receiver) (key : PropertyKey) : Option Nat :=
  match receiver with
  | .stringWrapper _ _ => if key = .atom atoms.lengthAtom then some 0 else none
  | _ =>
    match (receiver.virtualKeys atoms).find? fun entry => entry.2 = key with
    | none => none
    | some (ordinal, _) =>
      match heap.shapes.lookup (heap.objects obj).shape key with
      | none => some ordinal
      | some property => if property.attributes.virtualOrigin then some ordinal else none

namespace Chronicle

variable (chron : Chronicle) (atoms : AtomTable) (obj : Nat) (receiver : Receiver)

/-- The place of a key: its group and its number or time in the group. -/
def place (key : PropertyKey) : Nat × Nat :=
  match atoms.index key with
  | some index => (0, index)
  | none =>
    if key.isSymbol then (2, chron.created obj key)
    else
      match chron.heap.virtualOrdinal atoms obj receiver key with
      | some ordinal => (1, ordinal)
      | none => (1, virtualKeyCount + chron.created obj key)

/-- One key stands before another. -/
def Before (left right : PropertyKey) : Prop :=
  Prod.Lex (· < ·) (· < ·) (chron.place atoms obj receiver left)
    (chron.place atoms obj receiver right)

/-- A key of the object that a program can see. -/
def HasOwnKey (key : PropertyKey) : Prop :=
  ((∃ ordinal, (ordinal, key) ∈ receiver.virtualKeys atoms) ∧
      chron.heap.shapes.lookup (chron.heap.objects obj).shape key = none) ∨
    receiver.OwnsExotic atoms key ∨
    (key.isPrivate = false ∧ ∃ property,
      chron.heap.shapes.lookup (chron.heap.objects obj).shape key = some property ∧
        chron.heap.propertyIsPresent obj property = true)

/-- The keys of the object, each once, in the specified order. -/
def Specified (sorted : List RankedPropertyKey) : Prop :=
  (sorted.map RankedPropertyKey.key).Pairwise (chron.Before atoms obj receiver) ∧
    ∀ key, key ∈ sorted.map RankedPropertyKey.key ↔ chron.HasOwnKey atoms obj receiver key

/-- A present string that is not an index and has not been there from the creation on. -/
def Plain (entry : OwnPropertyEntry) : Prop :=
  (∃ atom, entry.key = .atom atom) ∧ atoms.index entry.key = none ∧
    chron.heap.propertyIsPresent obj entry.property = true ∧
    ¬ (entry.property.attributes.virtualOrigin = true ∧
      ∃ ordinal, (ordinal, entry.key) ∈ receiver.virtualKeys atoms)

/-- No two later strings stand in one block of four places, and a String wrapper has none. -/
structure RanksApart : Prop where
  blocks : ∀ i j left right, (chron.heap.listing obj)[i]? = some left →
    (chron.heap.listing obj)[j]? = some right → chron.Plain atoms obj receiver left →
    chron.Plain atoms obj receiver right → i ≠ j → i / 4 ≠ j / 4
  wrapper : receiver.stringLength ≠ none →
    ∀ entry ∈ chron.heap.listing obj, ¬ chron.Plain atoms obj receiver entry

end Chronicle

end TachyonEngine.Vm
