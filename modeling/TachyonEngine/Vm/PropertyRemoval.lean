import TachyonEngine.Vm.PropertyStorage

/-!
# Removing a property

What an object stores is the list of its properties with their values, in the order of the slots. An
addition appends to the list and a reconfiguration changes one entry of it. A removal goes through
the iterator that is meant for the keys a program can see, so it keeps the strings and the symbols
and loses the private elements.
-/

namespace TachyonEngine.Vm

open Lib.Capacity List Function

/-- The properties of an object with their values, in the order of the slots. -/
abbrev Contents := List (PropertyRecord × Value)

namespace Contents

def keys (contents : Contents) : List PropertyKey := contents.map fun entry => entry.1.key

/-- The strings or the symbols without one key. -/
def retainedOfKind (removed : PropertyKey) (symbols : Bool) (contents : Contents) : Contents :=
  contents.filter fun entry =>
    (!entry.1.key.isPrivate && (entry.1.key.isSymbol == symbols)) && entry.1.key ≠ removed

/-- The keys of the strings and then of the symbols. -/
def publicKeys (contents : Contents) : List PropertyKey :=
  (contents.keys.filter fun key => !key.isPrivate && (key.isSymbol == false)) ++
    (contents.keys.filter fun key => !key.isPrivate && (key.isSymbol == true))

/-- What a removal makes of the properties. -/
def retained (removed : PropertyKey) (contents : Contents) : Contents :=
  retainedOfKind removed false contents ++ retainedOfKind removed true contents

theorem mem_retained {removed : PropertyKey} {contents : Contents} {ent : PropertyRecord × Value} :
    ent ∈ retained removed contents ↔
      ent ∈ contents ∧ ent.1.key.isPrivate = false ∧ ent.1.key ≠ removed := by
  simp only [retained, retainedOfKind, mem_append, mem_filter, Bool.and_eq_true, beq_iff_eq]
  cases ent.1.key.isSymbol <;> simp

/-- The keys that are retained of one kind. -/
theorem keys_retainedOfKind (removed : PropertyKey) (symbols : Bool) (contents : Contents) :
    keys (retainedOfKind removed symbols contents) =
      ((keys contents).filter fun key => !key.isPrivate && (key.isSymbol == symbols)).filter
        fun key => key ≠ removed := by
  rw [filter_filter, keys, keys, filter_map]
  congr 1
  apply filter_congr
  intro ent _
  exact Bool.and_comm _ _

/-- The keys of one kind that stay, in their old order. -/
theorem filter_keys_retained (removed : PropertyKey) (symbols : Bool) (contents : Contents) :
    ((keys (retained removed contents)).filter fun key =>
        !key.isPrivate && (key.isSymbol == symbols)) =
      ((keys contents).filter fun key => !key.isPrivate && (key.isSymbol == symbols)).filter
        fun key => key ≠ removed := by
  have hof : ∀ other, (keys (retainedOfKind removed other contents)).filter
      (fun key => !key.isPrivate && (key.isSymbol == symbols)) =
      if other = symbols then keys (retainedOfKind removed other contents) else [] := by
    intro other
    rw [keys_retainedOfKind]
    split_ifs with heq
    · rw [heq, filter_eq_self]
      intro key hkey
      exact (mem_filter.mp (mem_filter.mp hkey).1).2
    · rw [filter_eq_nil_iff]
      intro key hkey
      have hk := (mem_filter.mp (mem_filter.mp hkey).1).2
      simp only [Bool.and_eq_true, beq_iff_eq] at hk ⊢
      rw [hk.2]
      exact fun h => heq h.2
  have happend : keys (retained removed contents) =
      keys (retainedOfKind removed false contents) ++ keys (retainedOfKind removed true contents) :=
    map_append
  rw [happend, filter_append, hof false, hof true, ← keys_retainedOfKind]
  cases symbols <;> simp

/-- The order of the keys that stay is the old one. -/
theorem publicKeys_retained (removed : PropertyKey) (contents : Contents) :
    publicKeys (retained removed contents) =
      (publicKeys contents).filter fun key => key ≠ removed := by
  rw [publicKeys, filter_keys_retained, filter_keys_retained, ← filter_append]
  rfl

end Contents

namespace PropertyHeap

/-- What an object stores. -/
def contents (heap : PropertyHeap) (denote : ShapeId → Layout) (obj : Nat) : Contents :=
  (denote (heap.objects obj).shape).zip (heap.objects obj).slots

/-- The shapes of the objects are known, and each property has a slot. -/
structure Stores (heap : PropertyHeap) (denote : ShapeId → Layout) : Prop where
  encodes : heap.shapes.Encodes denote
  known : ∀ obj, (heap.objects obj).shape < heap.shapes.shapes.len
  slots : ∀ obj, (heap.objects obj).slots.length = (denote (heap.objects obj).shape).length

/-- A heap whose table has grown: old shapes keep their layouts. -/
structure Grows (heap : PropertyHeap) (denote : ShapeId → Layout) (heap' : PropertyHeap)
    (denote' : ShapeId → Layout) : Prop where
  encodes : heap'.shapes.Encodes denote'
  length : heap.shapes.shapes.len ≤ heap'.shapes.shapes.len
  kept : ∀ id, id < heap.shapes.shapes.len → denote' id = denote id

variable {heap heap' : PropertyHeap} {denote denote' : ShapeId → Layout} {obj : Nat}

section

variable (h : heap.Stores denote)

include h

theorem Grows.refl : heap.Grows denote heap denote := ⟨h.encodes, le_refl _, fun _ _ => rfl⟩

/-- The objects that are left alone store what they stored. -/
theorem Grows.stores (hgr : heap.Grows denote heap' denote')
    (hobj : heap'.objects = heap.objects) : heap'.Stores denote' := by
  refine ⟨hgr.encodes, ?_, ?_⟩
  · intro obj
    rw [hobj]
    exact lt_of_lt_of_le (h.known obj) hgr.length
  · intro obj
    rw [hobj, hgr.kept _ (h.known obj)]
    exact h.slots obj

/-- One object gets a new shape and new slots. -/
theorem Grows.stores_replace (hgr : heap.Grows denote heap' denote') {replaced : OrdinaryObject}
    (hobj : heap'.objects = Function.update heap.objects obj replaced)
    (hknown : replaced.shape < heap'.shapes.shapes.len)
    (hslots : replaced.slots.length = (denote' replaced.shape).length) : heap'.Stores denote' := by
  refine ⟨hgr.encodes, ?_, ?_⟩
  · intro other
    by_cases ho : other = obj
    · rw [hobj, ho, update_self]
      exact hknown
    · rw [hobj, update_of_ne ho]
      exact lt_of_lt_of_le (h.known other) hgr.length
  · intro other
    by_cases ho : other = obj
    · rw [hobj, ho, update_self]
      exact hslots
    · rw [hobj, update_of_ne ho, hgr.kept _ (h.known other)]
      exact h.slots other

omit h in
theorem Grows.of_shapes {heap'' : PropertyHeap} (h : heap.Grows denote heap' denote')
    (hshapes : heap''.shapes = heap'.shapes) : heap.Grows denote heap'' denote' := by
  refine ⟨?_, ?_, h.kept⟩
  · rw [hshapes]
    exact h.encodes
  · rw [hshapes]
    exact h.length

/-! ## Memory -/

omit h in
/-- A request for memory leaves the shapes and the objects alone. -/
theorem reserve_eq {cnt : Nat} {granted : Bool} (h : heap.reserve cnt = (granted, heap')) :
    heap'.shapes = heap.shapes ∧ heap'.objects = heap.objects := by
  simp only [reserve] at h
  split at h
  · obtain rfl := (Prod.mk.inj h).2
    exact ⟨rfl, rfl⟩
  · obtain rfl := (Prod.mk.inj h).2
    exact ⟨rfl, rfl⟩

omit h in
theorem allocate_eq {granted : Bool} (h : heap.allocate = (granted, heap')) :
    heap'.shapes = heap.shapes ∧ heap'.objects = heap.objects := by
  obtain rfl := (Prod.mk.inj h).2
  exact ⟨rfl, rfl⟩

/-! ## Transitions of shapes -/

/-- The outcome of a transition of the shape of an object. -/
theorem Stores.grows_of_performed {source : ShapeId} {op : ShapeOperation}
    {res : Except ShapeError ShapeId} {shapes : ShapeTable}
    (hperformed : ShapeTable.Performed heap.shapes denote source op (res, shapes)) :
    ∃ denote', heap.Grows denote { heap with shapes := shapes } denote' ∧
      ∀ id, res = .ok id → id < shapes.shapes.len ∧ denote' id = op.apply (denote source) := by
  cases hperformed with
  | failed same =>
    refine ⟨denote, ⟨h.encodes.of_sameEntries same, ?_, fun _ _ => rfl⟩, nofun⟩
    exact le_of_eq (congrArg length same.shapes).symm
  | @reached reachedId _ denote' encodes grows kept known res =>
    refine ⟨denote', ⟨encodes, grows.length_le, kept⟩, ?_⟩
    intro id hid
    obtain rfl := Except.ok.inj hid
    exact ⟨known, res⟩

/-! ## What the operations do to the contents -/

/-- What an operation on one object may do: it fails and leaves the objects alone, or the object
stores `after` and the others are left alone. -/
inductive Outcome (heap : PropertyHeap) (denote : ShapeId → Layout) (obj : Nat)
    (after : Contents) : Except PropertyError Unit × PropertyHeap → Prop where
  | failed {error : PropertyError} {heap' : PropertyHeap} {denote' : ShapeId → Layout}
      (stores : heap'.Stores denote') (grows : heap.Grows denote heap' denote')
      (objects : heap'.objects = heap.objects) :
      Outcome heap denote obj after (.error error, heap')
  | done {heap' : PropertyHeap} {denote' : ShapeId → Layout}
      (stores : heap'.Stores denote') (grows : heap.Grows denote heap' denote')
      (others : ∀ other, other ≠ obj → heap'.objects other = heap.objects other)
      (stored : heap'.contents denote' obj = after) :
      Outcome heap denote obj after (.ok (), heap')

/-- An outcome with a table that has grown and objects that are left alone. -/
theorem Outcome.failed_of_grows {post : Contents} {err : PropertyError}
    (hgr : heap.Grows denote heap' denote') (hobj : heap'.objects = heap.objects) :
    Outcome heap denote obj post (.error err, heap') :=
  .failed (hgr.stores h hobj) hgr hobj

omit h in
/-- Requests for memory do not matter to an outcome. -/
theorem Outcome.of_same {heap₁ : PropertyHeap} {post : Contents}
    {res : Except PropertyError Unit × PropertyHeap}
    (h : Outcome heap₁ denote obj post res) (hshapes : heap₁.shapes = heap.shapes)
    (hobj : heap₁.objects = heap.objects) : Outcome heap denote obj post res := by
  have hgr : ∀ {heap' denote'}, heap₁.Grows denote heap' denote' →
      heap.Grows denote heap' denote' := by
    intro heap' denote' hgr
    refine ⟨hgr.encodes, ?_, ?_⟩
    · rw [← hshapes]
      exact hgr.length
    · rw [← hshapes]
      exact hgr.kept
  cases h with
  | failed stores grows objects => exact .failed stores (hgr grows) (objects.trans hobj)
  | done stores grows others stored =>
    refine .done stores (hgr grows) ?_ stored
    intro other ho
    rw [others other ho, hobj]

/-- An outcome in which the object gets a new shape and new slots. -/
theorem Outcome.done_of_replace (hgr : heap.Grows denote heap' denote') (replaced : OrdinaryObject)
    (hobj : heap'.objects = Function.update heap.objects obj replaced)
    (hknown : replaced.shape < heap'.shapes.shapes.len)
    (hslots : replaced.slots.length = (denote' replaced.shape).length) :
    Outcome heap denote obj ((denote' replaced.shape).zip replaced.slots) (.ok (), heap') := by
  refine .done (hgr.stores_replace h hobj hknown hslots) hgr ?_ ?_
  · intro other ho
    rw [hobj, update_of_ne ho]
  · rw [contents, hobj, update_self]

/-- An outcome in which the object gets a new shape and a new storage. -/
theorem Outcome.done_of_storage (hgr : heap.Grows denote heap' denote')
    (hobj : heap'.objects = heap.objects) {shape : ShapeId} {storage : Option PropertyStorage}
    (hknown : shape < heap'.shapes.shapes.len) {slots : List Value}
    (hslots : (storage.map PropertyStorage.slots).getD [] = slots)
    (hlen : slots.length = (denote' shape).length) :
    Outcome heap denote obj ((denote' shape).zip slots)
      (.ok (), heap'.replacePropertyStorage obj shape storage) := by
  subst hslots
  have hgr' : heap.Grows denote (heap'.replacePropertyStorage obj shape storage) denote' :=
    hgr.of_shapes rfl
  refine .done_of_replace h hgr'
    { heap.objects obj with shape := shape, storage := storage } ?_ hknown hlen
  simp only [replacePropertyStorage]
  rw [hobj]

/-- A request for memory that is refused is a failure, and one that is granted changes nothing
else. -/
theorem Outcome.of_request {post : Contents} {err : PropertyError}
    {req : Bool × PropertyHeap} {next : PropertyHeap → Except PropertyError Unit × PropertyHeap}
    (hgr : heap.Grows denote heap' denote') (hobj : heap'.objects = heap.objects) :
    req.2.shapes = heap'.shapes ∧ req.2.objects = heap'.objects →
    (heap.Grows denote req.2 denote' → req.2.objects = heap.objects →
      req.2.shapes = heap'.shapes → Outcome heap denote obj post (next req.2)) →
    Outcome heap denote obj post (match req with
      | (false, heap) => (.error err, heap)
      | (true, heap) => next heap) := by
  intro hrequest hn
  obtain ⟨granted, heap₁⟩ := req
  have hgr₁ := hgr.of_shapes hrequest.1
  have hobj₁ := hrequest.2.trans hobj
  cases granted with
  | false => exact .failed_of_grows h hgr₁ hobj₁
  | true => exact hn hgr₁ hobj₁ hrequest.1

theorem outcome_add {rec : PropertyRecord} (val : Value)
    (hab : heap.shapes.lookup (heap.objects obj).shape rec.key = none) :
    Outcome heap denote obj (heap.contents denote obj ++ [(rec, val)])
      (heap.addPropertySlotWithKind obj rec.key rec.kind val rec.attributes) := by
  have hop : (ShapeOperation.add rec).Permitted (denote (heap.objects obj).shape) :=
    h.encodes.permitted_of_allows (h.known obj) hab
  obtain ⟨outcome, hout, hperformed⟩ := h.encodes.performed (h.known obj) hop
  obtain rfl := Option.some.inj hout
  simp only [addPropertySlotWithKind]
  generalize heap.shapes.transitionAddKind (heap.objects obj).shape rec.key rec.kind
    rec.attributes = outcome at hperformed ⊢
  obtain ⟨res, shapes⟩ := outcome
  obtain ⟨denote', hgr, hreached⟩ := h.grows_of_performed hperformed
  cases res with
  | error err => exact .failed_of_grows h hgr rfl
  | ok shape =>
    obtain ⟨hknown, hdenote⟩ := hreached shape rfl
    have hlen : ((heap.objects obj).slots ++ [val]).length = (denote' shape).length := by
      rw [hdenote, length_append, h.slots]
      simp [ShapeOperation.apply]
    have hsto : (denote' shape).zip ((heap.objects obj).slots ++ [val]) =
        heap.contents denote obj ++ [(rec, val)] := by
      rw [hdenote]
      exact zip_append (h.slots obj).symm
    refine .of_request h hgr rfl (reserve_eq rfl) fun hgr₁ hobj₁ hshapes₁ => ?_
    refine .of_request h hgr₁ hobj₁ (reserve_eq rfl) fun hgr₂ hobj₂ hshapes₂ => ?_
    refine .of_request h hgr₂ hobj₂ (allocate_eq rfl) fun hgr₃ hobj₃ hshapes₃ => ?_
    rw [← hsto]
    refine .done_of_storage h hgr₃ hobj₃ ?_ rfl hlen
    rw [hshapes₃, hshapes₂, hshapes₁]
    exact hknown

omit h in
theorem setSymbolPresence_slots (storage : PropertyStorage) (slot : Nat) (key : PropertyKey)
    (isPresent : Bool) : (storage.setSymbolPresence slot key isPresent).slots = storage.slots := by
  simp only [PropertyStorage.setSymbolPresence]
  split <;> rfl

/-- The properties with a new record, and perhaps a new value, for one key. -/
def changed (record : PropertyRecord) (value : Option Value) (contents : Contents) : Contents :=
  contents.map fun entry =>
    if entry.1.key = record.key then (record, value.getD entry.2) else entry

omit h in
/-- Reconfiguring the layout and writing the slot is changing the entry of the key. -/
theorem zip_reconfigure {layout : Layout} {old : PropertyRecord} {slot : Nat}
    (hnodup : (layout.map PropertyRecord.key).Nodup) (hget : layout[slot]? = some old)
    (rec : PropertyRecord) (hkey : old.key = rec.key) (slots : List Value)
    (val : Option Value) : ((ShapeOperation.reconfigure rec).apply layout).zip
        ((val.map fun val => slots.set slot val).getD slots) =
      changed rec val (layout.zip slots) := by
  apply ext_getElem?
  intro i
  simp only [changed, ShapeOperation.apply, getElem?_map, zip, getElem?_zipWith]
  cases hi : layout[i]? with
  | none => simp
  | some here =>
    simp only [Option.map_some]
    by_cases hsl : here.key = rec.key
    · -- the slot of the key
      obtain rfl := Layout.slot_unique hnodup hi hget (hsl.trans hkey.symm)
      cases val with
      | none =>
        simp only [Option.map_none, Option.getD_none]
        cases slots[i]? <;> simp [hsl]
      | some val =>
        simp only [Option.map_some, Option.getD_some]
        by_cases hlt : i < slots.length
        · rw [getElem?_set_self hlt, getElem?_eq_getElem hlt]
          simp [hsl]
        · rw [getElem?_eq_none (by rw [length_set]; exact not_lt.mp hlt),
            getElem?_eq_none (not_lt.mp hlt)]
          rfl
    · -- another slot
      have hne : slot ≠ i := by
        rintro rfl
        rw [hget] at hi
        exact hsl (Option.some.inj hi ▸ hkey)
      cases val with
      | none =>
        simp only [Option.map_none, Option.getD_none]
        cases slots[i]? <;> simp [hsl]
      | some val =>
        simp only [Option.map_some, Option.getD_some]
        rw [getElem?_set_ne hne]
        cases slots[i]? <;> simp [hsl]

theorem outcome_reconfigure {rec : PropertyRecord} (val : Option Value)
    (hpres : heap.shapes.lookup (heap.objects obj).shape rec.key ≠ none) :
    Outcome heap denote obj (changed rec val (heap.contents denote obj))
      (heap.reconfigurePropertySlot obj rec.key rec.kind rec.attributes val) := by
  have hop : (ShapeOperation.reconfigure rec).Permitted (denote (heap.objects obj).shape) :=
    h.encodes.permitted_of_allows (h.known obj) hpres
  obtain ⟨found, hf⟩ := Option.ne_none_iff_exists'.mp hpres
  obtain ⟨outcome, hout, hperformed⟩ := h.encodes.performed (h.known obj) hop
  simp only [ShapeTable.perform] at hout
  simp only [reconfigurePropertySlot, hf, hout]
  obtain ⟨res, shapes⟩ := outcome
  obtain ⟨denote', hgr, hreached⟩ := h.grows_of_performed hperformed
  cases res with
  | error err => exact .failed_of_grows h hgr rfl
  | ok shape =>
    obtain ⟨hknown, hdenote⟩ := hreached shape rfl
    have hget := (h.encodes.lookup_iff (h.known obj) _ _).mp hf
    have hzip := zip_reconfigure (h.encodes.nodup (h.known obj)) hget rec rfl
      (heap.objects obj).slots val
    rw [← hdenote] at hzip
    have hc : (denote' shape).length = (heap.objects obj).slots.length := by
      rw [hdenote, h.slots obj]
      exact length_map _
    rw [contents, ← hzip]
    cases val with
    | none =>
      have hgr' : heap.Grows denote
          ({ heap with shapes := shapes }.setObjectShape obj shape) denote' :=
        hgr.of_shapes rfl
      exact .done_of_replace h hgr' { heap.objects obj with shape := shape } rfl hknown hc.symm
    | some val =>
      simp only [updatePropertySlot]
      cases hsto : (heap.objects obj).storage with
      | none =>
        -- a key that is found has a slot
        have hlt := (List.getElem?_eq_some_iff.mp hget).1
        rw [← h.slots obj, OrdinaryObject.slots, hsto] at hlt
        exact absurd hlt (Nat.not_lt_zero _)
      | some storage =>
        simp only
        generalize hwri : PropertyStorage.setSymbolPresence
          { storage with slots := storage.slots.set found.slot val } found.slot rec.key
          (val ≠ PropertyStorage.hole) = written
        have hslots : written.slots = (heap.objects obj).slots.set found.slot val := by
          rw [← hwri, setSymbolPresence_slots, OrdinaryObject.slots, hsto]
          rfl
        have hgr' : heap.Grows denote (setObjectShape
            { heap with
              shapes := shapes
              objects := update heap.objects obj
                { heap.objects obj with storage := some written } } obj shape)
            denote' := hgr.of_shapes rfl
        have hlen : written.slots.length = (denote' shape).length := by
          rw [hslots, length_set, hc]
        have hobj : (setObjectShape
            { heap with
              shapes := shapes
              objects := update heap.objects obj
                { heap.objects obj with storage := some written } } obj shape).objects =
            update heap.objects obj
              { heap.objects obj with shape := shape, storage := some written } := by
          simp only [setObjectShape, update_self, update_idem]
        have hdone := Outcome.done_of_replace h hgr' _ hobj hknown hlen
        rw [show (OrdinaryObject.slots
          { heap.objects obj with shape := shape, storage := some written }) =
            written.slots from rfl, hslots] at hdone
        exact hdone

/-! ## Removal -/

/-- A property with its value as the removal keeps it. -/
def RetainedProperty.ofEntry (entry : PropertyRecord × Value) : RetainedProperty :=
  ⟨entry.1.key, entry.1.kind, entry.1.attributes, entry.2⟩

/-- The entries of the iterator are the contents with their slots. -/
theorem entries_eq (obj : Nat) : Layout.entries (denote (heap.objects obj).shape) =
      (heap.contents denote obj).zipIdx.map fun pair => pair.1.1.entryAt pair.2 := by
  apply ext_getElem?
  intro i
  rw [Layout.getElem?_entries, getElem?_map, getElem?_zipIdx, contents, zip,
    getElem?_zipWith, zero_add]
  have hlen := h.slots obj
  cases hrec : (denote (heap.objects obj).shape)[i]? with
  | none => rfl
  | some rec =>
    have hlt := (List.getElem?_eq_some_iff.mp hrec).1
    rw [← hlen] at hlt
    rw [getElem?_eq_getElem hlt]
    rfl

/-- Listed entries resolve to what the object stores. -/
theorem retainedProperties_eq (removed : PropertyKey)
    {pairs : List ((PropertyRecord × Value) × Nat)}
    (hpairs : ∀ pair ∈ pairs, pair ∈ (heap.contents denote obj).zipIdx) :
    heap.retainedProperties obj removed (pairs.map fun pair => pair.1.1.entryAt pair.2) =
      some ((pairs.filter fun pair => pair.1.1.key ≠ removed).map fun pair =>
        RetainedProperty.ofEntry pair.1) := by
  induction pairs with
  | nil => rfl
  | cons pair rest ih =>
    have hrest := ih fun other ho => hpairs other (mem_cons_of_mem _ ho)
    obtain ⟨⟨rec, val⟩, slot⟩ := pair
    simp only [map_cons, retainedProperties]
    by_cases hremoved : rec.key = removed
    · rw [if_pos (show (rec.entryAt slot).key = removed from hremoved), hrest,
        filter_cons_of_neg (by simpa using hremoved)]
    · have hget : (heap.contents denote obj)[slot]? = some (rec, val) :=
        mem_zipIdx_iff_getElem?.mp (hpairs _ (mem_cons_self ..))
      obtain ⟨hrec, hv⟩ := getElem?_zip_eq_some.mp hget
      have hlook : heap.shapes.lookup (heap.objects obj).shape rec.key =
          some ⟨slot, rec.kind, rec.attributes⟩ :=
        (h.encodes.lookup_iff (h.known obj) _ _).mpr hrec
      rw [if_neg (show ¬ (rec.entryAt slot).key = removed from hremoved),
        filter_cons_of_pos (by simpa using hremoved), hrest]
      simp only [PropertyRecord.entryAt, hlook]
      rw [hv]
      rfl

/-- The entries that a removal keeps are those of the contents. -/
theorem retained_of_publicEntries (obj : Nat) (removed : PropertyKey) :
    heap.retainedProperties obj removed (Layout.publicEntries (denote (heap.objects obj).shape)) =
      some ((Contents.retained removed (heap.contents denote obj)).map
        RetainedProperty.ofEntry) := by
  generalize hcont : heap.contents denote obj = contents
  have hk : ∀ symbols, OwnPropertyKeys.ofKind symbols
      (Layout.entries (denote (heap.objects obj).shape)) =
      (contents.zipIdx.filter fun pair => !pair.1.1.key.isPrivate &&
        (pair.1.1.key.isSymbol == symbols)).map fun pair => pair.1.1.entryAt pair.2 := by
    intro symbols
    rw [entries_eq h obj, hcont, OwnPropertyKeys.ofKind, filter_map]
    rfl
  have hpairs : ∀ pair ∈ (contents.zipIdx.filter fun pair => !pair.1.1.key.isPrivate &&
        (pair.1.1.key.isSymbol == false)) ++ (contents.zipIdx.filter fun pair =>
        !pair.1.1.key.isPrivate && (pair.1.1.key.isSymbol == true)),
      pair ∈ (heap.contents denote obj).zipIdx := by
    intro pair hpair
    rw [hcont]
    rcases mem_append.mp hpair with hm | hm
    · exact (mem_filter.mp hm).1
    · exact (mem_filter.mp hm).1
  rw [Layout.publicEntries, hk, hk, ← map_append, retainedProperties_eq h removed hpairs]
  have hfirst : ∀ symbols, ((contents.zipIdx.filter fun pair => !pair.1.1.key.isPrivate &&
        (pair.1.1.key.isSymbol == symbols)).filter fun pair => pair.1.1.key ≠ removed).map
        (fun pair => RetainedProperty.ofEntry pair.1) =
      (Contents.retainedOfKind removed symbols contents).map RetainedProperty.ofEntry := by
    intro symbols
    have hzip : contents.zipIdx.map Prod.fst = contents := zipIdx_map_fst 0 contents
    rw [Contents.retainedOfKind]
    conv_rhs => rw [← hzip]
    rw [filter_map, map_map, filter_filter]
    congr 1
    apply filter_congr
    intro pair _
    exact Bool.and_comm _ _
  rw [filter_append, map_append, hfirst, hfirst, Contents.retained, map_append]

omit h in
/-- The replay of the retained properties: the shape stands for them in their order. -/
theorem rebuildShape_spec {tbl : ShapeTable} {denote : ShapeId → Layout}
    (h : tbl.Encodes denote) {shape : Nat} (hshape : shape < tbl.shapes.len) (entries : Contents)
    (hnodup : ((denote shape ++ entries.map Prod.fst).map PropertyRecord.key).Nodup) :
    ∃ denote', (rebuildShape tbl (entries.map RetainedProperty.ofEntry) shape).2.Encodes denote' ∧
      tbl.shapes.len ≤
        (rebuildShape tbl (entries.map RetainedProperty.ofEntry) shape).2.shapes.len ∧
      (∀ id, id < tbl.shapes.len → denote' id = denote id) ∧
      ∀ id, (rebuildShape tbl (entries.map RetainedProperty.ofEntry) shape).1 = .ok id →
        id < (rebuildShape tbl (entries.map RetainedProperty.ofEntry) shape).2.shapes.len ∧
          denote' id = denote shape ++ entries.map Prod.fst := by
  induction entries generalizing tbl denote shape with
  | nil =>
    refine ⟨denote, h, le_refl _, fun _ _ => rfl, ?_⟩
    intro id hid
    obtain rfl := Except.ok.inj hid
    exact ⟨hshape, (append_nil _).symm⟩
  | cons ent rest ih =>
    obtain ⟨rec, val⟩ := ent
    have hop : (ShapeOperation.add rec).Permitted (denote shape) := by
      intro hm
      rw [map_append, nodup_append] at hnodup
      exact hnodup.2.2 _ hm _ (mem_cons_self ..) rfl
    obtain ⟨outcome, hout, hperformed⟩ := h.performed hshape hop
    obtain rfl := Option.some.inj hout
    simp only [map_cons, rebuildShape, RetainedProperty.ofEntry]
    generalize tbl.transitionAddKind shape rec.key rec.kind rec.attributes = outcome at hperformed ⊢
    cases hperformed with
    | failed same =>
      refine ⟨denote, h.of_sameEntries same, ?_, fun _ _ => rfl, nofun⟩
      exact le_of_eq (congrArg length same.shapes).symm
    | @reached id tbl' denote' encodes grows kept known res =>
      have hbase : denote' id = denote shape ++ [rec] := res
      have hnodup' : ((denote' id ++ rest.map Prod.fst).map PropertyRecord.key).Nodup := by
        rw [hbase, append_assoc]
        exact hnodup
      obtain ⟨denote'', hencodes, hlen, hkept, hreached⟩ := ih encodes known hnodup'
      refine ⟨denote'', hencodes, le_trans grows.length_le hlen, ?_, ?_⟩
      · intro old hold
        rw [hkept old (lt_of_lt_of_le hold grows.length_le), kept old hold]
      · intro reached hreachedId
        obtain ⟨hknown, hdenote⟩ := hreached reached hreachedId
        refine ⟨hknown, ?_⟩
        rw [hdenote, hbase, append_assoc]
        rfl

omit h in
theorem Contents.nodup_retained {contents : Contents} (h : (Contents.keys contents).Nodup)
    (removed : PropertyKey) : (Contents.keys (Contents.retained removed contents)).Nodup := by
  refine nodup_append_filter h fun first second heq hstr hsymbol => ?_
  simp only [Bool.and_eq_true, beq_iff_eq] at hstr hsymbol
  rw [heq, hsymbol.1.2] at hstr
  exact absurd hstr.1.2 (by decide)

theorem Stores.nodup_keys (obj : Nat) : (Contents.keys (heap.contents denote obj)).Nodup := by
  have hkeys : Contents.keys (heap.contents denote obj) =
      (denote (heap.objects obj).shape).map PropertyRecord.key := by
    have hrecs := map_fst_zip (le_of_eq (h.slots obj).symm)
    calc Contents.keys (heap.contents denote obj)
        = ((heap.contents denote obj).map Prod.fst).map PropertyRecord.key := by
          rw [map_map]
          rfl
      _ = _ := by rw [contents, hrecs]
  rw [hkeys]
  exact h.encodes.nodup (h.known obj)

theorem ownKeys_collect {alloc : Allocator} {keys : OwnPropertyKeys}
    (hkeys : heap.shapes.ownKeys (heap.objects obj).shape heap.allocator = (.ok keys, alloc)) :
    keys.collect = Layout.publicEntries (denote (heap.objects obj).shape) :=
  (h.encodes.ownKeys_collect (h.known obj) hkeys).1

theorem outcome_publishRetained (obj : Nat) {entries : Contents}
    (hnodup : (Contents.keys entries).Nodup) : Outcome heap denote obj entries
      (heap.publishRetained obj (entries.map RetainedProperty.ofEntry)) := by
  have hroot : ShapeId.empty < heap.shapes.shapes.len :=
    (List.getElem?_eq_some_iff.mp h.encodes.root).1
  have hkeys : ((denote ShapeId.empty ++ entries.map Prod.fst).map PropertyRecord.key).Nodup := by
    rw [ShapeId.empty, h.encodes.empty, nil_append, map_map]
    exact hnodup
  obtain ⟨denote', hencodes, hlen, hkept, hreached⟩ :=
    rebuildShape_spec h.encodes hroot entries hkeys
  simp only [publishRetained]
  generalize rebuildShape heap.shapes (entries.map RetainedProperty.ofEntry) ShapeId.empty = outcome
    at hencodes hlen hreached ⊢
  obtain ⟨res, shapes⟩ := outcome
  have hgr : heap.Grows denote { heap with shapes := shapes } denote' := ⟨hencodes, hlen, hkept⟩
  cases res with
  | error err => exact .failed_of_grows h hgr rfl
  | ok shape =>
    obtain ⟨hknown, hdenote⟩ := hreached shape rfl
    rw [ShapeId.empty, h.encodes.empty, nil_append] at hdenote
    have hlengths : ((entries.map RetainedProperty.ofEntry).map RetainedProperty.value).length =
        (denote' shape).length := by
      rw [hdenote]
      simp
    have hsto : (entries.map Prod.fst).zip ((entries.map RetainedProperty.ofEntry).map
        RetainedProperty.value) = entries := by
      rw [map_map]
      exact zip_map' .. |>.trans (map_id _)
    rw [← hdenote] at hsto
    simp only
    split_ifs with hn
    · obtain rfl := map_eq_nil_iff.mp (isEmpty_iff.mp hn)
      rw [← hsto]
      exact .done_of_storage h hgr rfl hknown rfl hlengths
    · refine .of_request h hgr rfl (reserve_eq rfl) fun hgr₁ hobj₁ hshapes₁ => ?_
      refine .of_request h hgr₁ hobj₁ (reserve_eq rfl) fun hgr₂ hobj₂ hshapes₂ => ?_
      refine .of_request h hgr₂ hobj₂ (allocate_eq rfl) fun hgr₃ hobj₃ hshapes₃ => ?_
      nth_rewrite 1 [← hsto]
      refine .done_of_storage h hgr₃ hobj₃ ?_ rfl hlengths
      rw [hshapes₃, hshapes₂, hshapes₁]
      exact hknown

theorem outcome_remove (obj : Nat) (removed : PropertyKey) :
    Outcome heap denote obj (Contents.retained removed (heap.contents denote obj))
      (heap.removePropertySlot obj removed) := by
  simp only [removePropertySlot]
  split
  · exact .failed_of_grows h (.refl h) rfl
  · split
    · exact .failed_of_grows h ((Grows.refl h).of_shapes rfl) rfl
    next keys alloc hkeys =>
      have hcoll := ownKeys_collect h hkeys
      split
      next heap₁ hrsv =>
        obtain ⟨hshapes, hobj⟩ := reserve_eq hrsv
        exact .failed_of_grows h ((Grows.refl h).of_shapes hshapes) hobj
      next heap₁ hrsv =>
        obtain ⟨hshapes₁, hobj₁⟩ := reserve_eq hrsv
        have hstores₁ : heap₁.Stores denote := ((Grows.refl h).of_shapes hshapes₁).stores h hobj₁
        have hs : heap₁.contents denote obj = heap.contents denote obj := by
          rw [contents, contents, hobj₁]
        have hretained := retained_of_publicEntries hstores₁ obj removed
        rw [hs, hobj₁] at hretained
        rw [hcoll, hretained]
        have hnodup := Contents.nodup_retained (h.nodup_keys obj) removed
        have hpublished := outcome_publishRetained hstores₁ obj hnodup
        exact hpublished.of_same hshapes₁ hobj₁

/-! ## Runs -/

/-- Objects add, reconfigure and remove properties; an operation may fail. -/
inductive Step (heap : PropertyHeap) : PropertyHeap → Prop where
  | add (obj : Nat) (record : PropertyRecord) (value : Value)
      (absent : heap.shapes.lookup (heap.objects obj).shape record.key = none) :
      Step heap (heap.addPropertySlotWithKind obj record.key record.kind value record.attributes).2
  | reconfigure (obj : Nat) (record : PropertyRecord) (value : Option Value)
      (isPresent : heap.shapes.lookup (heap.objects obj).shape record.key ≠ none) :
      Step heap (heap.reconfigurePropertySlot obj record.key record.kind record.attributes value).2
  | remove (obj : Nat) (removed : PropertyKey) :
      Step heap (heap.removePropertySlot obj removed).2

/-- The heap before the first property. -/
def start (shapes : ShapeTable) (prototype : Nat → Value) (allocator : Allocator) : PropertyHeap :=
  { shapes := shapes, objects := fun obj => .new (prototype obj), allocator := allocator }

omit h in
theorem Outcome.stores {post : Contents} {res : Except PropertyError Unit × PropertyHeap}
    (h : Outcome heap denote obj post res) : ∃ denote', res.2.Stores denote' := by
  cases h with
  | failed stores | done stores => exact ⟨_, stores⟩

omit h in
theorem stores_run {shapes : ShapeTable} {limit : Nat} {forShapes forTransitions : Allocator}
    (hnew : ShapeTable.new limit forShapes forTransitions = .ok shapes)
    {prototype : Nat → Value} {alloc : Allocator}
    (hrun : Relation.ReflTransGen Step (start shapes prototype alloc) heap) :
    ∃ denote, heap.Stores denote := by
  induction hrun with
  | refl =>
    have hencodes := ShapeTable.encodes_new hnew
    refine ⟨_, hencodes, ?_, fun _ => rfl⟩
    intro obj
    exact (List.getElem?_eq_some_iff.mp hencodes.root).1
  | tail _ hstep ih =>
    obtain ⟨denote, hstores⟩ := ih
    cases hstep with
    | add obj rec val absent => exact (outcome_add hstores val absent).stores
    | reconfigure obj rec val isPresent =>
      exact (outcome_reconfigure hstores val isPresent).stores
    | remove obj removed => exact (outcome_remove hstores obj removed).stores

/-- A key resolves to a property and a value. -/
def Resolves (heap : PropertyHeap) (obj : Nat) (record : PropertyRecord) (value : Value) : Prop :=
  ∃ found, heap.shapes.lookup (heap.objects obj).shape record.key = some found ∧
    found.kind = record.kind ∧ found.attributes = record.attributes ∧
    (heap.objects obj).slots[found.slot]? = some value

/-- The own keys that the iterator lists, if it gets its memory. -/
def ListsKeys (heap : PropertyHeap) (obj : Nat) (keys : List PropertyKey) : Prop :=
  ∀ allocator allocator' iterator,
    heap.shapes.ownKeys (heap.objects obj).shape allocator = (.ok iterator, allocator') →
      iterator.collect.map OwnPropertyEntry.key = keys

/-- A removal takes one key away and leaves every other property alone. -/
structure LeavesOthers (heap : PropertyHeap) (obj : Nat) (removed : PropertyKey)
    (heap' : PropertyHeap) : Prop where
  absent : heap'.shapes.lookup (heap'.objects obj).shape removed = none
  others : ∀ record value, record.key ≠ removed →
    (heap.Resolves obj record value ↔ heap'.Resolves obj record value)
  order : ∀ keys, heap.ListsKeys obj keys →
    heap'.ListsKeys obj (keys.filter fun key => key ≠ removed)

theorem Stores.resolves_iff (obj : Nat) (rec : PropertyRecord) (val : Value) :
    heap.Resolves obj rec val ↔ (rec, val) ∈ heap.contents denote obj := by
  constructor
  · rintro ⟨found, hf, hk, hattrs, hv⟩
    have hget := (h.encodes.lookup_iff (h.known obj) _ _).mp hf
    rw [hk, hattrs] at hget
    have he : (heap.contents denote obj)[found.slot]? = some (rec, val) :=
      getElem?_zip_eq_some.mpr ⟨hget, hv⟩
    exact mem_of_getElem? he
  · intro hm
    obtain ⟨slot, hsl⟩ := getElem?_of_mem hm
    obtain ⟨hrec, hv⟩ := getElem?_zip_eq_some.mp hsl
    exact ⟨⟨slot, rec.kind, rec.attributes⟩,
      (h.encodes.lookup_iff (h.known obj) _ _).mpr hrec, rfl, rfl, hv⟩

theorem Stores.lookup_eq_none_iff (obj : Nat) (key : PropertyKey) :
    heap.shapes.lookup (heap.objects obj).shape key = none ↔
      key ∉ Contents.keys (heap.contents denote obj) := by
  constructor
  · intro hn hm
    obtain ⟨⟨rec, val⟩, he, rfl⟩ := mem_map.mp hm
    obtain ⟨found, hf, -⟩ := (h.resolves_iff obj rec val).mpr he
    rw [show heap.shapes.lookup (heap.objects obj).shape rec.key = none from hn] at hf
    cases hf
  · intro hnot
    by_contra hsome
    obtain ⟨found, hf⟩ := Option.ne_none_iff_exists'.mp hsome
    have hget := (h.encodes.lookup_iff (h.known obj) _ _).mp hf
    have hlt := (List.getElem?_eq_some_iff.mp hget).1
    rw [← h.slots obj] at hlt
    have he : (heap.contents denote obj)[found.slot]? =
        some (⟨key, found.kind, found.attributes⟩, (heap.objects obj).slots[found.slot]) :=
      getElem?_zip_eq_some.mpr ⟨hget, getElem?_eq_getElem hlt⟩
    exact hnot (mem_map.mpr ⟨_, mem_of_getElem? he, rfl⟩)

theorem Stores.listsKeys_iff (obj : Nat) (keys : List PropertyKey) :
    heap.ListsKeys obj keys ↔ keys = Contents.publicKeys (heap.contents denote obj) := by
  have hlist : (Layout.publicEntries (denote (heap.objects obj).shape)).map
      OwnPropertyEntry.key = Contents.publicKeys (heap.contents denote obj) := by
    have hkeys : (Layout.entries (denote (heap.objects obj).shape)).map OwnPropertyEntry.key =
        Contents.keys (heap.contents denote obj) := by
      rw [entries_eq h obj, map_map, Contents.keys]
      conv_rhs => rw [← zipIdx_map_fst 0 (heap.contents denote obj), map_map]
      rfl
    rw [Layout.publicEntries, map_append, Contents.publicKeys, ← hkeys, filter_map,
      filter_map]
    rfl
  constructor
  · intro hlists
    obtain ⟨iterator, alloc', hkeys⟩ : ∃ iterator alloc', heap.shapes.ownKeys
        (heap.objects obj).shape .granting = (.ok iterator, alloc') := ⟨_, _, rfl⟩
    have hgr := hlists _ _ _ hkeys
    rw [(h.encodes.ownKeys_collect (h.known obj) hkeys).1, hlist] at hgr
    exact hgr.symm
  · rintro rfl alloc alloc' iterator hkeys
    rw [(h.encodes.ownKeys_collect (h.known obj) hkeys).1]
    exact hlist

end

/-- In every state of every run, a removal that succeeds leaves the other properties alone exactly
if the object has no other private element. -/
theorem removal_leaves_others_iff {shapes : ShapeTable} {limit : Nat}
    {forShapes forTransitions : Allocator}
    (hnew : ShapeTable.new limit forShapes forTransitions = .ok shapes)
    {prototype : Nat → Value} {alloc : Allocator}
    (hrun : Relation.ReflTransGen Step (start shapes prototype alloc) heap) (obj : Nat)
    (removed : PropertyKey) (hremoved : heap.removePropertySlot obj removed = (.ok (), heap')) :
    heap.LeavesOthers obj removed heap' ↔
      ∀ id, heap.shapes.lookup (heap.objects obj).shape (.«private» id) ≠ none →
        PropertyKey.«private» id = removed := by
  obtain ⟨denote, hstores⟩ := stores_run hnew hrun
  have hout := outcome_remove hstores obj removed
  rw [hremoved] at hout
  cases hout with
  | @done _ denote' hstores' grows others stored =>
    constructor
    · intro hleaves id hf
      by_contra hne
      rw [Ne, hstores.lookup_eq_none_iff obj, not_not] at hf
      obtain ⟨⟨rec, val⟩, he, hkey⟩ := mem_map.mp hf
      have hrs := (hstores.resolves_iff obj rec val).mpr he
      have hrs' := (hleaves.others rec val (hkey ▸ hne)).mp hrs
      rw [hstores'.resolves_iff, stored, Contents.mem_retained] at hrs'
      rw [hkey] at hrs'
      exact absurd hrs'.2.1 (by simp [PropertyKey.isPrivate])
    · intro hn
      have hpub : ∀ rec val, (rec, val) ∈ heap.contents denote obj →
          rec.key ≠ removed → rec.key.isPrivate = false := by
        intro rec val he hne
        rw [← Bool.not_eq_true]
        intro hpriv
        cases hkey : rec.key with
        | atom atom | symbol symbol =>
          rw [hkey] at hpriv
          cases hpriv
        | «private» id =>
          rw [hkey] at hne
          apply hne
          apply hn id
          rw [Ne, hstores.lookup_eq_none_iff obj, not_not]
          exact mem_map.mpr ⟨_, he, hkey⟩
      constructor
      · rw [hstores'.lookup_eq_none_iff obj, stored]
        intro hm
        obtain ⟨ent, he, hkey⟩ := mem_map.mp hm
        exact (Contents.mem_retained.mp he).2.2 hkey
      · intro rec val hne
        rw [hstores.resolves_iff, hstores'.resolves_iff, stored, Contents.mem_retained]
        exact ⟨fun he => ⟨he, hpub rec val he hne, hne⟩, fun he => he.1⟩
      · intro keys hkeys
        rw [hstores'.listsKeys_iff obj, stored, Contents.publicKeys_retained,
          (hstores.listsKeys_iff obj keys).mp hkeys]

/-- A heap over a table with room for some shapes. -/
def sampleHeap : PropertyHeap :=
  start ShapeSystem.sampleTable (fun _ => .fromImmediate .null) .granting

def samplePrivate : PropertyRecord :=
  ⟨.«private» ⟨2, ⟨2, Gc.firstOffset⟩⟩, .data, .data true false false⟩

/-- The sample heap with two properties of the first object. -/
def sampleWith (first second : PropertyRecord) : PropertyHeap :=
  let one := (sampleHeap.addPropertySlotWithKind 0 first.key first.kind (.fromI32 1)
    first.attributes).2
  (one.addPropertySlotWithKind 0 second.key second.kind (.fromI32 2) second.attributes).2

theorem run_sampleWith {first second : PropertyRecord}
    (hsec : (sampleHeap.addPropertySlotWithKind 0 first.key first.kind (.fromI32 1)
      first.attributes).2.shapes.lookup ((sampleHeap.addPropertySlotWithKind 0 first.key first.kind
        (.fromI32 1) first.attributes).2.objects 0).shape second.key = none) :
    Relation.ReflTransGen Step sampleHeap (sampleWith first second) :=
  .tail (.tail .refl (.add 0 first (.fromI32 1) rfl)) (.add 0 second (.fromI32 2) hsec)

/-- A symbol and a string: the string is removed and the symbol stays. -/
theorem removal_leaves_others_symbol :
    let heap := sampleWith ShapeSystem.sampleSymbol ShapeSystem.sampleString
    ∃ heap', heap.removePropertySlot 0 (.atom 5) = (.ok (), heap') ∧
      heap.LeavesOthers 0 (.atom 5) heap' := by
  intro heap
  refine ⟨(heap.removePropertySlot 0 (.atom 5)).2, rfl, ?_⟩
  refine (removal_leaves_others_iff (show ShapeTable.new 8 .granting .granting =
    .ok ShapeSystem.sampleTable from rfl) (run_sampleWith rfl) 0 (.atom 5) rfl).mpr ?_
  intro id hf
  exact absurd rfl hf

/-- A private element and a string: the element is lost with the string. -/
theorem removal_loses_private_element :
    let heap := sampleWith samplePrivate ShapeSystem.sampleString
    Relation.ReflTransGen Step sampleHeap heap ∧
      ∃ heap', heap.removePropertySlot 0 (.atom 5) = (.ok (), heap') ∧
        ¬ heap.LeavesOthers 0 (.atom 5) heap' := by
  intro heap
  refine ⟨run_sampleWith rfl, (heap.removePropertySlot 0 (.atom 5)).2, rfl, ?_⟩
  intro hleaves
  have hrs : heap.Resolves 0 samplePrivate (.fromI32 1) :=
    ⟨⟨0, .data, .data true false false⟩, rfl, rfl, rfl, rfl⟩
  obtain ⟨found, hf, -⟩ := (hleaves.others samplePrivate _ (by decide)).mp hrs
  cases hf

end PropertyHeap

end TachyonEngine.Vm
