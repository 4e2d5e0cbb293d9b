import TachyonEngine.Vm.Shape

/-!
# What a shape stands for

A layout is the list of the properties of an object in the order of their slots. An operation on a
layout adds a property or reconfigures one. A table encodes a layout for each of its shapes: the one
that the operation on the edge makes of the layout of the parent. One index serves both kinds of
edges, since an edge that adds a key leaves only shapes without the key and an edge that
reconfigures a key leaves only shapes with it.
-/

namespace TachyonEngine.Vm

open Lib.Capacity List Function

/-! ## Layouts -/

structure PropertyRecord where
  key : PropertyKey
  kind : PropertyKind
  attributes : PropertyAttributes

/-- The properties of an object in the order of their slots. -/
abbrev Layout := List PropertyRecord

variable {layout : Layout}

/-- A key has one slot. -/
theorem Layout.slot_unique (h : (layout.map PropertyRecord.key).Nodup) {i j : Nat} {left right :
    PropertyRecord} (hl : layout[i]? = some left) (hr : layout[j]? = some right) (hkey : left.key =
    right.key) : i = j := by
  have hi : (layout.map PropertyRecord.key)[i]? = some left.key := by
    rw [getElem?_map, hl, Option.map_some]
  have hj : (layout.map PropertyRecord.key)[j]? = some left.key := by
    rw [getElem?_map, hr, Option.map_some, hkey]
  exact (getElem?_inj (List.getElem?_eq_some_iff.mp hi).1 h).mp (hi.trans hj.symm)

/-- What an object does to its shape. -/
inductive ShapeOperation where
  | add (rec : PropertyRecord)
  | reconfigure (rec : PropertyRecord)

namespace ShapeOperation

def record : ShapeOperation → PropertyRecord
  | .add rec => rec
  | .reconfigure rec => rec

/-- A key is added where it is not and reconfigured where it is. -/
def Permitted (layout : Layout) : ShapeOperation → Prop
  | .add rec => rec.key ∉ layout.map PropertyRecord.key
  | .reconfigure rec => rec.key ∈ layout.map PropertyRecord.key

def apply (layout : Layout) : ShapeOperation → Layout
  | .add rec => layout ++ [rec]
  | .reconfigure rec => layout.map fun old => if old.key = rec.key then rec else old

/-- The slot of the property that an operation is about. -/
def slot (layout : Layout) : ShapeOperation → Nat
  | .add _ => layout.length
  | .reconfigure rec => layout.findIdx fun old => old.key = rec.key

variable {layout : Layout} {op : ShapeOperation}

theorem keys_apply_reconfigure (layout : Layout) (rec : PropertyRecord) :
    (apply layout (.reconfigure rec)).map PropertyRecord.key = layout.map PropertyRecord.key := by
  simp only [apply, map_map]
  apply map_congr_left
  intro old _
  by_cases hkey : old.key = rec.key
  · simp [hkey]
  · simp [hkey]

theorem nodup_apply (h : (layout.map PropertyRecord.key).Nodup) (hop : op.Permitted layout) :
    ((op.apply layout).map PropertyRecord.key).Nodup := by
  cases op with
  | add rec =>
    simp only [apply, map_append]
    apply nodup_append.mpr
    refine ⟨h, pairwise_singleton _ _, ?_⟩
    intro left hl right hr heq
    rw [heq, mem_singleton.mp hr] at hl
    exact hop hl
  | reconfigure rec =>
    rw [keys_apply_reconfigure]
    exact h

variable {rec : PropertyRecord}

/-- The key that is reconfigured has a slot. -/
theorem findIdx_spec (hop : (reconfigure rec).Permitted layout) :
    ∃ old, layout[(reconfigure rec).slot layout]? = some old ∧ old.key = rec.key := by
  obtain ⟨old, hold, hkey⟩ := mem_map.mp hop
  have hlt : layout.findIdx (fun old => old.key = rec.key) < layout.length := by
    apply findIdx_lt_length_of_exists
    exact ⟨old, hold, by simpa using hkey⟩
  refine ⟨_, getElem?_eq_getElem hlt, ?_⟩
  simpa using findIdx_getElem (w := hlt)

/-- The slot of an operation holds its record. -/
theorem getElem?_apply_slot (hop : op.Permitted layout) :
    (op.apply layout)[op.slot layout]? = some op.record := by
  cases op with
  | add rec => exact getElem?_concat_length
  | reconfigure rec =>
    obtain ⟨old, hold, hkey⟩ := findIdx_spec hop
    simp only [apply, getElem?_map]
    rw [hold, Option.map_some, if_pos hkey]
    rfl

theorem slot_lt (hop : op.Permitted layout) : op.slot layout < (op.apply layout).length :=
  (List.getElem?_eq_some_iff.mp (getElem?_apply_slot hop)).1

section

variable (h : (layout.map PropertyRecord.key).Nodup)

include h

variable {i : Nat}

/-- The other slots are left alone. -/
theorem getElem?_apply_of_ne (hop : op.Permitted layout) (hi : i ≠ op.slot layout) :
    (op.apply layout)[i]? = layout[i]? := by
  cases op with
  | add rec =>
    simp only [apply]
    rcases lt_or_gt_of_ne hi with hlt | hgt
    · exact List.getElem?_append_left hlt
    · have hlong : (layout ++ [rec]).length ≤ i := by
        rw [length_append]
        exact hgt
      rw [getElem?_eq_none hlong, getElem?_eq_none (le_of_lt hgt)]
  | reconfigure rec =>
    simp only [apply, getElem?_map]
    cases hold : layout[i]? with
    | none => rfl
    | some old =>
      have hkey : old.key ≠ rec.key := by
        intro hs
        apply hi
        obtain ⟨found, hf, hkey⟩ := findIdx_spec hop
        exact Layout.slot_unique h hold hf (hs.trans hkey.symm)
      simp [hkey]

/-- An operation is about the records of its own key only. -/
theorem getElem?_apply_of_key_ne (hop : op.Permitted layout) (hkey : rec.key ≠ op.record.key)
    (i : Nat) : (op.apply layout)[i]? = some rec ↔ layout[i]? = some rec := by
  by_cases hi : i = op.slot layout
  · subst hi
    constructor
    · intro hsome
      rw [getElem?_apply_slot hop] at hsome
      exact absurd (congrArg PropertyRecord.key (Option.some.inj hsome)).symm hkey
    · intro hsome
      cases op with
      | add added =>
        have hlt := (List.getElem?_eq_some_iff.mp hsome).1
        exact absurd hlt (lt_irrefl _)
      | reconfigure changed =>
        obtain ⟨old, hold, hs⟩ := findIdx_spec hop
        rw [hold] at hsome
        rw [Option.some.inj hsome] at hs
        exact absurd hs hkey
  · rw [getElem?_apply_of_ne h hop hi]

/-- A reconfiguration to what is there changes nothing. -/
theorem apply_reconfigure_self (hi : layout[i]? = some rec) :
    (reconfigure rec).apply layout = layout := by
  have hop : (reconfigure rec).Permitted layout :=
    mem_map.mpr ⟨rec, mem_of_getElem? hi, rfl⟩
  have hsl : i = (reconfigure rec).slot layout := by
    obtain ⟨old, hold, hkey⟩ := findIdx_spec hop
    exact Layout.slot_unique h hi hold hkey.symm
  apply ext_getElem?
  intro j
  by_cases hj : j = (reconfigure rec).slot layout
  · rw [hj, getElem?_apply_slot hop, ← hsl, hi]
    rfl
  · exact getElem?_apply_of_ne h hop hj

end

/-- The layout that a sequence of operations makes of the empty one. -/
def replay (history : List ShapeOperation) : Layout := history.foldl apply []

end ShapeOperation

/-! ## Tables of layouts -/

/-- The shape that an operation on a parent appends. -/
structure Shape.Records (shape : Shape) (parent : ShapeId) (layout : Layout) (op : ShapeOperation) :
    Prop where
  parent : shape.parent = some parent
  key : shape.key = some op.record.key
  kind : shape.kind = op.record.kind
  attributes : shape.attributes = op.record.attributes
  slot : shape.slot = op.slot layout
  count : shape.propertyCount = (op.apply layout).length

/-- Each shape of a table is an operation on the layout of an older one. -/
structure ShapeTable.Encodes (tbl : ShapeTable) (denote : ShapeId → Layout) : Prop where
  root : tbl.shapes.entries[0]? = some ShapeTable.rootShape
  empty : denote 0 = []
  step : ∀ id shape, tbl.shapes.entries[id + 1]? = some shape →
    ∃ parent op, parent ≤ id ∧ op.Permitted (denote parent) ∧
      shape.Records parent (denote parent) op ∧ denote (id + 1) = op.apply (denote parent)
  edges : ∀ edge ∈ tbl.transitions.entries, ∃ id shape,
    edge.target = id + 1 ∧ tbl.shapes.entries[id + 1]? = some shape ∧
      shape.parent = some edge.source ∧ shape.key = some edge.key ∧ shape.kind = edge.kind ∧
      shape.attributes = edge.attributes
  small : ∀ id, (denote id).length < 2 ^ 32

namespace ShapeTable.Encodes

variable {tbl : ShapeTable} {denote : ShapeId → Layout}

variable {id : Nat}

section

variable (h : tbl.Encodes denote)

include h

theorem step_of_lt (hid : id + 1 < tbl.shapes.len) :
    ∃ shape parent op, tbl.shapes.entries[id + 1]? = some shape ∧ parent ≤ id ∧
      op.Permitted (denote parent) ∧ shape.Records parent (denote parent) op ∧
      denote (id + 1) = op.apply (denote parent) := by
  have hget := getElem?_eq_getElem hid
  obtain ⟨parent, op, hp, hop, hrecs, hdenote⟩ := h.step id _ hget
  exact ⟨_, parent, op, hget, hp, hop, hrecs, hdenote⟩

theorem nodup (hid : id < tbl.shapes.len) : ((denote id).map PropertyRecord.key).Nodup := by
  induction id using Nat.strongRecOn with
  | ind id ih =>
    cases id with
    | zero =>
      rw [h.empty]
      exact nodup_nil
    | succ id =>
      obtain ⟨shape, parent, op, -, hp, hop, -, hdenote⟩ := h.step_of_lt hid
      rw [hdenote]
      exact ShapeOperation.nodup_apply (ih parent (by omega) (by omega)) hop

theorem propertyCount_eq (hid : id < tbl.shapes.len) :
    tbl.propertyCount id = (denote id).length := by
  cases id with
  | zero =>
    rw [h.empty, propertyCount, h.root]
    rfl
  | succ id =>
    obtain ⟨shape, parent, op, hget, -, -, hrecs, hdenote⟩ := h.step_of_lt hid
    rw [propertyCount, hget, hdenote]
    exact hrecs.count

/-! ### Walks -/

/-- The walk from a shape goes on from its parent, however many more steps it is given. -/
theorem chainFrom_eq (hid : id < tbl.shapes.len) {steps : Nat} (hsteps : id ≤ steps) :
    tbl.chainFrom steps id = tbl.chain id := by
  induction id using Nat.strongRecOn generalizing steps with
  | ind id ih =>
    cases id with
    | zero =>
      cases steps with
      | zero | succ steps => rfl
    | succ id =>
      obtain ⟨shape, parent, op, hget, hp, -, hrecs, -⟩ := h.step_of_lt hid
      obtain ⟨steps, rfl⟩ := Nat.exists_eq_succ_of_ne_zero (ne_of_gt
        (lt_of_lt_of_le (Nat.succ_pos id) hsteps))
      simp only [chain, chainFrom, hget, hrecs.parent]
      rw [ih parent (by omega) (by omega) (by omega), ih parent (by omega) (by omega) (by omega)]

theorem chain_succ {shape : Shape} {parent : ShapeId}
    (hget : tbl.shapes.entries[id + 1]? = some shape) (hp : shape.parent = some parent)
    (hle : parent ≤ id) : tbl.chain (id + 1) = shape :: tbl.chain parent := by
  have hlt : id + 1 < tbl.shapes.len := (List.getElem?_eq_some_iff.mp hget).1
  have hne : id + 1 ≠ ShapeId.empty := Nat.succ_ne_zero id
  have hrest := h.chainFrom_eq (lt_of_le_of_lt hle (Nat.lt_of_succ_lt hlt)) hle
  simp only [chain, chainFrom, hne, if_false, hget, hp] at hrest ⊢
  rw [hrest]

omit h in
theorem chain_zero (tbl : ShapeTable) : tbl.chain 0 = [] := rfl

/-- A lookup finds the record of a key at its slot. -/
theorem lookup_iff (hid : id < tbl.shapes.len) (key : PropertyKey) (found : PropertyLookup) :
    tbl.lookup id key = some found ↔
      (denote id)[found.slot]? = some ⟨key, found.kind, found.attributes⟩ := by
  induction id using Nat.strongRecOn with
  | ind id ih =>
    cases id with
    | zero =>
      rw [h.empty, lookup, chain_zero]
      simp
    | succ id =>
      obtain ⟨shape, parent, op, hget, hp, hop, hrecs, hdenote⟩ := h.step_of_lt hid
      have hsl := ShapeOperation.getElem?_apply_slot hop
      have hbl := h.nodup (lt_of_le_of_lt hp (Nat.lt_of_succ_lt hid))
      rw [lookup, h.chain_succ hget hrecs.parent hp, hdenote]
      by_cases hkey : op.record.key = key
      · -- the edge is about the key
        have hf : shape.key = some key := by rw [hrecs.key, hkey]
        rw [find?_cons_of_pos (by simpa using hf), Option.map_some, hrecs.slot,
          hrecs.kind, hrecs.attributes]
        constructor
        · intro hsome
          rw [← Option.some.inj hsome, hsl]
          simp only [← hkey]
        · intro hsome
          have hs := Layout.slot_unique (ShapeOperation.nodup_apply hbl hop) hsl hsome hkey
          rw [← hs, hsl] at hsome
          rw [Option.some.inj hsome, hs]
      · -- the edge is about another key
        have ho : shape.key ≠ some key := by
          rw [hrecs.key]
          exact fun heq => hkey (Option.some.inj heq)
        rw [find?_cons_of_neg (by simpa using ho)]
        rw [ShapeOperation.getElem?_apply_of_key_ne hbl hop (Ne.symm hkey)]
        exact ih parent (by omega) (by omega)

end

end ShapeTable.Encodes

/-! ### Own keys -/

/-- The entry of a property in the vector of `ownKeys`. -/
def PropertyRecord.entryAt (rec : PropertyRecord) (slot : Nat) : OwnPropertyEntry :=
  { key := rec.key
    property := { slot := slot, kind := rec.kind, attributes := rec.attributes } }

/-- The entries of a layout in the order of their slots. -/
def Layout.entries (layout : Layout) : List OwnPropertyEntry :=
  layout.zipIdx.map fun pair => pair.1.entryAt pair.2

theorem Layout.getElem?_entries (layout : Layout) (i : Nat) :
    (Layout.entries layout)[i]? = layout[i]?.map fun rec => rec.entryAt i := by
  rw [Layout.entries, getElem?_map, getElem?_zipIdx, Option.map_map, zero_add]
  rfl

/-- The entries that one pass of the iterator lists. -/
def OwnPropertyKeys.ofKind (symbols : Bool) (entries : List OwnPropertyEntry) :
    List OwnPropertyEntry :=
  entries.filter fun entry => !entry.key.isPrivate && (entry.key.isSymbol == symbols)

/-- The entries that can be listed: those of the strings, then those of the symbols. -/
def Layout.publicEntries (layout : Layout) : List OwnPropertyEntry :=
  OwnPropertyKeys.ofKind false (Layout.entries layout) ++
    OwnPropertyKeys.ofKind true (Layout.entries layout)

namespace ShapeTable.Encodes

variable {tbl : ShapeTable} {denote : ShapeId → Layout}

theorem fillSlot_length (slots : List (Option OwnPropertyEntry)) (shape : Shape) :
    (fillSlot slots shape).length = slots.length := by
  simp only [fillSlot]
  split
  · exact length_set
  · rfl

variable {id : Nat}

/-- The walk fills the slots that are still free with the records of the layout. -/
theorem fill_getElem? (h : tbl.Encodes denote) (hid : id < tbl.shapes.len) {slots : List (Option
    OwnPropertyEntry)} (hroom : (denote id).length ≤ slots.length) (i : Nat) :
    ((tbl.chain id).foldl fillSlot slots)[i]? =
      slots[i]?.map fun old => old <|> (denote id)[i]?.map fun rec => rec.entryAt i := by
  induction id using Nat.strongRecOn generalizing slots with
  | ind id ih =>
    cases id with
    | zero =>
      rw [chain_zero, foldl_nil, h.empty]
      cases slots[i]? with
      | none => rfl
      | some old => cases old <;> rfl
    | succ id =>
      obtain ⟨shape, parent, op, hget, hp, hop, hrecs, hdenote⟩ := h.step_of_lt hid
      have hlt := ShapeOperation.slot_lt hop
      have hbl := h.nodup (lt_of_le_of_lt hp (Nat.lt_of_succ_lt hid))
      rw [hdenote] at hroom
      have hroom' : (denote parent).length ≤ (fillSlot slots shape).length := by
        rw [fillSlot_length]
        refine le_trans ?_ hroom
        cases op with
        | add rec => exact length_append ▸ Nat.le_add_right _ _
        | reconfigure rec => exact le_of_eq (length_map _).symm
      rw [h.chain_succ hget hrecs.parent hp, foldl_cons,
        ih parent (by omega) (by omega) hroom', hdenote]
      by_cases hi : i = op.slot (denote parent)
      · -- the slot of the edge: the edge is the newest entry
        subst hi
        have hslots : op.slot (denote parent) < slots.length := lt_of_lt_of_le hlt hroom
        rw [ShapeOperation.getElem?_apply_slot hop]
        simp only [fillSlot, hrecs.key, hrecs.slot, hrecs.kind, hrecs.attributes,
          getElem?_eq_getElem hslots]
        cases hold : slots[op.slot (denote parent)] with
        | none =>
          rw [getElem?_set_self hslots]
          rfl
        | some old =>
          rw [getElem?_eq_getElem hslots, hold]
          rfl
      · have hkept : (fillSlot slots shape)[i]? = slots[i]? := by
          simp only [fillSlot, hrecs.slot]
          split
          · exact getElem?_set_ne (Ne.symm hi)
          · rfl
        rw [hkept, ShapeOperation.getElem?_apply_of_ne hbl hop hi]

/-- The vector of `ownKeys` has the whole layout. -/
theorem fill_eq (h : tbl.Encodes denote) (hid : id < tbl.shapes.len) :
    (tbl.chain id).foldl fillSlot (List.replicate (tbl.propertyCount id) none) =
      (Layout.entries (denote id)).map some := by
  apply ext_getElem?
  intro i
  rw [h.propertyCount_eq hid, h.fill_getElem? hid (by rw [length_replicate]),
    getElem?_map, Layout.getElem?_entries, getElem?_replicate]
  by_cases hi : i < (denote id).length
  · rw [if_pos hi, getElem?_eq_getElem hi]
    rfl
  · rw [if_neg hi, getElem?_eq_none (not_lt.mp hi)]
    rfl

end ShapeTable.Encodes

namespace OwnPropertyKeys

/-- One pass: nothing is left of the kind, or the first such entry and what is behind it. -/
theorem scan_spec (symbols : Bool) (entries : List OwnPropertyEntry) (idx : Nat) :
    (ofKind symbols entries = [] ∧
        scan symbols (entries.map some) idx = (none, idx + entries.length)) ∨
      ∃ ent cnt, cnt < entries.length ∧
        scan symbols (entries.map some) idx = (some ent, idx + (cnt + 1)) ∧
        ofKind symbols entries = ent :: ofKind symbols (entries.drop (cnt + 1)) := by
  induction entries generalizing idx with
  | nil => exact .inl ⟨rfl, rfl⟩
  | cons first rest ih =>
    by_cases htaken : (!first.key.isPrivate && (first.key.isSymbol == symbols)) = true
    · refine .inr ⟨first, 0, Nat.succ_pos _, ?_, ?_⟩
      · simp only [Bool.and_eq_true, Bool.not_eq_true', beq_iff_eq] at htaken
        simp [scan, htaken.1, htaken.2]
      · exact filter_cons_of_pos htaken
    · have hscan : scan symbols (some first :: rest.map some) idx =
          scan symbols (rest.map some) (idx + 1) := by
        simp only [scan]
        split
        · rfl
        next hpub =>
          split_ifs with hk
          · exfalso
            apply htaken
            simp [hpub, hk]
          · rfl
      have hfilter : ofKind symbols (first :: rest) = ofKind symbols rest :=
        filter_cons_of_neg htaken
      rw [map_cons, hscan, hfilter]
      rcases ih (idx + 1) with ⟨hn, hrest⟩ | ⟨ent, cnt, hc, hrest, hf⟩
      · refine .inl ⟨hn, ?_⟩
        rw [hrest, length_cons]
        congr 1
        omega
      · refine .inr ⟨ent, cnt + 1, Nat.succ_lt_succ hc, ?_, hf⟩
        rw [hrest]
        congr 1
        omega

/-- What an iterator has still to list. -/
def pending (entries : List OwnPropertyEntry) (keys : OwnPropertyKeys) : List OwnPropertyEntry :=
  if keys.symbols then ofKind true (entries.drop keys.index)
  else ofKind false (entries.drop keys.index) ++ ofKind true entries

/-- The slots that are still to be passed. -/
def budget (keys : OwnPropertyKeys) : Nat :=
  if keys.symbols then keys.slots.length - keys.index
  else 2 * keys.slots.length - keys.index

variable {entries : List OwnPropertyEntry} {keys : OwnPropertyKeys}

/-- One call lists the next pending entry. -/
theorem nextEntry_spec (hslots : keys.slots = entries.map some) (hi : keys.index ≤ entries.length) :
    (pending entries keys = [] ∧ keys.nextEntry.1 = none) ∨
      ∃ ent next, keys.nextEntry = (some ent, next) ∧ next.slots = keys.slots ∧
        next.index ≤ entries.length ∧ next.budget < keys.budget ∧
        pending entries keys = ent :: pending entries next := by
  have hlen : keys.slots.length = entries.length := by rw [hslots, length_map]
  have hdrop : keys.slots.drop keys.index = (entries.drop keys.index).map some := by
    rw [hslots, map_drop]
  have hbehind : (entries.drop keys.index).length = entries.length - keys.index := length_drop
  simp only [nextEntry, hdrop]
  cases hsymbols : keys.symbols with
  | true =>
    rcases scan_spec true (entries.drop keys.index) keys.index with
      ⟨hn, hscan⟩ | ⟨ent, cnt, hc, hscan, hf⟩
    · refine .inl ⟨?_, ?_⟩
      · rw [pending, hsymbols]
        exact hn
      · rw [hscan]
        rfl
    · rw [hscan]
      refine .inr ⟨ent, _, rfl, rfl, ?_, ?_, ?_⟩
      · show keys.index + (cnt + 1) ≤ entries.length
        omega
      · simp only [budget, hsymbols, if_true]
        omega
      · simp only [pending, hsymbols, if_true]
        rw [hf, drop_drop]
  | false =>
    rcases scan_spec false (entries.drop keys.index) keys.index with
      ⟨hn, hscan⟩ | ⟨ent, cnt, hc, hscan, hf⟩
    · -- the strings are done: the second pass starts
      rw [hscan]
      simp only [Bool.false_eq_true, if_false, hslots]
      rcases scan_spec true entries 0 with
        ⟨hn', hscan'⟩ | ⟨ent, cnt, hc, hscan', hf⟩
      · refine .inl ⟨?_, ?_⟩
        · simp only [pending, hsymbols]
          rw [hn, hn']
          rfl
        · rw [hscan']
      · rw [hscan']
        refine .inr ⟨ent, _, rfl, rfl, ?_, ?_, ?_⟩
        · show 0 + (cnt + 1) ≤ entries.length
          omega
        · simp only [budget, hsymbols, Bool.false_eq_true, if_true, if_false, length_map]
          omega
        · simp only [pending, hsymbols, Bool.false_eq_true, if_true, if_false]
          rw [hn, hf, nil_append, zero_add]
    · rw [hscan]
      refine .inr ⟨ent, _, rfl, rfl, ?_, ?_, ?_⟩
      · show keys.index + (cnt + 1) ≤ entries.length
        omega
      · simp only [budget, hsymbols, Bool.false_eq_true, if_false]
        omega
      · simp only [pending, hsymbols, Bool.false_eq_true, if_false]
        rw [hf, drop_drop, cons_append]

theorem take_eq {cnt : Nat} (hslots : keys.slots = entries.map some) (hi : keys.index ≤
    entries.length) (hc : keys.budget < cnt) : keys.take cnt = pending entries keys := by
  induction cnt generalizing keys with
  | zero => exact absurd hc (Nat.not_lt_zero _)
  | succ cnt ih =>
    simp only [take]
    rcases nextEntry_spec hslots hi with
      ⟨hdone, hn⟩ | ⟨ent, next, hn, hs, hi', hless, hpend⟩
    · rw [hdone]
      split
      next heq =>
        rw [heq] at hn
        cases hn
      · rfl
    · rw [hn, hpend]
      simp only
      rw [ih (hs.trans hslots) hi' (by omega)]

/-- Both passes together list what is not private. -/
theorem length_ofKind (entries : List OwnPropertyEntry) :
    (ofKind false entries ++ ofKind true entries).length =
      (entries.filter fun ent => !ent.key.isPrivate).length := by
  induction entries with
  | nil => rfl
  | cons ent rest ih =>
    simp only [ofKind, length_append, beq_true, beq_false] at ih
    cases hpriv : ent.key.isPrivate <;> cases hsymbol : ent.key.isSymbol <;>
      simp [ofKind, hpriv, hsymbol] <;> omega

end OwnPropertyKeys

namespace ShapeTable.Encodes

variable {tbl : ShapeTable} {denote : ShapeId → Layout}

/-- `ownKeys` lists the strings and then the symbols of the layout, each once. -/
theorem ownKeys_collect (h : tbl.Encodes denote) {id : Nat} (hid : id < tbl.shapes.len)
    {alloc alloc' : Allocator} {keys : OwnPropertyKeys}
    (hkeys : tbl.ownKeys id alloc = (.ok keys, alloc')) :
    keys.collect = Layout.publicEntries (denote id) ∧
      keys.remaining = (Layout.publicEntries (denote id)).length := by
  simp only [ownKeys, h.fill_eq hid] at hkeys
  split at hkeys
  · cases hkeys
  · obtain rfl := Except.ok.inj (Prod.mk.inj hkeys).1
    constructor
    · rw [OwnPropertyKeys.collect, OwnPropertyKeys.take_eq rfl (Nat.zero_le _)]
      · rfl
      · simp only [OwnPropertyKeys.budget, Bool.false_eq_true, if_false]
        omega
    · rw [Layout.publicEntries, OwnPropertyKeys.length_ofKind, filter_map, length_map]
      rfl

end ShapeTable.Encodes

/-! ## Transitions -/

namespace ShapeTable

/-- The tables differ in what memory they have reserved only. -/
structure SameEntries (tbl tbl' : ShapeTable) : Prop where
  shapes : tbl'.shapes.entries = tbl.shapes.entries
  transitions : tbl'.transitions.entries = tbl.transitions.entries
  limit : tbl'.limit = tbl.limit

theorem reserveChunked_entries {α : Type} (items : Stack α) (limit chunk : Nat) :
    (reserveChunked items limit chunk).2.entries = items.entries := by
  simp only [reserveChunked]
  split
  · rfl
  · exact Stack.tryReserveExact_entries _ _

/-- What a transition does: it uses an edge, it fails and leaves the entries alone, or it appends a
shape and its edge. -/
theorem transition_cases (tbl : ShapeTable) (source : ShapeId) (key : PropertyKey)
    (slot cnt : Nat) (kind : PropertyKind) (attributes : PropertyAttributes) :
    (∃ edge ∈ tbl.transitions.entries, edge.source = source ∧ edge.key = key ∧ edge.kind = kind ∧
        edge.attributes = attributes ∧
        tbl.transition source key slot cnt kind attributes = (.ok edge.target, tbl)) ∨
      (∃ err, (tbl.transition source key slot cnt kind attributes).1 = .error err ∧
        SameEntries tbl (tbl.transition source key slot cnt kind attributes).2) ∨
      (∃ version, (tbl.transition source key slot cnt kind attributes).1 = .ok tbl.shapes.len ∧
        (tbl.transition source key slot cnt kind attributes).2.shapes.entries =
          tbl.shapes.entries ++ [⟨some source, some key, slot, cnt, kind, attributes, version⟩] ∧
        (tbl.transition source key slot cnt kind attributes).2.transitions.entries =
          tbl.transitions.entries ++ [⟨source, key, kind, attributes, tbl.shapes.len⟩]) := by
  have hshapes := reserveChunked_entries tbl.shapes tbl.limit shapeGrowthChunk
  have hedges := reserveChunked_entries tbl.transitions (tbl.limit - 1) transitionGrowthChunk
  simp only [transition]
  split
  next edge hf =>
    have hedge := find?_some hf
    simp only [decide_eq_true_eq] at hedge
    exact .inl ⟨edge, mem_of_find?_eq_some hf, hedge.1, hedge.2.1, hedge.2.2.1,
      hedge.2.2.2, rfl⟩
  · right
    split
    · exact .inl ⟨_, rfl, rfl, rfl, rfl⟩
    · split
      · exact .inl ⟨_, rfl, hshapes, rfl, rfl⟩
      · split
        · exact .inl ⟨_, rfl, hshapes, hedges, rfl⟩
        · split
          · exact .inl ⟨_, rfl, hshapes, hedges, rfl⟩
          · refine .inr ⟨(tbl.shapes.entries[source]?.map Shape.version).getD 0 + 1, rfl, ?_, ?_⟩
            · simp only [Stack.push]
              rw [hshapes]
            · simp only [Stack.push]
              rw [hedges]

/-- What an operation does to the shape of an object. -/
def perform (tbl : ShapeTable) (source : ShapeId) :
    ShapeOperation → Option (Except ShapeError ShapeId × ShapeTable)
  | .add rec => some (tbl.transitionAddKind source rec.key rec.kind rec.attributes)
  | .reconfigure rec =>
    tbl.transitionReconfigureKind source rec.key rec.kind rec.attributes

/-- What an operation may have done: it failed and left the entries alone, or the table denotes its
old layouts and, at the shape it returns, the result of the operation. -/
inductive Performed (tbl : ShapeTable) (denote : ShapeId → Layout) (source : ShapeId)
    (op : ShapeOperation) : Except ShapeError ShapeId × ShapeTable → Prop where
  | failed {error : ShapeError} {tbl' : ShapeTable} (same : SameEntries tbl tbl') :
      Performed tbl denote source op (.error error, tbl')
  | reached {id : ShapeId} {tbl' : ShapeTable} {denote' : ShapeId → Layout}
      (encodes : tbl'.Encodes denote') (grows : tbl.shapes.entries <+: tbl'.shapes.entries)
      (kept : ∀ old, old < tbl.shapes.len → denote' old = denote old)
      (known : id < tbl'.shapes.len) (result : denote' id = op.apply (denote source)) :
      Performed tbl denote source op (.ok id, tbl')

namespace Encodes

variable {tbl : ShapeTable} {denote : ShapeId → Layout} {source : Nat} {op : ShapeOperation}

section

variable (h : tbl.Encodes denote)

include h

section

variable (hsource : source < tbl.shapes.len)

include hsource

section

variable (hop : op.Permitted (denote source))

include hop

/-- An edge of the index has the effect of the operation that asks for it. -/
theorem edge_result {edge : ShapeTransition} (hedge : edge ∈ tbl.transitions.entries)
    (hfrom : edge.source = source) (hkey : edge.key = op.record.key)
    (hkd : edge.kind = op.record.kind) (hattrs : edge.attributes = op.record.attributes) :
    edge.target < tbl.shapes.len ∧ denote edge.target = op.apply (denote source) := by
  obtain ⟨id, shape, ht, hget, hp, hshapeKey, hshapeKind, hshapeAttributes⟩ := h.edges edge hedge
  obtain ⟨parent, made, -, hmade, hrecs, hdenote⟩ := h.step id shape hget
  have hs : parent = source := by
    rw [hrecs.parent, hfrom] at hp
    exact Option.some.inj hp
  subst hs
  have hrec : made.record = op.record := by
    have hk : made.record.key = op.record.key := by
      rw [hrecs.key, hkey] at hshapeKey
      exact Option.some.inj hshapeKey
    rcases hm : made.record with ⟨key, kind, attributes⟩
    rcases ho : op.record with ⟨key', kind', attributes'⟩
    rw [hrecs.kind, hkd, hm, ho] at hshapeKind
    rw [hrecs.attributes, hattrs, hm, ho] at hshapeAttributes
    rw [hm, ho] at hk
    simp only at hk hshapeKind hshapeAttributes
    rw [hk, hshapeKind, hshapeAttributes]
  -- the layout tells which of the two operations the edge is
  have hmadeOp : made = op := by
    cases made with
    | add rec =>
      cases op with
      | add rec' => exact congrArg ShapeOperation.add hrec
      | reconfigure rec' =>
        subst hrec
        exact absurd hop hmade
    | reconfigure rec =>
      cases op with
      | add rec' =>
        subst hrec
        exact absurd hmade hop
      | reconfigure rec' => exact congrArg ShapeOperation.reconfigure hrec
  rw [ht, hdenote, hmadeOp]
  exact ⟨(List.getElem?_eq_some_iff.mp hget).1, rfl⟩

/-- A shape that is appended with its edge. -/
theorem append (hsm : (op.apply (denote source)).length < 2 ^ 32) {shape : Shape}
    (hshape : shape.Records source (denote source) op) {tbl' : ShapeTable}
    (hshapes : tbl'.shapes.entries = tbl.shapes.entries ++ [shape])
    (htransitions : tbl'.transitions.entries = tbl.transitions.entries ++
      [⟨source, op.record.key, op.record.kind, op.record.attributes, tbl.shapes.len⟩]) :
    tbl'.Encodes (Function.update denote tbl.shapes.len (op.apply (denote source))) := by
  have hkept : ∀ old, old < tbl.shapes.len →
      update denote tbl.shapes.len (op.apply (denote source)) old = denote old := by
    intro old hold
    exact update_of_ne (ne_of_lt hold) _ _
  have hpos : 0 < tbl.shapes.len := (List.getElem?_eq_some_iff.mp h.root).1
  constructor
  · rw [hshapes, List.getElem?_append_left hpos]
    exact h.root
  · rw [hkept 0 hpos]
    exact h.empty
  · intro id found hget
    rw [hshapes] at hget
    by_cases hold : id + 1 < tbl.shapes.len
    · rw [List.getElem?_append_left hold] at hget
      obtain ⟨parent, made, hp, hmade, hrecs, hdenote⟩ := h.step id found hget
      have hp' : parent < tbl.shapes.len := lt_of_le_of_lt hp (Nat.lt_of_succ_lt hold)
      refine ⟨parent, made, hp, ?_, ?_, ?_⟩
      · rw [hkept parent hp']
        exact hmade
      · rw [hkept parent hp']
        exact hrecs
      · rw [hkept parent hp', hkept (id + 1) hold]
        exact hdenote
    · have hl : id + 1 = tbl.shapes.len := by
        have hlt := (List.getElem?_eq_some_iff.mp hget).1
        rw [length_append] at hlt
        exact le_antisymm (Nat.le_of_lt_succ hlt) (not_lt.mp hold)
      rw [hl, show tbl.shapes.len = tbl.shapes.entries.length from rfl,
        getElem?_concat_length] at hget
      obtain rfl := Option.some.inj hget
      refine ⟨source, op, ?_, ?_, ?_, ?_⟩
      · rw [← hl] at hsource
        exact Nat.le_of_lt_succ hsource
      · rw [hkept source hsource]
        exact hop
      · rw [hkept source hsource]
        exact hshape
      · rw [hkept source hsource, hl, update_self]
  · intro edge hedge
    rw [htransitions, mem_append, mem_singleton] at hedge
    rcases hedge with hedge | rfl
    · obtain ⟨id, found, ht, hget, hf⟩ := h.edges edge hedge
      refine ⟨id, found, ht, ?_, hf⟩
      rw [hshapes, List.getElem?_append_left (List.getElem?_eq_some_iff.mp hget).1]
      exact hget
    · obtain ⟨id, hid⟩ := Nat.exists_eq_succ_of_ne_zero (ne_of_gt hpos)
      refine ⟨id, shape, hid, ?_, hshape.parent, hshape.key, hshape.kind, hshape.attributes⟩
      rw [hshapes, ← Nat.succ_eq_add_one, ← hid]
      exact getElem?_concat_length
  · intro id
    by_cases hid : id = tbl.shapes.len
    · rw [hid, update_self]
      exact hsm
    · rw [update_of_ne hid]
      exact h.small id

/-- The transition of an operation, whatever the table and the allocator make of it. -/
theorem performed_transition (hsm : (op.apply (denote source)).length < 2 ^ 32) :
    Performed tbl denote source op (tbl.transition source op.record.key
      (op.slot (denote source)) (op.apply (denote source)).length op.record.kind
      op.record.attributes) := by
  rcases transition_cases tbl source op.record.key (op.slot (denote source))
      (op.apply (denote source)).length op.record.kind op.record.attributes with
    ⟨edge, hedge, hfrom, hkey, hk, hattrs, hres⟩ | ⟨err, hres, hs⟩ |
      ⟨version, hres, hshapes, htransitions⟩
  · obtain ⟨hknown, hdenote⟩ := h.edge_result hsource hop hedge hfrom hkey hk hattrs
    rw [hres]
    exact .reached h (prefix_refl _) (fun _ _ => rfl) hknown hdenote
  · generalize tbl.transition source op.record.key (op.slot (denote source))
      (op.apply (denote source)).length op.record.kind op.record.attributes = outcome at *
    obtain ⟨res, tbl'⟩ := outcome
    simp only at hres
    rw [hres]
    exact .failed hs
  · generalize tbl.transition source op.record.key (op.slot (denote source))
      (op.apply (denote source)).length op.record.kind op.record.attributes = outcome at *
    obtain ⟨res, tbl'⟩ := outcome
    simp only at hres hshapes htransitions
    rw [hres]
    have hencodes := h.append hsource hop hsm ⟨rfl, rfl, rfl, rfl, rfl, rfl⟩ hshapes htransitions
    refine .reached hencodes ?_ ?_ ?_ (update_self _ _ _)
    · rw [hshapes]
      exact prefix_append _ _
    · intro old hold
      exact update_of_ne (ne_of_lt hold) _ _
    · show tbl.shapes.entries.length < tbl'.shapes.entries.length
      rw [hshapes, length_append]
      exact Nat.lt_succ_self _

/-- An operation on a shape that permits it. -/
theorem performed :
    ∃ outcome, tbl.perform source op = some outcome ∧ Performed tbl denote source op outcome := by
  have hc := h.propertyCount_eq hsource
  cases op with
  | add rec =>
    refine ⟨_, rfl, ?_⟩
    simp only [transitionAddKind, hc]
    split_ifs with hfits
    · exact .failed ⟨rfl, rfl, rfl⟩
    · have hlen : (denote source).length + 1 =
          ((ShapeOperation.add rec).apply (denote source)).length := by
        simp [ShapeOperation.apply]
      rw [hlen] at hfits ⊢
      exact h.performed_transition hsource hop (not_le.mp hfits)
  | reconfigure rec =>
    obtain ⟨old, hold, hkey⟩ := ShapeOperation.findIdx_spec hop
    have hlook : tbl.lookup source rec.key =
        some ⟨(ShapeOperation.reconfigure rec).slot (denote source), old.kind, old.attributes⟩ := by
      rw [h.lookup_iff hsource, ← hkey]
      exact hold
    simp only [perform, transitionReconfigureKind, hlook, hc]
    split_ifs with hs
    · refine ⟨_, rfl, .reached h (prefix_refl _) (fun _ _ => rfl) hsource ?_⟩
      have hrec : old = rec := by
        rcases old with ⟨key, kind, attributes⟩
        simp only at hs hkey
        rw [hkey, hs.1, hs.2]
      rw [hrec] at hold
      exact (ShapeOperation.apply_reconfigure_self (h.nodup hsource) hold).symm
    · refine ⟨_, rfl, ?_⟩
      have hlen : (denote source).length =
          ((ShapeOperation.reconfigure rec).apply (denote source)).length := by
        simp [ShapeOperation.apply]
      have hsm := h.small source
      rw [hlen] at hsm ⊢
      exact h.performed_transition hsource hop hsm

end

end

theorem of_sameEntries {tbl' : ShapeTable} (hs : SameEntries tbl tbl') : tbl'.Encodes denote := by
  obtain ⟨hshapes, htransitions, -⟩ := hs
  constructor
  · rw [hshapes]
    exact h.root
  · exact h.empty
  · rw [hshapes]
    exact h.step
  · rw [hshapes, htransitions]
    exact h.edges
  · exact h.small

end

end Encodes

theorem encodes_new {limit : Nat} {forShapes forTransitions : Allocator} {tbl : ShapeTable}
    (h : new limit forShapes forTransitions = .ok tbl) : tbl.Encodes fun _ => [] := by
  simp only [new] at h
  split at h
  · cases h
  · split at h
    · cases h
    · split_ifs at h
      obtain rfl := Except.ok.inj h
      have hshapes : ((Stack.new forShapes).tryReserveExact
          (min limit initialShapeCapacity)).2.entries = ([] : List Shape) :=
        Stack.tryReserveExact_entries _ _
      have htransitions : ((Stack.new forTransitions).tryReserveExact
          (min (limit - 1) initialTransitionCapacity)).2.entries = ([] : List ShapeTransition) :=
        Stack.tryReserveExact_entries _ _
      constructor
      · simp only [Stack.push]
        rw [hshapes]
        rfl
      · rfl
      · intro id shape hget
        simp only [Stack.push] at hget
        rw [hshapes] at hget
        cases hget
      · intro edge hedge
        rw [htransitions] at hedge
        cases hedge
      · intro id
        exact Nat.two_pow_pos 32

end ShapeTable

/-! ## Runs -/

/-- The layout that a shape stands for: the slots of its keys are `0` to `propertyCount - 1`, and
the keys are listed by `ownKeys`, strings first, each once and none of the private ones. -/
structure ShapeTable.Denotes (tbl : ShapeTable) (id : ShapeId) (layout : Layout) : Prop where
  lookup : ∀ key found, tbl.lookup id key = some found ↔
    layout[found.slot]? = some ⟨key, found.kind, found.attributes⟩
  within : ∀ key found, tbl.lookup id key = some found → found.slot < tbl.propertyCount id
  onto : ∀ slot, slot < tbl.propertyCount id →
    ∃! key, ∃ found, tbl.lookup id key = some found ∧ found.slot = slot
  ownKeys : ∀ allocator allocator' keys, tbl.ownKeys id allocator = (.ok keys, allocator') →
    keys.collect = Layout.publicEntries layout ∧ (keys.collect.map OwnPropertyEntry.key).Nodup

theorem Layout.map_key_entries (layout : Layout) :
    (Layout.entries layout).map OwnPropertyEntry.key = layout.map PropertyRecord.key := by
  apply ext_getElem?
  intro i
  rw [getElem?_map, Layout.getElem?_entries, Option.map_map, getElem?_map]
  rfl

/-- Two parts of a list with different keys, one after the other, have no key twice. -/
theorem nodup_append_filter {α β : Type} {key : α → β} {l : List α} {p q : α → Bool}
    (h : (l.map key).Nodup) (hpq : ∀ a b, key a = key b → p a = true → q b = true → False) :
    ((l.filter p ++ l.filter q).map key).Nodup := by
  rw [map_append, nodup_append]
  refine ⟨h.sublist (filter_sublist.map key), h.sublist (filter_sublist.map key), ?_⟩
  rintro _ hl _ hr heq
  obtain ⟨a, ha, rfl⟩ := mem_map.mp hl
  obtain ⟨b, hb, rfl⟩ := mem_map.mp hr
  exact hpq a b heq (mem_filter.mp ha).2 (mem_filter.mp hb).2

/-- No key is listed twice. -/
theorem Layout.nodup_publicEntries (h : (layout.map PropertyRecord.key).Nodup) :
    ((Layout.publicEntries layout).map OwnPropertyEntry.key).Nodup := by
  rw [← Layout.map_key_entries] at h
  refine nodup_append_filter h fun first second heq hstr hsymbol => ?_
  simp only [beq_iff_eq, Bool.and_eq_true] at hstr hsymbol
  rw [heq, hsymbol.2] at hstr
  exact absurd hstr.2 (by decide)

variable {tbl : ShapeTable} {denote : ShapeId → Layout} {id : Nat}

theorem ShapeTable.Encodes.denotes (h : tbl.Encodes denote) (hid : id < tbl.shapes.len) :
    tbl.Denotes id (denote id) := by
  have hc := h.propertyCount_eq hid
  have hnodup := h.nodup hid
  refine ⟨h.lookup_iff hid, ?_, ?_, ?_⟩
  · intro key found hf
    rw [hc]
    exact (List.getElem?_eq_some_iff.mp ((h.lookup_iff hid key found).mp hf)).1
  · intro slot hsl
    rw [hc] at hsl
    have hget := getElem?_eq_getElem hsl
    generalize (denote id)[slot] = rec at hget
    refine ⟨rec.key, ⟨⟨slot, rec.kind, rec.attributes⟩, ?_, rfl⟩, ?_⟩
    · exact (h.lookup_iff hid _ _).mpr hget
    · rintro other ⟨found, hf, rfl⟩
      rw [h.lookup_iff hid, hget] at hf
      exact (congrArg PropertyRecord.key (Option.some.inj hf)).symm
  · intro alloc alloc' keys hkeys
    have hcoll := (h.ownKeys_collect hid hkeys).1
    rw [hcoll]
    exact ⟨rfl, Layout.nodup_publicEntries hnodup⟩

/-- A key is added to a shape without it and reconfigured in a shape with it. -/
def ShapeTable.Allows (tbl : ShapeTable) (id : ShapeId) : ShapeOperation → Prop
  | .add rec => tbl.lookup id rec.key = none
  | .reconfigure rec => tbl.lookup id rec.key ≠ none

theorem ShapeTable.Encodes.permitted_of_allows (h : tbl.Encodes denote) (hid : id < tbl.shapes.len)
    {op : ShapeOperation} (hop : tbl.Allows id op) : op.Permitted (denote id) := by
  cases op with
  | add rec =>
    intro hm
    obtain ⟨old, hold, hkey⟩ := mem_map.mp hm
    obtain ⟨slot, hsl⟩ := getElem?_of_mem hold
    have hf : tbl.lookup id rec.key = some ⟨slot, old.kind, old.attributes⟩ := by
      rw [h.lookup_iff hid, ← hkey]
      exact hsl
    rw [show tbl.lookup id rec.key = none from hop] at hf
    cases hf
  | reconfigure rec =>
    obtain ⟨found, hf⟩ := Option.ne_none_iff_exists'.mp hop
    have hget := (h.lookup_iff hid _ _).mp hf
    exact mem_map.mpr ⟨_, mem_of_getElem? hget, rfl⟩

/-- A table and the objects that use it, each with its shape and the operations it has made. -/
structure ShapeSystem where
  table : ShapeTable
  shape : Nat → ShapeId
  history : Nat → List ShapeOperation

namespace ShapeSystem

/-- The system before the first operation. -/
def start (tbl : ShapeTable) : ShapeSystem :=
  { table := tbl, shape := fun _ => ShapeId.empty, history := fun _ => [] }

/-- An object asks for an operation: it is in the new shape, or the operation has failed. -/
def after (system : ShapeSystem) (object : Nat) (op : ShapeOperation) : ShapeSystem :=
  match system.table.perform (system.shape object) op with
  | some (.ok id, tbl) =>
    { table := tbl
      shape := Function.update system.shape object id
      history := Function.update system.history object (system.history object ++ [op]) }
  | some (.error _, tbl) => { system with table := tbl }
  | none => system

/-- An object asks for an operation that its shape allows. -/
inductive Step (system : ShapeSystem) : ShapeSystem → Prop where
  | perform (object : Nat) (op : ShapeOperation)
      (allowed : system.table.Allows (system.shape object) op) :
        Step system (system.after object op)

/-- Every object is in the shape of the layout that its own operations make. -/
structure Faithful (system : ShapeSystem) (denote : ShapeId → Layout) : Prop where
  encodes : system.table.Encodes denote
  known : ∀ object, system.shape object < system.table.shapes.len
  replay : ∀ object, denote (system.shape object) = ShapeOperation.replay (system.history object)

variable {system system' : ShapeSystem} {denote : ShapeId → Layout}

theorem Faithful.step (h : system.Faithful denote) (hstep : Step system system') :
    ∃ denote', system'.Faithful denote' ∧ system.table.shapes.len ≤ system'.table.shapes.len ∧
      ∀ id, id < system.table.shapes.len → denote' id = denote id := by
  cases hstep with
  | perform obj op allowed =>
    have hop := h.encodes.permitted_of_allows (h.known obj) allowed
    obtain ⟨outcome, hout, hperformed⟩ := h.encodes.performed (h.known obj) hop
    simp only [after, hout]
    cases hperformed with
    | @reached id tbl' denote' encodes grows kept known res =>
      have hgr := grows.length_le
      refine ⟨denote', ⟨encodes, ?_, ?_⟩, hgr, kept⟩
      · intro other
        by_cases ho : other = obj
        · subst ho
          simp only [update_self]
          exact known
        · simp only [update_of_ne ho]
          exact lt_of_lt_of_le (h.known other) hgr
      · intro other
        by_cases ho : other = obj
        · subst ho
          simp only [update_self]
          rw [res, h.replay, ShapeOperation.replay, ShapeOperation.replay, foldl_append]
          rfl
        · simp only [update_of_ne ho]
          rw [kept _ (h.known other)]
          exact h.replay other
    | failed same =>
      have hlen := congrArg length same.shapes
      refine ⟨denote, ⟨h.encodes.of_sameEntries same, ?_, h.replay⟩, le_of_eq hlen.symm,
        fun _ _ => rfl⟩
      intro other
      exact lt_of_lt_of_le (h.known other) (le_of_eq hlen.symm)

theorem Faithful.run (h : system.Faithful denote) (hrun : Relation.ReflTransGen Step system system')
    :
    ∃ denote', system'.Faithful denote' ∧ system.table.shapes.len ≤ system'.table.shapes.len ∧
      ∀ id, id < system.table.shapes.len → denote' id = denote id := by
  induction hrun with
  | refl => exact ⟨denote, h, le_refl _, fun _ _ => rfl⟩
  | tail _ hstep ih =>
    obtain ⟨denote', h', hlen, hkept⟩ := ih
    obtain ⟨denote'', h'', hlen', hkept'⟩ := h'.step hstep
    refine ⟨denote'', h'', le_trans hlen hlen', ?_⟩
    intro id hid
    rw [hkept' id (lt_of_lt_of_le hid hlen), hkept id hid]

/-- In every run, each shape stands for one layout for ever, every object is in a shape that stands
for the replay of its own operations, and an operation that fails changes nothing. -/
theorem shapes_denote_layouts {limit : Nat} {forShapes forTransitions : Allocator}
    {tbl : ShapeTable} (hnew : ShapeTable.new limit forShapes forTransitions = .ok tbl)
    {system : ShapeSystem} (hrun : Relation.ReflTransGen Step (start tbl) system) :
    ∃ denote : ShapeId → Layout,
      (∀ id, id < system.table.shapes.len → ∀ later, Relation.ReflTransGen Step system later →
        later.table.Denotes id (denote id)) ∧
      (∀ obj, system.shape obj < system.table.shapes.len ∧
        denote (system.shape obj) = ShapeOperation.replay (system.history obj)) ∧
      (∀ id, id < system.table.shapes.len → ∀ op, system.table.Allows id op →
        ∀ err tbl', system.table.perform id op = some (.error err, tbl') →
          system.table.SameEntries tbl') := by
  have hencodes := ShapeTable.encodes_new hnew
  have hst : (start tbl).Faithful fun _ => [] := by
    refine ⟨hencodes, ?_, fun _ => rfl⟩
    intro obj
    exact (List.getElem?_eq_some_iff.mp hencodes.root).1
  obtain ⟨denote, hsystem, -, -⟩ := hst.run hrun
  refine ⟨denote, ?_, fun obj => ⟨hsystem.known obj, hsystem.replay obj⟩, ?_⟩
  · intro id hid later hlat
    obtain ⟨denote', hfaithful, hlen, hkept⟩ := hsystem.run hlat
    rw [← hkept id hid]
    exact hfaithful.encodes.denotes (lt_of_lt_of_le hid hlen)
  · intro id hid op hallows err tbl' hfl
    have hop := hsystem.encodes.permitted_of_allows hid hallows
    obtain ⟨outcome, hout, hperformed⟩ := hsystem.encodes.performed hid hop
    rw [hfl] at hout
    obtain rfl := Option.some.inj hout
    cases hperformed with
    | failed same => exact same

/-- A table with room for some shapes. -/
def sampleTable : ShapeTable :=
  { shapes := ⟨[ShapeTable.rootShape], 8, ⟨fun _ => false, 1⟩⟩
    transitions := ⟨[], 7, ⟨fun _ => false, 1⟩⟩
    limit := 8 }

def sampleSymbol : PropertyRecord := ⟨.symbol ⟨1, ⟨1, Gc.firstOffset⟩⟩, .data, .defaultData⟩

def sampleString : PropertyRecord := ⟨.atom 5, .data, .defaultData⟩

/-- A symbol and then a string are added to one object. -/
theorem run_symbolFirst : ∃ system, Relation.ReflTransGen Step (start sampleTable) system ∧
      system.history 0 = [.add sampleSymbol, .add sampleString] ∧ system.shape 0 = 2 ∧
      ∃ keys alloc, system.table.ownKeys (system.shape 0) .granting = (.ok keys, alloc) ∧
        keys.collect.map OwnPropertyEntry.key = [sampleString.key, sampleSymbol.key] := by
  have hfirst : Step (start sampleTable) ((start sampleTable).after 0 (.add sampleSymbol)) :=
    .perform 0 (.add sampleSymbol) rfl
  have hsec : Step _ (((start sampleTable).after 0 (.add sampleSymbol)).after 0
      (.add sampleString)) := .perform 0 (.add sampleString) rfl
  refine ⟨_, .tail (.tail .refl hfirst) hsec, rfl, rfl, _, _, rfl, rfl⟩

theorem shapes_denote_layouts_symbolFirst :
    ShapeTable.new 8 .granting .granting = .ok sampleTable ∧
      ∃ system, Relation.ReflTransGen Step (start sampleTable) system ∧
        system.table.Denotes 2 [sampleSymbol, sampleString] := by
  obtain ⟨system, hrun, hhistory, hshape, -⟩ := run_symbolFirst
  have hnew : ShapeTable.new 8 .granting .granting = .ok sampleTable := rfl
  obtain ⟨denote, hdenotes, hobj, -⟩ := shapes_denote_layouts hnew hrun
  obtain ⟨hknown, hreplay⟩ := hobj 0
  rw [hshape] at hknown hreplay
  rw [hhistory] at hreplay
  refine ⟨hnew, system, hrun, ?_⟩
  have hdenoted := hdenotes 2 hknown system .refl
  rw [hreplay] at hdenoted
  exact hdenoted

/-- The symbol was added first, and `ownKeys` lists the string first. -/
theorem ownKeys_not_in_addition_order : ¬ ∀ (system : ShapeSystem) (keys : OwnPropertyKeys)
    (alloc : Allocator), Relation.ReflTransGen Step (start sampleTable) system →
    system.table.ownKeys (system.shape 0) .granting = (.ok keys, alloc) →
    keys.collect.map OwnPropertyEntry.key =
      (ShapeOperation.replay (system.history 0)).map PropertyRecord.key := by
  intro hclaim
  obtain ⟨system, hrun, hhistory, -, keys, alloc, hkeys, hlist⟩ := run_symbolFirst
  have hord := hclaim system keys alloc hrun hkeys
  rw [hlist, hhistory] at hord
  exact absurd hord (by decide)

end ShapeSystem

end TachyonEngine.Vm
