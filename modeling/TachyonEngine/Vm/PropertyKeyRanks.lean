import TachyonEngine.Vm.PropertyKeyChronology

/-!
# Ranks against the specified order

Each ranked key is of one of five classes, and a class has a rank and a place in the specified
order.
-/

namespace TachyonEngine.Vm

open Receiver PropertyHeap List

open Lib.Capacity

/-! ## Bits -/

theorem or_three (order : Nat) : 3 ||| order = 4 * (order / 4) + 3 := by
  have hsplit : order = (order / 4) <<< 2 ||| order % 4 := by
    rw [← Nat.shiftLeft_add_eq_or_of_lt (Nat.mod_lt _ (by decide))]
    omega
  have hlow : 3 ||| order % 4 = 3 := by
    have hlt : order % 4 < 4 := Nat.mod_lt _ (by decide)
    generalize order % 4 = low at hlt
    interval_cases low <;> rfl
  have hthree : 3 ||| order = (order / 4) <<< 2 ||| 3 := by
    conv_lhs => rw [hsplit]
    rw [← Nat.or_assoc, Nat.or_comm 3, Nat.or_assoc, hlow]
  rw [hthree, ← Nat.shiftLeft_add_eq_or_of_lt (by decide)]
  omega

theorem stringKeyRank_or {n : Nat} (h : n < 2 ^ 62) : stringKeyRank ||| n = 2 ^ 62 + n := by
  have hshift : stringKeyRank = 1 <<< 62 := rfl
  rw [hshift, ← Nat.shiftLeft_add_eq_or_of_lt h, Nat.shiftLeft_eq, one_mul]

theorem symbolKeyRank_or {n : Nat} (h : n < 2 ^ 63) : symbolKeyRank ||| n = 2 ^ 63 + n := by
  have hshift : symbolKeyRank = 1 <<< 63 := rfl
  rw [hshift, ← Nat.shiftLeft_add_eq_or_of_lt h, Nat.shiftLeft_eq, one_mul]

/-! ## Classes -/

inductive KeyClass where
  | index (i : Nat)
  | virtual (ordinal : Nat)
  | wrapperLength
  | string (order created : Nat)
  | symbol (order created : Nat)

namespace KeyClass

def rank : KeyClass → Nat
  | .index i => i
  | .virtual ordinal => 2 ^ 62 + ordinal
  | .wrapperLength => 2 ^ 62 + 2 ^ 32
  | .string order _ => 2 ^ 62 + (4 * (order / 4) + 3)
  | .symbol order _ => 2 ^ 63 + order

def place : KeyClass → Nat × Nat
  | .index i => (0, i)
  | .virtual ordinal => (1, ordinal)
  | .wrapperLength => (1, 0)
  | .string _ created => (1, virtualKeyCount + created)
  | .symbol _ created => (2, created)

end KeyClass

namespace Chronicle

section Classes

variable (chron : Chronicle) (atoms : AtomTable) (obj : Nat) (receiver : Receiver)

/-- The class of a ranked key. -/
inductive Classified : RankedPropertyKey → KeyClass → Prop where
  | index {index : Nat} {property : Option PropertyLookup} (fits : index ≤ maxArrayIndex) :
      Classified ⟨atoms.indexKey index, property, index⟩ (.index index)
  | virtual {ordinal : Nat} {key : PropertyKey} {property : Option PropertyLookup}
      (listed : (ordinal, key) ∈ receiver.virtualKeys atoms)
      (first : chron.heap.virtualOrdinal atoms obj receiver key = some ordinal) :
      Classified ⟨key, property, stringKeyRank ||| ordinal⟩ (.virtual ordinal)
  | wrapperLength (wrapper : receiver.stringLength ≠ none) :
      Classified ⟨.atom atoms.lengthAtom, none, stringKeyRank ||| 1 <<< 32⟩ .wrapperLength
  | string {order : Nat} {ent : OwnPropertyEntry}
      (listed : (chron.heap.listing obj)[order]? = some ent)
      (plain : chron.Plain atoms obj receiver ent) :
      Classified ⟨ent.key, some ent.property, stringKeyRank ||| virtualKeyCount ||| order⟩
        (.string order (chron.created obj ent.key))
  | symbol {order : Nat} {ent : OwnPropertyEntry}
      (listed : (chron.heap.listing obj)[order]? = some ent)
      (isSymbol : ent.key.isSymbol = true) :
      Classified ⟨ent.key, some ent.property, symbolKeyRank ||| order⟩
        (.symbol order (chron.created obj ent.key))

/-- The exotic keys of a receiver are not also present in its shape. -/
def Separate : Prop := ∀ key, receiver.OwnsExotic atoms key → ∀ property,
    chron.heap.shapes.lookup (chron.heap.objects obj).shape key = some property →
      chron.heap.propertyIsPresent obj property = false

end Classes

variable {chron : Chronicle} {denote : ShapeId → Layout} {atoms : AtomTable} {obj : Nat}
  {receiver : Receiver}

/-! ## The listing -/

theorem listing_eq (h : chron.Ordered denote) (obj : Nat) : chron.heap.listing obj =
      Layout.publicEntries (denote (chron.heap.objects obj).shape) := by
  obtain ⟨keys, alloc, hkeys⟩ : ∃ keys alloc, chron.heap.shapes.ownKeys
      (chron.heap.objects obj).shape .granting = (.ok keys, alloc) := ⟨_, _, rfl⟩
  rw [listing, hkeys]
  exact (h.stores.encodes.ownKeys_collect (h.stores.known obj) hkeys).1

theorem listing_length_lt (h : chron.Ordered denote) (obj : Nat) :
    (chron.heap.listing obj).length < 2 ^ 32 := by
  rw [listing_eq h, Layout.publicEntries, OwnPropertyKeys.length_ofKind]
  refine lt_of_le_of_lt (length_filter_le _ _) ?_
  rw [Layout.entries, length_map, length_zipIdx]
  exact h.stores.encodes.small _

variable {ent : OwnPropertyEntry}

/-- What is listed resolves to itself, and none of it is private. -/
theorem lookup_of_listing (h : chron.Ordered denote) (hmem : ent ∈ chron.heap.listing obj) :
    chron.heap.shapes.lookup (chron.heap.objects obj).shape ent.key =
        some ent.property ∧ ent.key.isPrivate = false := by
  rw [listing_eq h, Layout.publicEntries, mem_append] at hmem
  have hof : ent ∈ Layout.entries (denote (chron.heap.objects obj).shape) ∧
      ent.key.isPrivate = false := by
    rcases hmem with hmem | hmem
    · have hfilter := mem_filter.mp hmem
      simp only [Bool.and_eq_true, Bool.not_eq_true'] at hfilter
      exact ⟨hfilter.1, hfilter.2.1⟩
    · have hfilter := mem_filter.mp hmem
      simp only [Bool.and_eq_true, Bool.not_eq_true'] at hfilter
      exact ⟨hfilter.1, hfilter.2.1⟩
  obtain ⟨slot, hsl⟩ := getElem?_of_mem hof.1
  rw [Layout.getElem?_entries, Option.map_eq_some_iff] at hsl
  obtain ⟨rec, hrec, rfl⟩ := hsl
  exact ⟨(h.stores.encodes.lookup_iff (h.stores.known obj) _ _).mpr hrec, hof.2⟩

theorem mem_listing_iff (h : chron.Ordered denote) (key : PropertyKey) (prop : PropertyLookup) :
    (⟨key, prop⟩ : OwnPropertyEntry) ∈ chron.heap.listing obj ↔
      chron.heap.shapes.lookup (chron.heap.objects obj).shape key = some prop ∧
        key.isPrivate = false := by
  constructor
  · intro hmem
    exact lookup_of_listing h hmem
  · rintro ⟨hlook, hpub⟩
    have hget := (h.stores.encodes.lookup_iff (h.stores.known obj) _ _).mp hlook
    have he : (⟨key, prop⟩ : OwnPropertyEntry) ∈
        Layout.entries (denote (chron.heap.objects obj).shape) := by
      apply mem_of_getElem?
      rw [Layout.getElem?_entries, hget, Option.map_some]
      rfl
    rw [listing_eq h, Layout.publicEntries, mem_append, OwnPropertyKeys.ofKind,
      OwnPropertyKeys.ofKind, mem_filter, mem_filter]
    cases hsymbol : key.isSymbol with
    | false => exact .inl ⟨he, by rw [hpub]; rfl⟩
    | true => exact .inr ⟨he, by rw [hpub]; rfl⟩

/-- The keys of one kind are listed in the order of their creation. -/
theorem listing_sorted (h : chron.Ordered denote) (obj : Nat) :
    (chron.heap.listing obj).Pairwise fun left right => left.key.isSymbol = right.key.isSymbol →
        chron.created obj left.key < chron.created obj right.key := by
  have hkeys : (Layout.entries (denote (chron.heap.objects obj).shape)).map
      OwnPropertyEntry.key = Contents.keys (chron.heap.contents denote obj) := by
    rw [Layout.map_key_entries]
    have hrecs := map_fst_zip (le_of_eq (h.stores.slots obj).symm)
    conv_lhs => rw [← hrecs]
    rw [map_map]
    rfl
  have hk : ∀ symbols, (OwnPropertyKeys.ofKind symbols
      (Layout.entries (denote (chron.heap.objects obj).shape))).Pairwise fun left right =>
        chron.created obj left.key < chron.created obj right.key := by
    intro symbols
    have hsort := h.sorted obj symbols
    rw [← hkeys, filter_map, pairwise_map] at hsort
    exact hsort
  rw [listing_eq h, Layout.publicEntries, pairwise_append]
  refine ⟨?_, ?_, ?_⟩
  · apply (hk false).imp
    intro left right hlt _
    exact hlt
  · apply (hk true).imp
    intro left right hlt _
    exact hlt
  intro left hleft right hright hs
  have hstr := (mem_filter.mp hleft).2
  have hsymbol := (mem_filter.mp hright).2
  simp only [Bool.and_eq_true, beq_iff_eq] at hstr hsymbol
  rw [hstr.2, hsymbol.2] at hs
  exact absurd hs Bool.false_ne_true

variable {i j : Nat} {left right : OwnPropertyEntry}

section

variable (h : chron.Ordered denote)

include h

section

variable (hleft : (chron.heap.listing obj)[i]? = some left)

include hleft

section

variable (hright : (chron.heap.listing obj)[j]? = some right)

include hright

theorem created_lt (hlt : i < j) (hs : left.key.isSymbol = right.key.isSymbol) :
    chron.created obj left.key < chron.created obj right.key := by
  obtain ⟨hi, rfl⟩ := List.getElem?_eq_some_iff.mp hleft
  obtain ⟨hj, rfl⟩ := List.getElem?_eq_some_iff.mp hright
  exact pairwise_iff_getElem.mp (listing_sorted h obj) i j hi hj hlt hs

theorem order_lt_of_created_lt (hs : left.key.isSymbol = right.key.isSymbol)
    (hlt : chron.created obj left.key < chron.created obj right.key) : i < j := by
  rcases lt_trichotomy i j with hij | rfl | hji
  · exact hij
  · rw [hleft] at hright
    obtain rfl := Option.some.inj hright
    exact absurd hlt (lt_irrefl _)
  · exact absurd (created_lt h hright hleft hji hs.symm) (lt_asymm hlt)

theorem key_eq_of_created_eq (hs : left.key.isSymbol = right.key.isSymbol)
    (hcreated : chron.created obj left.key = chron.created obj right.key) :
    left.key = right.key := by
  rcases lt_trichotomy i j with hij | rfl | hji
  · exact absurd hcreated (ne_of_lt (created_lt h hleft hright hij hs))
  · rw [hleft] at hright
    rw [Option.some.inj hright]
  · exact absurd hcreated.symm (ne_of_lt (created_lt h hright hleft hji hs.symm))

end

end

omit h in
theorem Plain.isSymbol_eq (h : chron.Plain atoms obj receiver ent) : ent.key.isSymbol = false := by
  obtain ⟨⟨atom, hatom⟩, -⟩ := h
  rw [hatom]
  rfl

/-! ## The keys before they are sorted -/

theorem rankedOwnPropertyKeys_eq {ranked : List RankedPropertyKey} {heap' : PropertyHeap}
    (hcall : chron.heap.rankedOwnPropertyKeys atoms obj receiver = (.ok ranked, heap')) :
    ranked = chron.heap.exoticKeys atoms obj receiver ++
      chron.heap.structuralKeys atoms obj receiver (chron.heap.listing obj) := by
  simp only [rankedOwnPropertyKeys] at hcall
  split at hcall
  · cases hcall
  next keys alloc hkeys =>
    have hlist : keys.collect = chron.heap.listing obj := by
      rw [listing_eq h]
      exact (h.stores.encodes.ownKeys_collect (h.stores.known obj) hkeys).1
    split at hcall
    · cases hcall
    next reserved hrsv =>
      obtain ⟨-, hobj⟩ := reserve_eq hrsv
      obtain ⟨hranked, -⟩ := Prod.mk.inj hcall
      rw [← Except.ok.inj hranked, hlist]
      simp only [structuralKeys, propertyIsPresent, exoticKeys, hobj]

omit h in
theorem mem_structuralKeys_iff (ranked : RankedPropertyKey) (listed : List OwnPropertyEntry) :
    ranked ∈ chron.heap.structuralKeys atoms obj receiver listed ↔
      ∃ order ent, listed[order]? = some ent ∧
        chron.heap.propertyIsPresent obj ent.property = true ∧ ranked = ⟨ent.key, some ent.property,
          propertyKeyRank atoms (receiver.virtualKeys atoms) ent.key ent.property.attributes
            order⟩ := by
  simp only [structuralKeys, mem_map, mem_filter, Prod.exists,
    mk_mem_zipIdx_iff_getElem?]
  constructor
  · rintro ⟨ent, order, ⟨hlist, hpres⟩, rfl⟩
    exact ⟨order, ent, hlist, hpres, rfl⟩
  · rintro ⟨order, ent, hlist, hpres, rfl⟩
    exact ⟨ent, order, ⟨hlist, hpres⟩, rfl⟩

theorem mem_keys_structuralKeys_iff (key : PropertyKey) :
    key ∈ (chron.heap.structuralKeys atoms obj receiver
        (chron.heap.listing obj)).map RankedPropertyKey.key ↔ key.isPrivate = false ∧ ∃ prop,
        chron.heap.shapes.lookup (chron.heap.objects obj).shape key = some prop ∧
          chron.heap.propertyIsPresent obj prop = true := by
  rw [mem_map]
  constructor
  · rintro ⟨ranked, hmem, rfl⟩
    obtain ⟨order, ent, hlist, hpres, rfl⟩ := (mem_structuralKeys_iff _ _).mp hmem
    obtain ⟨hlook, hpub⟩ := lookup_of_listing h (mem_of_getElem? hlist)
    exact ⟨hpub, ent.property, hlook, hpres⟩
  · rintro ⟨hpub, prop, hlook, hpres⟩
    obtain ⟨order, hlist⟩ := getElem?_of_mem ((mem_listing_iff h key prop).mpr ⟨hlook, hpub⟩)
    exact ⟨_, (mem_structuralKeys_iff _ _).mpr ⟨order, _, hlist, hpres, rfl⟩, rfl⟩

end

/-! ## Virtual keys -/

variable {ordinal : Nat} {key : PropertyKey}

section

variable (hmem : (ordinal, key) ∈ receiver.virtualKeys atoms)

include hmem

theorem find_virtualKeys :
    ((receiver.virtualKeys atoms).find? fun ent => ent.2 = key) = some (ordinal, key) := by
  have hname : atoms.lengthAtom ≠ atoms.nameAtom := by
    intro heq
    have htext := congrArg atoms.text heq
    rw [atoms.text_lengthAtom, atoms.text_nameAtom] at htext
    exact absurd htext (by decide)
  have hproto : atoms.lengthAtom ≠ atoms.prototypeAtom := by
    intro heq
    have htext := congrArg atoms.text heq
    rw [atoms.text_lengthAtom, atoms.text_prototypeAtom] at htext
    exact absurd htext (by decide)
  have hl : atoms.nameAtom ≠ atoms.prototypeAtom := by
    intro heq
    have htext := congrArg atoms.text heq
    rw [atoms.text_nameAtom, atoms.text_prototypeAtom] at htext
    exact absurd htext (by decide)
  cases receiver with
  | function hasPrototype =>
    cases hasPrototype <;> simp [virtualKeys] at hmem ⊢ <;> grind
  | _ => cases hmem

theorem virtualKeys_spec :
    ordinal < virtualKeyCount ∧ atoms.index key = none ∧ key.isSymbol = false ∧
      receiver.stringLength = none := by
  cases receiver with
  | function hasPrototype =>
    have hcases : (ordinal = 0 ∧ key = .atom atoms.lengthAtom) ∨
        (ordinal = 1 ∧ key = .atom atoms.nameAtom) ∨
        (ordinal = 2 ∧ key = .atom atoms.prototypeAtom) := by
      cases hasPrototype <;> simp [virtualKeys] at hmem ⊢ <;> grind
    rcases hcases with ⟨rfl, rfl⟩ | ⟨rfl, rfl⟩ | ⟨rfl, rfl⟩
    · exact ⟨by decide, atoms.index_lengthAtom, rfl, rfl⟩
    · exact ⟨by decide, atoms.index_nameAtom, rfl, rfl⟩
    · exact ⟨by decide, atoms.index_prototypeAtom, rfl, rfl⟩
  | _ => cases hmem

omit hmem in
theorem virtualKeys_unique {left right : PropertyKey}
    (hleft : (ordinal, left) ∈ receiver.virtualKeys atoms)
    (hright : (ordinal, right) ∈ receiver.virtualKeys atoms) : left = right := by
  cases receiver with
  | function hasPrototype =>
    cases hasPrototype <;> simp [virtualKeys] at hleft hright <;> grind
  | _ => cases hleft

/-- A virtual key keeps its ordinal while it is not in the shape, or in it with its origin. -/
theorem virtualOrdinal_of_mem
    (horigin : ∀ prop, chron.heap.shapes.lookup (chron.heap.objects obj).shape key =
      some prop → prop.attributes.virtualOrigin = true) :
    chron.heap.virtualOrdinal atoms obj receiver key = some ordinal := by
  have hfind := find_virtualKeys hmem
  cases receiver with
  | function hasPrototype =>
    simp only [virtualOrdinal, hfind]
    split
    · rfl
    · next prop hlook => rw [if_pos (horigin prop hlook)]
  | _ => cases hmem

end

/-- A later string has no ordinal. -/
theorem virtualOrdinal_of_plain (h : chron.Ordered denote)
    (hsep : chron.Separate atoms obj receiver) (hlist : ent ∈ chron.heap.listing obj)
    (hplain : chron.Plain atoms obj receiver ent) :
    chron.heap.virtualOrdinal atoms obj receiver ent.key = none := by
  obtain ⟨-, -, hpres, hlat⟩ := hplain
  obtain ⟨hlook, -⟩ := lookup_of_listing h hlist
  simp only [virtualOrdinal]
  split
  · refine if_neg fun hkey => ?_
    have hab := hsep ent.key (.inl hkey) ent.property hlook
    rw [hpres] at hab
    cases hab
  · split
    · rfl
    next ordinal key hfind =>
      have hkey : key = ent.key := by simpa using find?_some hfind
      have hmem := mem_of_find?_eq_some hfind
      rw [hkey] at hmem
      rw [hlook]
      exact if_neg fun horigin => hlat ⟨horigin, ordinal, hmem⟩

/-! ## Every key has a class -/

theorem classify_structural (h : chron.Ordered denote) {order : Nat}
    (hlist : (chron.heap.listing obj)[order]? = some ent)
    (hpres : chron.heap.propertyIsPresent obj ent.property = true) :
    ∃ c, chron.Classified atoms obj receiver ⟨ent.key, some ent.property,
      propertyKeyRank atoms (receiver.virtualKeys atoms) ent.key ent.property.attributes
        order⟩ c := by
  obtain ⟨hlook, hpub⟩ := lookup_of_listing h (mem_of_getElem? hlist)
  obtain ⟨key, prop⟩ := ent
  cases key with
  | atom id =>
    simp only [propertyKeyRank]
    cases hi : atoms.index (.atom id) with
    | some i =>
      obtain ⟨hkey, hfits⟩ := AtomTable.eq_indexKey hi
      rw [hkey]
      exact ⟨_, .index hfits⟩
    | none =>
      simp only
      split
      next ordinal key horigin hfind =>
        have hkey : key = .atom id := by simpa using find?_some hfind
        have hmem := mem_of_find?_eq_some hfind
        rw [hkey] at hmem
        refine ⟨_, .virtual hmem (virtualOrdinal_of_mem hmem ?_)⟩
        intro found hf
        rw [hlook] at hf
        rw [← Option.some.inj hf]
        exact horigin
      next hlat =>
        refine ⟨_, .string hlist ⟨⟨id, rfl⟩, hi, hpres, ?_⟩⟩
        rintro ⟨horigin, ordinal, hmem⟩
        exact hlat ordinal _ horigin (find_virtualKeys hmem)
  | symbol id => exact ⟨_, .symbol hlist rfl⟩
  | «private» id => cases hpub

theorem index_fits {length : Nat} (hlt : i < length) (hfits : length < 2 ^ 32) :
    i ≤ maxArrayIndex := by
  simp only [maxArrayIndex]
  omega

theorem mem_denseIndices_lt {elements : List Value} {fits : elements.length ≤ 2 ^ 20}
    (hmem : i ∈ (array elements fits).denseIndices) : i ≤ maxArrayIndex := by
  have hrange := mem_range.mp (mem_filter.mp hmem).1
  simp only [maxArrayIndex]
  omega

variable {ranked : RankedPropertyKey}

theorem classify_exotic (hmem : ranked ∈ chron.heap.exoticKeys atoms obj receiver) :
    ∃ c, chron.Classified atoms obj receiver ranked c := by
  simp only [exoticKeys, mem_append] at hmem
  rcases hmem with ((hvirtual | hwrapper) | htyped) | hd
  · obtain ⟨⟨ordinal, key⟩, he, rfl⟩ := mem_map.mp hvirtual
    obtain ⟨hlist, hab⟩ := mem_filter.mp he
    refine ⟨_, .virtual hlist (virtualOrdinal_of_mem hlist ?_)⟩
    intro prop hlook
    rw [Option.isNone_iff_eq_none.mp hab] at hlook
    cases hlook
  · cases receiver with
    | stringWrapper length fits =>
      rcases mem_append.mp hwrapper with hix | hlen
      · obtain ⟨i, hi, rfl⟩ := mem_map.mp hix
        exact ⟨_, .index (index_fits (mem_range.mp hi) fits)⟩
      · obtain rfl := mem_singleton.mp hlen
        exact ⟨_, .wrapperLength (by simp [stringLength])⟩
    | _ => cases hwrapper
  · cases receiver with
    | typedArray length fits =>
      obtain ⟨i, hi, rfl⟩ := mem_map.mp htyped
      exact ⟨_, .index (index_fits (mem_range.mp hi) fits)⟩
    | _ => cases htyped
  · obtain ⟨i, hi, rfl⟩ := mem_map.mp hd
    cases receiver with
    | array elements fits => exact ⟨_, .index (mem_denseIndices_lt hi)⟩
    | _ => cases hi

/-! ## Ranks and places of the classes -/

variable {c : KeyClass}

theorem Classified.rank_eq (h : chron.Ordered denote)
    (hclass : chron.Classified atoms obj receiver ranked c) : ranked.rank = c.rank := by
  have hlen := listing_length_lt h obj
  cases hclass with
  | index fits => rfl
  | virtual listed first =>
    have hordinal := (virtualKeys_spec listed).1
    exact stringKeyRank_or (lt_trans hordinal (by decide))
  | wrapperLength wrapper => exact stringKeyRank_or (by decide)
  | @string order ent listed plain =>
    have hord := (List.getElem?_eq_some_iff.mp listed).1
    have hthree : virtualKeyCount ||| order = 4 * (order / 4) + 3 := or_three order
    simp only [KeyClass.rank]
    rw [Nat.or_assoc, hthree, stringKeyRank_or (by omega)]
  | @symbol order ent listed isSymbol =>
    have hord := (List.getElem?_eq_some_iff.mp listed).1
    exact symbolKeyRank_or (by omega)

theorem Classified.place_eq (h : chron.Ordered denote) (hsep : chron.Separate atoms obj receiver)
    (hclass : chron.Classified atoms obj receiver ranked c) :
    chron.place atoms obj receiver ranked.key = c.place := by
  cases hclass with
  | index fits => simp only [place, atoms.index_indexKey fits, KeyClass.place]
  | virtual listed first =>
    obtain ⟨-, hi, hstr, -⟩ := virtualKeys_spec listed
    simp only [place, hi, hstr, first]
    rfl
  | wrapperLength wrapper =>
    cases receiver with
    | stringWrapper length fits =>
      simp only [place, atoms.index_lengthAtom, virtualOrdinal]
      rfl
    | _ => exact absurd rfl wrapper
  | string listed plain =>
    have hordinal := virtualOrdinal_of_plain h hsep (mem_of_getElem? listed) plain
    obtain ⟨⟨atom, hatom⟩, hi, -⟩ := plain
    simp only [place, hi, hordinal]
    rw [hatom]
    rfl
  | @symbol order ent listed isSymbol =>
    have hi : atoms.index ent.key = none := by
      cases hkey : ent.key with
      | symbol id | «private» id => rfl
      | atom id => rw [hkey] at isSymbol; cases isSymbol
    simp only [place, hi, isSymbol]
    rfl

variable {e f : RankedPropertyKey}

section

variable (h : chron.Ordered denote)

include h

/-- Keys at one place are equal. -/
theorem Classified.key_eq {d : KeyClass} (he : chron.Classified atoms obj receiver e c)
    (hf : chron.Classified atoms obj receiver f d) (hplace : c.place = d.place) :
    e.key = f.key := by
  -- a class of one group never has the place of a class of another one
  cases he with
  | index fits =>
    cases hf with
    | index fits' => exact congrArg atoms.indexKey (Prod.mk.inj hplace).2
    | _ => exact absurd (Prod.mk.inj hplace).1 (by decide)
  | @virtual ordinal key prop listed first =>
    obtain ⟨hordinal, -, -, hwrapper⟩ := virtualKeys_spec listed
    cases hf with
    | @virtual other key' prop' listed' first' =>
      have hs : ordinal = other := (Prod.mk.inj hplace).2
      subst hs
      exact virtualKeys_unique listed listed'
    | wrapperLength wrapper => exact absurd hwrapper wrapper
    | string listed' plain =>
      have hs := (Prod.mk.inj hplace).2
      omega
    | _ => exact absurd (Prod.mk.inj hplace).1 (by decide)
  | wrapperLength wrapper =>
    cases hf with
    | virtual listed' first' => exact absurd (virtualKeys_spec listed').2.2.2 wrapper
    | wrapperLength wrapper' => rfl
    | string listed' plain =>
      have hs := (Prod.mk.inj hplace).2
      simp only [virtualKeyCount] at hs
      omega
    | _ => exact absurd (Prod.mk.inj hplace).1 (by decide)
  | string listed plain =>
    cases hf with
    | virtual listed' first' =>
      have hs := (Prod.mk.inj hplace).2
      have hordinal := (virtualKeys_spec listed').1
      omega
    | wrapperLength wrapper =>
      have hs := (Prod.mk.inj hplace).2
      simp only [virtualKeyCount] at hs
      omega
    | string listed' plain' =>
      have hs := add_left_cancel (Prod.mk.inj hplace).2
      exact key_eq_of_created_eq h listed listed' (plain.isSymbol_eq.trans plain'.isSymbol_eq.symm)
        hs
    | _ => exact absurd (Prod.mk.inj hplace).1 (by decide)
  | symbol listed isSymbol =>
    cases hf with
    | symbol listed' isSymbol' =>
      exact key_eq_of_created_eq h listed listed' (isSymbol.trans isSymbol'.symm)
        (Prod.mk.inj hplace).2
    | _ => exact absurd (Prod.mk.inj hplace).1 (by decide)

/-- The ranks ascend with the places if no two later strings share a rank. -/
theorem Classified.rank_lt (hapart : chron.RanksApart atoms obj receiver) {d : KeyClass}
    (he : chron.Classified atoms obj receiver e c) (hf : chron.Classified atoms obj receiver f d)
    (hplace : Prod.Lex (· < ·) (· < ·) c.place d.place) : c.rank < d.rank := by
  have hlen := listing_length_lt h obj
  rw [Prod.lex_def] at hplace
  cases he with
  | index fits =>
    have hlow : maxArrayIndex < 2 ^ 32 := by decide
    cases hf with
    | index fits' => simpa [KeyClass.place, KeyClass.rank] using hplace
    | _ => simp only [KeyClass.rank]; omega
  | virtual listed first =>
    obtain ⟨hordinal, -, -, hwrapper⟩ := virtualKeys_spec listed
    simp only [virtualKeyCount] at hordinal
    cases hf with
    | index fits' => simp [KeyClass.place] at hplace
    | virtual listed' first' => simpa [KeyClass.place, KeyClass.rank] using hplace
    | wrapperLength wrapper => exact absurd hwrapper wrapper
    | _ => simp only [KeyClass.rank]; omega
  | wrapperLength wrapper =>
    cases hf with
    | index fits' | wrapperLength wrapper' => simp [KeyClass.place] at hplace
    | virtual listed' first' => exact absurd (virtualKeys_spec listed').2.2.2 wrapper
    | string listed' plain' =>
      exact absurd plain' (hapart.wrapper wrapper _ (mem_of_getElem? listed'))
    | symbol listed' isSymbol' => simp only [KeyClass.rank]; omega
  | @string order ent listed plain =>
    have hord := (List.getElem?_eq_some_iff.mp listed).1
    cases hf with
    | index fits' | wrapperLength wrapper => simp [KeyClass.place] at hplace
    | virtual listed' first' =>
      have hordinal := (virtualKeys_spec listed').1
      simp [KeyClass.place] at hplace
      omega
    | @string order' ent' listed' plain' =>
      have hcreated : chron.created obj ent.key < chron.created obj ent'.key := by
        simpa [KeyClass.place] using hplace
      have hlt := order_lt_of_created_lt h listed listed'
        (plain.isSymbol_eq.trans plain'.isSymbol_eq.symm) hcreated
      have hblock := hapart.blocks _ _ _ _ listed listed' plain plain' (ne_of_lt hlt)
      simp only [KeyClass.rank]
      omega
    | symbol listed' isSymbol' => simp only [KeyClass.rank]; omega
  | symbol listed isSymbol =>
    cases hf with
    | symbol listed' isSymbol' =>
      have hlt := order_lt_of_created_lt h listed listed' (isSymbol.trans isSymbol'.symm)
        (by simpa [KeyClass.place] using hplace)
      exact Nat.add_lt_add_left hlt _
    | _ => simp [KeyClass.place] at hplace

/-! ## Each key once -/

omit h in
theorem mem_keys_exoticKeys_iff (key : PropertyKey) :
    key ∈ (chron.heap.exoticKeys atoms obj receiver).map RankedPropertyKey.key ↔
      ((∃ ordinal, (ordinal, key) ∈ receiver.virtualKeys atoms) ∧
        chron.heap.shapes.lookup (chron.heap.objects obj).shape key = none) ∨
        receiver.OwnsExotic atoms key := by
  cases receiver with
  | ordinary =>
    simp [exoticKeys, virtualKeys, stringLength,
      typedArrayLength, denseIndices, Receiver.OwnsExotic]
  | function hasPrototype =>
    simp [exoticKeys, stringLength, typedArrayLength, denseIndices, Receiver.OwnsExotic]
  | stringWrapper length fits =>
    simp [exoticKeys, virtualKeys, stringLength,
      typedArrayLength, denseIndices, Receiver.OwnsExotic, or_comm, eq_comm]
  | typedArray length fits =>
    simp [exoticKeys, virtualKeys, stringLength,
      typedArrayLength, denseIndices, Receiver.OwnsExotic, eq_comm]
  | array elements fits =>
    simp [exoticKeys, virtualKeys, stringLength, typedArrayLength, Receiver.OwnsExotic, eq_comm]

omit h in
theorem nodup_map_indexKey {indices : List Nat} (hfits : ∀ i ∈ indices, i ≤ maxArrayIndex)
    (hnodup : indices.Nodup) : (indices.map atoms.indexKey).Nodup := by
  apply hnodup.map_on
  intro i hi j hj heq
  have hix := congrArg atoms.index heq
  rw [atoms.index_indexKey (hfits i hi), atoms.index_indexKey (hfits j hj)] at hix
  exact Option.some.inj hix

omit h in
theorem nodup_keys_exoticKeys :
    ((chron.heap.exoticKeys atoms obj receiver).map RankedPropertyKey.key).Nodup := by
  cases receiver with
  | ordinary => exact nodup_nil
  | function hasPrototype =>
    have hall : (((function hasPrototype).virtualKeys atoms).map Prod.snd).Nodup := by
      apply List.Nodup.map_on
      · rintro ⟨o, key⟩ hleft ⟨o', key'⟩ hright heq
        obtain rfl : key = key' := heq
        have hs := (find_virtualKeys hleft).symm.trans (find_virtualKeys hright)
        exact Option.some.inj hs
      · cases hasPrototype <;> simp [virtualKeys]
    have hsub := (filter_sublist (l := (function hasPrototype).virtualKeys atoms)
      (p := fun ent => (chron.heap.shapes.lookup
        (chron.heap.objects obj).shape ent.2).isNone)).map Prod.snd
    simpa [exoticKeys, stringLength, typedArrayLength,
      denseIndices, Function.comp_def] using hall.sublist hsub
  | stringWrapper length fits =>
    have hidx : ((range length).map atoms.indexKey).Nodup := by
      refine nodup_map_indexKey ?_ nodup_range
      intro i hi
      exact index_fits (mem_range.mp hi) fits
    have hlen : ∀ i, i < length → atoms.indexKey i ≠ .atom atoms.lengthAtom := by
      intro i hi heq
      have hix := atoms.index_indexKey (index_fits hi fits)
      rw [heq, atoms.index_lengthAtom] at hix
      cases hix
    have hboth := hidx.append (nodup_singleton (PropertyKey.atom atoms.lengthAtom)) (by
        intro key hkey hl
        obtain ⟨i, hi, rfl⟩ := mem_map.mp hkey
        exact hlen i (mem_range.mp hi) (mem_singleton.mp hl))
    simpa [exoticKeys, virtualKeys, stringLength,
      typedArrayLength, denseIndices, Function.comp_def] using hboth
  | typedArray length fits =>
    have hidx : ((range length).map atoms.indexKey).Nodup := by
      refine nodup_map_indexKey ?_ nodup_range
      intro i hi
      exact index_fits (mem_range.mp hi) fits
    simpa [exoticKeys, virtualKeys, stringLength,
      typedArrayLength, denseIndices, Function.comp_def] using hidx
  | array elements fits =>
    have hidx : ((array elements fits).denseIndices.map atoms.indexKey).Nodup := by
      refine nodup_map_indexKey (fun i hi => mem_denseIndices_lt hi) ?_
      exact nodup_range.sublist filter_sublist
    simpa [exoticKeys, virtualKeys, stringLength, typedArrayLength, Function.comp_def] using hidx

theorem nodup_keys_structuralKeys : ((chron.heap.structuralKeys atoms obj receiver
      (chron.heap.listing obj)).map RankedPropertyKey.key).Nodup := by
  have hlisting : ((chron.heap.listing obj).map OwnPropertyEntry.key).Nodup := by
    rw [listing_eq h]
    exact Layout.nodup_publicEntries (h.stores.encodes.nodup (h.stores.known obj))
  have hsub : ((chron.heap.structuralKeys atoms obj receiver
      (chron.heap.listing obj)).map RankedPropertyKey.key).Sublist
      ((chron.heap.listing obj).map OwnPropertyEntry.key) := by
    have hfilter := (filter_sublist (l := (chron.heap.listing obj).zipIdx)
      (p := fun pair => chron.heap.propertyIsPresent obj pair.1.property)).map
        fun pair => pair.1.key
    have hall : (chron.heap.listing obj).zipIdx.map (fun pair => pair.1.key) =
        (chron.heap.listing obj).map OwnPropertyEntry.key := by
      conv_rhs => rw [← zipIdx_map_fst 0 (chron.heap.listing obj), map_map]
      rfl
    rw [hall] at hfilter
    simpa [structuralKeys, Function.comp_def] using hfilter
  exact hlisting.sublist hsub

omit h in
theorem OwnsExotic_isPrivate (h : receiver.OwnsExotic atoms key) : key.isPrivate = false := by
  cases receiver with
  | ordinary | function hasPrototype => cases h
  | stringWrapper length fits =>
    rcases h with rfl | ⟨i, -, rfl⟩
    · rfl
    · rfl
  | typedArray length fits | array elements fits =>
    obtain ⟨i, -, rfl⟩ := h
    rfl

/-- No key is ranked twice exactly if no exotic key is also in the shape. -/
theorem nodup_keys_iff : ((chron.heap.exoticKeys atoms obj receiver ++
        chron.heap.structuralKeys atoms obj receiver
          (chron.heap.listing obj)).map RankedPropertyKey.key).Nodup ↔
      chron.Separate atoms obj receiver := by
  rw [map_append, nodup_append']
  constructor
  · rintro ⟨-, -, hdisjoint⟩ key hex prop hlook
    by_contra hpres
    rw [Bool.not_eq_false] at hpres
    refine hdisjoint ((mem_keys_exoticKeys_iff key).mpr (.inr hex)) ?_
    exact (mem_keys_structuralKeys_iff h key).mpr ⟨OwnsExotic_isPrivate hex, prop, hlook, hpres⟩
  · intro hsep
    refine ⟨nodup_keys_exoticKeys, nodup_keys_structuralKeys h, ?_⟩
    intro key hex hstructural
    obtain ⟨-, prop, hlook, hpres⟩ := (mem_keys_structuralKeys_iff h key).mp hstructural
    rcases (mem_keys_exoticKeys_iff key).mp hex with ⟨-, hab⟩ | hex
    · rw [hlook] at hab
      cases hab
    · rw [hsep key hex prop hlook] at hpres
      cases hpres

/-! ## Sorting -/

/-- The ranked keys of an object. -/
def ranking (chron : Chronicle) (atoms : AtomTable) (obj : Nat) (receiver : Receiver) :
    List RankedPropertyKey :=
  chron.heap.exoticKeys atoms obj receiver ++
    chron.heap.structuralKeys atoms obj receiver (chron.heap.listing obj)

theorem mem_keys_ranking_iff (key : PropertyKey) :
    key ∈ (chron.ranking atoms obj receiver).map RankedPropertyKey.key ↔
      chron.HasOwnKey atoms obj receiver key := by
  rw [ranking, map_append, mem_append, mem_keys_exoticKeys_iff,
    mem_keys_structuralKeys_iff h, or_assoc]
  exact Iff.rfl

theorem classify (hmem : ranked ∈ chron.ranking atoms obj receiver) :
    ∃ c, chron.Classified atoms obj receiver ranked c := by
  rcases mem_append.mp hmem with hex | hstructural
  · exact classify_exotic hex
  · obtain ⟨order, ent, hlist, hpres, rfl⟩ := (mem_structuralKeys_iff _ _).mp hstructural
    exact classify_structural h hlist hpres

section

variable (hsep : chron.Separate atoms obj receiver)

include hsep

/-- Two different keys are at different places. -/
theorem lex_or_lex (he : e ∈ chron.ranking atoms obj receiver)
    (hf : f ∈ chron.ranking atoms obj receiver) (hne : e.key ≠ f.key) :
    chron.Before atoms obj receiver e.key f.key ∨ chron.Before atoms obj receiver f.key e.key := by
  obtain ⟨c, hc⟩ := classify h he
  obtain ⟨d, hd⟩ := classify h hf
  simp only [Before]
  rw [hc.place_eq h hsep, hd.place_eq h hsep]
  have hplaces : c.place ≠ d.place := fun heq => hne (hc.key_eq h hd heq)
  rcases trichotomous_of (Prod.Lex (· < ·) (· < ·)) c.place d.place with hlt | heq | hgt
  · exact .inl hlt
  · exact absurd heq hplaces
  · exact .inr hgt

/-- The rank says which of two keys stands first. -/
theorem rank_lt_of_before (hapart : chron.RanksApart atoms obj receiver)
    (he : e ∈ chron.ranking atoms obj receiver) (hf : f ∈ chron.ranking atoms obj receiver)
    (hb : chron.Before atoms obj receiver e.key f.key) : e.rank < f.rank := by
  obtain ⟨c, hc⟩ := classify h he
  obtain ⟨d, hd⟩ := classify h hf
  simp only [Before] at hb
  rw [hc.place_eq h hsep, hd.place_eq h hsep] at hb
  rw [hc.rank_eq h, hd.rank_eq h]
  exact hc.rank_lt h hapart hd hb

theorem rank_ne (hapart : chron.RanksApart atoms obj receiver)
    (he : e ∈ chron.ranking atoms obj receiver)
    (hf : f ∈ chron.ranking atoms obj receiver) (hne : e.key ≠ f.key) : e.rank ≠ f.rank := by
  rcases lex_or_lex h hsep he hf hne with hb | hb
  · exact ne_of_lt (rank_lt_of_before h hsep hapart he hf hb)
  · exact ne_of_gt (rank_lt_of_before h hsep hapart hf he hb)

end

end

variable {sorted : List RankedPropertyKey}

/-- Whatever the sort does, it yields the specified order if ranks are apart. -/
theorem specified_of_sortsTo (h : chron.Ordered denote) (hsep : chron.Separate atoms obj receiver)
    (hapart : chron.RanksApart atoms obj receiver)
    (hsorts : SortsTo (chron.ranking atoms obj receiver) sorted) :
    chron.Specified atoms obj receiver sorted := by
  obtain ⟨hperm, hranks⟩ := hsorts
  have hnodup : (sorted.map RankedPropertyKey.key).Nodup :=
    (hperm.map _).nodup_iff.mpr ((nodup_keys_iff h).mpr hsep)
  refine ⟨?_, ?_⟩
  · rw [pairwise_map]
    have hdist : sorted.Pairwise fun e f => e.key ≠ f.key := pairwise_map.mp hnodup
    apply (hranks.and hdist).imp_of_mem
    rintro e f he hf ⟨hle, hne⟩
    have he' := hperm.mem_iff.mp he
    have hf' := hperm.mem_iff.mp hf
    rcases lex_or_lex h hsep he' hf' hne with hb | hb
    · exact hb
    · exact absurd (rank_lt_of_before h hsep hapart hf' he' hb) (not_lt.mpr hle)
  · intro key
    rw [(hperm.map RankedPropertyKey.key).mem_iff]
    exact mem_keys_ranking_iff h key

theorem nodup_ranks (h : chron.Ordered denote) (hsep : chron.Separate atoms obj receiver)
    (hapart : chron.RanksApart atoms obj receiver) :
    ((chron.ranking atoms obj receiver).map RankedPropertyKey.rank).Nodup := by
  have hnodup : ((chron.ranking atoms obj receiver).map RankedPropertyKey.key).Nodup :=
    (nodup_keys_iff h).mpr hsep
  rw [List.Nodup, pairwise_map] at hnodup ⊢
  apply hnodup.imp_of_mem
  intro e f he hf hne
  exact rank_ne h hsep hapart he hf hne

/-! ## Sorts that go wrong -/

/-- Of two members of a list one stands before the other. -/
theorem pairwise_mem {α : Type} {R : α → α → Prop} {items : List α} (h : items.Pairwise R) {a b : α}
    (ha : a ∈ items) (hb : b ∈ items) (hne : a ≠ b) : R a b ∨ R b a := by
  have hsymm : Std.Symm fun x y => R x y ∨ R y x := ⟨fun _ _ hxy => hxy.symm⟩
  have heither : items.Pairwise fun x y => R x y ∨ R y x := h.imp Or.inl
  exact heither.forall ha hb hne

/-- A stable sort by the ranks. -/
def stableSort (ranked : List RankedPropertyKey) : List RankedPropertyKey :=
  ranked.mergeSort fun left right => decide (left.rank ≤ right.rank)

theorem rankLe_trans (a b c : RankedPropertyKey) (hab : decide (a.rank ≤ b.rank) = true)
    (hbc : decide (b.rank ≤ c.rank) = true) : decide (a.rank ≤ c.rank) = true :=
  decide_eq_true (le_trans (of_decide_eq_true hab) (of_decide_eq_true hbc))

theorem rankLe_total (a b : RankedPropertyKey) :
    (decide (a.rank ≤ b.rank) || decide (b.rank ≤ a.rank)) = true := by
  rw [Bool.or_eq_true, decide_eq_true_iff, decide_eq_true_iff]
  exact le_total _ _

theorem sortsTo_stableSort {ranked ranked' : List RankedPropertyKey} (hperm : ranked'.Perm ranked) :
    SortsTo ranked (stableSort ranked') := by
  refine ⟨(mergeSort_perm _ _).trans hperm, ?_⟩
  apply (pairwise_mergeSort rankLe_trans rankLe_total ranked').imp
  intro a b hab
  exact of_decide_eq_true hab

/-- Keys of equal ranks come out in either order. -/
theorem exists_sorted_reversed {ranked : List RankedPropertyKey} (he : e ∈ ranked) (hf : f ∈ ranked)
    (hne : e ≠ f) (hrank : e.rank = f.rank) :
    ∃ sorted, SortsTo ranked sorted ∧ [f, e].Sublist sorted := by
  have hmem : e ∈ ranked.erase f := (mem_erase_of_ne hne).mpr he
  have hperm : (f :: e :: (ranked.erase f).erase e).Perm ranked :=
    ((perm_cons_erase hmem).symm.cons f).trans (perm_cons_erase hf).symm
  refine ⟨_, sortsTo_stableSort hperm, ?_⟩
  apply pair_sublist_mergeSort rankLe_trans rankLe_total
  · exact decide_eq_true (le_of_eq hrank.symm)
  · exact ((nil_sublist _).cons_cons e).cons_cons f

theorem mem_ranking_of_plain {order : Nat} (hlist : (chron.heap.listing obj)[order]? = some ent)
    (hplain : chron.Plain atoms obj receiver ent) :
    (⟨ent.key, some ent.property, stringKeyRank ||| virtualKeyCount ||| order⟩ :
      RankedPropertyKey) ∈ chron.ranking atoms obj receiver := by
  obtain ⟨⟨id, hid⟩, hi, hpres, hlat⟩ := hplain
  apply mem_append_right
  refine (mem_structuralKeys_iff _ _).mpr ⟨order, ent, hlist, hpres, ?_⟩
  rw [hid] at hi hlat ⊢
  simp only [propertyKeyRank, hi]
  split
  next ordinal key horigin hfind =>
    have hkey : key = .atom id := by simpa using find?_some hfind
    have hmem := mem_of_find?_eq_some hfind
    rw [hkey] at hmem
    exact absurd ⟨horigin, ordinal, hmem⟩ hlat
  · rfl

/-- A specified order has no key twice, so no exotic key is in the shape. -/
theorem separate_of_specified (h : chron.Ordered denote)
    (hsorts : SortsTo (chron.ranking atoms obj receiver) sorted)
    (hspecified : chron.Specified atoms obj receiver sorted) :
    chron.Separate atoms obj receiver := by
  apply (nodup_keys_iff h).mp
  apply (hsorts.1.map RankedPropertyKey.key).nodup_iff.mp
  apply hspecified.1.imp
  intro left right hb heq
  rw [heq, Before] at hb
  omega

/-- The keys of two strings of one block can come out in the wrong order. -/
theorem blocks_of_specified (h : chron.Ordered denote) (hsep : chron.Separate atoms obj receiver)
    (hall : ∀ sorted, SortsTo (chron.ranking atoms obj receiver) sorted →
      chron.Specified atoms obj receiver sorted) (hleft : (chron.heap.listing obj)[i]? = some left)
    (hright : (chron.heap.listing obj)[j]? = some right)
    (hplain : chron.Plain atoms obj receiver left)
    (hplain' : chron.Plain atoms obj receiver right) (hlt : i < j) : i / 4 ≠ j / 4 := by
  intro hblock
  have hcreated := created_lt h hleft hright hlt (hplain.isSymbol_eq.trans hplain'.isSymbol_eq.symm)
  have hfirst := Classified.string hleft hplain
  have hsec := Classified.string hright hplain'
  have hrank : stringKeyRank ||| virtualKeyCount ||| i = stringKeyRank ||| virtualKeyCount
      ||| j := by
    have hranks : (KeyClass.string i (chron.created obj left.key)).rank =
        (KeyClass.string j (chron.created obj right.key)).rank := by
      simp only [KeyClass.rank, hblock]
    rw [← hfirst.rank_eq h, ← hsec.rank_eq h] at hranks
    exact hranks
  obtain ⟨sorted, hsorts, hreversed⟩ := exists_sorted_reversed
    (mem_ranking_of_plain hleft hplain) (mem_ranking_of_plain hright hplain')
    (by
      intro heq
      have hkeys : left.key = right.key := congrArg RankedPropertyKey.key heq
      rw [hkeys] at hcreated
      exact lt_irrefl _ hcreated) hrank
  have hpair := (hall sorted hsorts).1.sublist (hreversed.map RankedPropertyKey.key)
  have hb := (pairwise_cons.mp hpair).1 left.key (mem_singleton_self _)
  simp only [Before] at hb
  rw [hsec.place_eq h hsep, hfirst.place_eq h hsep] at hb
  simp only [KeyClass.place] at hb
  omega

/-- A string of a String wrapper comes out before its length. -/
theorem wrapper_of_specified (h : chron.Ordered denote) (hsep : chron.Separate atoms obj receiver)
    (hsorts : SortsTo (chron.ranking atoms obj receiver) sorted)
    (hspecified : chron.Specified atoms obj receiver sorted)
    (hwrapper : receiver.stringLength ≠ none) (hlist : ent ∈ chron.heap.listing obj) :
    ¬ chron.Plain atoms obj receiver ent := by
  intro hplain
  cases receiver with
  | stringWrapper length fits =>
    obtain ⟨order, hord⟩ := getElem?_of_mem hlist
    have hlen := listing_length_lt h obj
    have hsm := (List.getElem?_eq_some_iff.mp hord).1
    have hstr := Classified.string hord hplain
    have hown : chron.Classified atoms obj (.stringWrapper length fits)
      ⟨.atom atoms.lengthAtom, none, stringKeyRank ||| 1 <<< 32⟩ .wrapperLength :=
      .wrapperLength hwrapper
    have hlt := lt_of_le_of_lt (le_of_eq (hstr.rank_eq h)) (lt_of_lt_of_le (by
        simp only [KeyClass.rank]
        omega) (le_of_eq (hown.rank_eq h).symm))
    -- in the sorted list one of the two stands first, and the places decide which
    have hboth := hsorts.2.and (pairwise_map.mp hspecified.1)
    obtain ⟨pre, hb⟩ | ⟨pre, hb⟩ := pairwise_mem hboth
      (hsorts.1.mem_iff.mpr (mem_ranking_of_plain hord hplain))
      (hsorts.1.mem_iff.mpr (by simp [ranking, exoticKeys, stringLength] :
        ⟨.atom atoms.lengthAtom, none, stringKeyRank ||| 1 <<< 32⟩ ∈ _))
      (by
        intro heq
        rw [heq] at hlt
        exact lt_irrefl _ hlt)
    · simp only [Before] at hb
      rw [hstr.place_eq h hsep, hown.place_eq h hsep] at hb
      simp only [KeyClass.place] at hb
      omega
    · exact absurd hlt (not_lt.mpr pre)
  | _ => exact hwrapper rfl

/-! ## The ranks decide -/

/-- After every history a listing of the own keys that gets its memory is in the specified order,
whatever the sort does with equal ranks, exactly if no exotic key is in the shape too and no two
later strings share a rank. -/
theorem ownKeys_specified_iff {shapes : ShapeTable} {limit : Nat}
    {forShapes forTransitions : Allocator}
    (hnew : ShapeTable.new limit forShapes forTransitions = .ok shapes)
    {prototype : Nat → Value} {alloc : Allocator} {chron : Chronicle}
    (hrun : Relation.ReflTransGen Step (start (.start shapes prototype alloc)) chron)
    (atoms : AtomTable) (obj : Nat) (receiver : Receiver) {ranked : List RankedPropertyKey}
    {heap' : PropertyHeap}
    (hcall : chron.heap.rankedOwnPropertyKeys atoms obj receiver = (.ok ranked, heap')) :
    ((ranked.map RankedPropertyKey.rank).Nodup ∧
        ∀ sorted, SortsTo ranked sorted → chron.Specified atoms obj receiver sorted) ↔
      chron.Separate atoms obj receiver ∧ chron.RanksApart atoms obj receiver := by
  obtain ⟨denote, h⟩ := ordered_run hnew hrun
  obtain rfl : ranked = chron.ranking atoms obj receiver := rankedOwnPropertyKeys_eq h hcall
  constructor
  · rintro ⟨-, hall⟩
    have hsorts := sortsTo_stableSort (List.Perm.refl (chron.ranking atoms obj receiver))
    have hsep := separate_of_specified h hsorts (hall _ hsorts)
    refine ⟨hsep, ?_, ?_⟩
    · intro i j left right hleft hright hplain hplain' hne
      rcases lt_or_gt_of_ne hne with hlt | hgt
      · exact blocks_of_specified h hsep hall hleft hright hplain hplain' hlt
      · exact (blocks_of_specified h hsep hall hright hleft hplain' hplain hgt).symm
    · intro hwrapper ent hlist
      exact wrapper_of_specified h hsep hsorts (hall _ hsorts) hwrapper hlist
  · rintro ⟨hsep, hapart⟩
    refine ⟨nodup_ranks h hsep hapart, ?_⟩
    intro sorted hsorts
    exact specified_of_sortsTo h hsep hapart hsorts

/-- The property named `a`. -/
def sampleLetter : PropertyRecord := ⟨.atom 4, .data, .defaultData⟩

/-- The property named `aa`. -/
def sampleLetters : PropertyRecord := ⟨.atom 6, .data, .defaultData⟩

/-- The first object of the sample heap gets `a` and then another property. -/
def sampleHistory (second : PropertyRecord) : Chronicle :=
  ((start PropertyHeap.sampleHeap).added 0 sampleLetter (.fromI32 1)).added 0 second (.fromI32 2)

theorem run_sampleHistory {second : PropertyRecord} (hsec : ((start sampleHeap).added 0 sampleLetter
      (.fromI32 1)).heap.shapes.lookup 1 second.key = none) :
    Relation.ReflTransGen Step (start sampleHeap) (sampleHistory second) :=
  .tail (.tail .refl (.add 0 sampleLetter (.fromI32 1) rfl)) (.add 0 second (.fromI32 2) hsec)

/-- A string and a symbol. -/
theorem ownKeys_specified_letterSymbol :
    let chron := sampleHistory ShapeSystem.sampleSymbol
    ∃ ranked heap', chron.heap.rankedOwnPropertyKeys .sample 0 .ordinary = (.ok ranked, heap') ∧
      ranked.map RankedPropertyKey.key = [sampleLetter.key, ShapeSystem.sampleSymbol.key] ∧
      ∀ sorted, SortsTo ranked sorted → chron.Specified .sample 0 .ordinary sorted := by
  intro chron
  refine ⟨_, _, rfl, rfl, ?_⟩
  refine ((ownKeys_specified_iff (show ShapeTable.new 8 .granting .granting =
    .ok ShapeSystem.sampleTable from rfl) (run_sampleHistory rfl) .sample 0 .ordinary rfl).mpr
      ⟨?_, ?_, ?_⟩).2
  · rintro key ⟨⟩
  · intro i j left right hleft hright hplain hplain' hne
    have hfirst : ∀ k ent, (chron.heap.listing 0)[k]? = some ent →
        chron.Plain .sample 0 .ordinary ent → k = 0 := by
      rintro k ent he ⟨⟨atom, hatom⟩, -⟩
      match k with
      | 0 => rfl
      | 1 =>
        rw [← Option.some.inj he] at hatom
        cases hatom
      | k + 2 => cases he
    exact absurd ((hfirst i left hleft hplain).trans (hfirst j right hright hplain').symm) hne
  · intro hwrapper
    exact absurd rfl hwrapper

/-- Two strings of one rank: `aa` was created later and may come out first. -/
theorem ownKeys_not_in_creation_order :
    let chron := sampleHistory sampleLetters
    Relation.ReflTransGen Step (start PropertyHeap.sampleHeap) chron ∧
      ∃ ranked heap' sorted,
        chron.heap.rankedOwnPropertyKeys .sample 0 .ordinary = (.ok ranked, heap') ∧
        ¬ (ranked.map RankedPropertyKey.rank).Nodup ∧ SortsTo ranked sorted ∧
        ¬ chron.Specified .sample 0 .ordinary sorted := by
  let first : RankedPropertyKey := ⟨.atom 4, some ⟨0, .data, .defaultData⟩, 2 ^ 62 + 3⟩
  let second : RankedPropertyKey := ⟨.atom 6, some ⟨1, .data, .defaultData⟩, 2 ^ 62 + 3⟩
  refine ⟨run_sampleHistory rfl, [first, second], _, [second, first], rfl, ?_, ?_, ?_⟩
  · decide
  · exact ⟨List.Perm.swap _ _ _, by decide⟩
  · rintro ⟨hb, -⟩
    have hpair := (pairwise_cons.mp hb).1 _ (mem_singleton_self _)
    rw [Before] at hpair
    exact absurd hpair (by decide)

end Chronicle

end TachyonEngine.Vm
