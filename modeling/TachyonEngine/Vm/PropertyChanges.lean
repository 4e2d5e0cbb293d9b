import TachyonEngine.Vm.DenseElements

/-!
# Changes of an object

Every operation on properties is a sequence of a few changes, each under the guard that the source
checks before it: a property is added, redefined or removed, the dense elements change, or an index
moves from the dense elements to the list of properties. `Change` lists them. What holds of every
change holds of every operation.
-/

namespace TachyonEngine.Vm

open Lib List

namespace PropertyObject

variable {host : PropertyHost} {obj post : PropertyObject} {key : PropertyKey}

/-! ## Where a property is -/

/-- The dense element at an index. -/
def denseAt (obj : PropertyObject) (index : Nat) : Option Value :=
  obj.elements.bind fun elements => elements.value index

theorem denseArrayValue_eq (host : PropertyHost) (obj : PropertyObject) (key : PropertyKey) :
    obj.denseArrayValue host key = (host.arrayPropertyIndex key).bind obj.denseAt := rfl

/-- The property of a key, dense or in the list. -/
def ownProperty (host : PropertyHost) (obj : PropertyObject) (key : PropertyKey) :
    Option OwnProperty :=
  match obj.denseArrayValue host key with
  | some value => some ⟨key, .defaultData, .data value⟩
  | none => (obj.lookup key).filter fun property => property.stored.isSome

section

variable (obj : PropertyObject)

section

variable (properties : List OwnProperty)

@[simp]
theorem withProperties_properties :
    (obj.withProperties properties).properties = properties := rfl

@[simp]
theorem denseAt_withProperties :
    (obj.withProperties properties).denseAt = obj.denseAt := rfl

@[simp]
theorem denseArrayValue_withProperties (key : PropertyKey) :
    (obj.withProperties properties).denseArrayValue host key = obj.denseArrayValue host key :=
  rfl

end

section

variable (elements : ArrayElements)

@[simp]
theorem lookup_withElements (key : PropertyKey) :
    (obj.withElements elements).lookup key = obj.lookup key := rfl

theorem denseArrayValue_withElements (key : PropertyKey) :
    (obj.withElements elements).denseArrayValue host key =
      (host.arrayPropertyIndex key).bind elements.value := rfl

end

end

/-! ## The list of properties -/

variable {prop : OwnProperty}

theorem lookup_eq_some (h : obj.lookup key = some prop) :
    prop ∈ obj.properties ∧ prop.key = key := by
  refine ⟨mem_of_find?_eq_some h, ?_⟩
  have hkey := find?_some h
  simpa only [decide_eq_true_eq] using hkey

theorem lookup_eq_none : obj.lookup key = none ↔ ∀ prop ∈ obj.properties, prop.key ≠ key := by
  simp only [lookup, find?_eq_none, decide_eq_true_eq]

/-- Without duplicates a property is found under its key. -/
theorem lookup_of_mem (hnodup : (obj.properties.map OwnProperty.key).Nodup) (hm : prop ∈
    obj.properties) : obj.lookup prop.key = some prop := by
  cases hf : obj.lookup prop.key with
  | none => exact absurd rfl (lookup_eq_none.mp hf prop hm)
  | some found =>
    obtain ⟨hfoundMem, hkey⟩ := lookup_eq_some hf
    rw [inj_on_of_nodup_map hnodup hfoundMem hm hkey]

theorem lookup_append (hnew : obj.lookup prop.key = none) (key : PropertyKey) :
    (obj.withProperties (obj.properties ++ [prop])).lookup key =
      if key = prop.key then some prop else obj.lookup key := by
  simp only [lookup, withProperties_properties, find?_append, find?_singleton,
    decide_eq_true_eq]
  by_cases hkey : key = prop.key
  · subst hkey
    have hn : obj.properties.find? (fun old => old.key = prop.key) = none := hnew
    rw [hn]
    rfl
  · rw [if_neg (Ne.symm hkey), if_neg hkey, Option.or_none]

theorem keys_replaced (prop : OwnProperty) (properties : List OwnProperty) :
    (replaced prop properties).map OwnProperty.key = properties.map OwnProperty.key := by
  rw [replaced, map_map]
  apply map_congr_left
  intro old _
  simp only [Function.comp_apply]
  split_ifs with hkey
  · exact hkey.symm
  · rfl

theorem lookup_replaced {old : OwnProperty} (hf : obj.lookup prop.key = some old) (key :
    PropertyKey) :
    (obj.withProperties (replaced prop obj.properties)).lookup key =
      if key = prop.key then some prop else obj.lookup key := by
  -- the first property with a key stays the first one with it
  have hfind : ∀ properties : List OwnProperty,
      (replaced prop properties).find? (fun found => found.key = key) =
        if key = prop.key then
          (properties.find? fun found => found.key = key).map fun _ => prop
        else properties.find? fun found => found.key = key := by
    intro properties
    induction properties with
    | nil => simp only [replaced, map_nil, find?_nil, Option.map_none, ite_self]
    | cons first rest ih =>
      simp only [replaced, map_cons, find?_cons] at ih ⊢
      by_cases hfirst : first.key = prop.key
      · rw [if_pos hfirst]
        by_cases hkey : key = prop.key
        · rw [if_pos hkey, hkey, decide_eq_true rfl, decide_eq_true hfirst]
          rfl
        · rw [if_neg hkey, decide_eq_false (Ne.symm hkey), ih, if_neg hkey,
            decide_eq_false (hfirst ▸ Ne.symm hkey)]
      · rw [if_neg hfirst, ih]
        by_cases hkey : key = prop.key
        · subst hkey
          rw [if_pos rfl, if_pos rfl, decide_eq_false hfirst]
        · rw [if_neg hkey, if_neg hkey]
  simp only [lookup, withProperties_properties]
  rw [hfind]
  split_ifs with hkey
  · subst hkey
    have hf : obj.properties.find? (fun found => found.key = prop.key) = some old := hf
    rw [hf]
    rfl
  · rfl

variable {properties : List OwnProperty}

theorem mem_retained {removed : PropertyKey} :
    prop ∈ retained removed properties ↔
      prop ∈ properties ∧ prop.key ≠ removed ∧ prop.key.isPrivate = false := by
  simp only [retained, mem_append, mem_filter, Bool.and_eq_true, decide_eq_true_eq,
    Bool.not_eq_true']
  constructor
  · rintro (⟨hm, ⟨hkey, hpriv⟩, -⟩ | ⟨hm, ⟨hkey, hpriv⟩, -⟩)
    · exact ⟨hm, hkey, hpriv⟩
    · exact ⟨hm, hkey, hpriv⟩
  · rintro ⟨hm, hkey, hpriv⟩
    cases hsymbol : prop.key.isSymbol with
    | false => exact .inl ⟨hm, ⟨hkey, hpriv⟩, rfl⟩
    | true => exact .inr ⟨hm, ⟨hkey, hpriv⟩, rfl⟩

theorem nodup_retained (hnodup : (properties.map OwnProperty.key).Nodup) (removed : PropertyKey) :
    ((retained removed properties).map OwnProperty.key).Nodup := by
  have hsub : ∀ keep : OwnProperty → Bool,
      ((properties.filter keep).map OwnProperty.key).Nodup := fun keep =>
    (filter_sublist.map OwnProperty.key).nodup hnodup
  rw [retained, map_append, nodup_append]
  refine ⟨hsub _, hsub _, ?_⟩
  intro first hfirst second hsec heq
  subst heq
  obtain ⟨left, hl, rfl⟩ := mem_map.mp hfirst
  obtain ⟨right, hr, hkeys⟩ := mem_map.mp hsec
  simp only [mem_filter, Bool.and_eq_true, Bool.not_eq_true'] at hl hr
  rw [hkeys, hl.2.2] at hr
  exact absurd hr.2.2 Bool.false_ne_true

theorem lookup_retained (hnodup : (obj.properties.map OwnProperty.key).Nodup)
    (removed key : PropertyKey) :
    (obj.withProperties (retained removed obj.properties)).lookup key =
      if key = removed ∨ key.isPrivate = true then none else obj.lookup key := by
  split_ifs with hgone
  · rw [lookup_eq_none]
    rintro prop hm rfl
    obtain ⟨-, hkey, hpriv⟩ := mem_retained.mp hm
    rcases hgone with hgone | hgone
    · exact hkey hgone
    · rw [hpriv] at hgone
      cases hgone
  · rw [not_or, Bool.not_eq_true] at hgone
    cases hf : obj.lookup key with
    | none =>
      rw [lookup_eq_none]
      intro prop hm
      exact lookup_eq_none.mp hf prop (mem_retained.mp hm).1
    | some prop =>
      obtain ⟨hm, rfl⟩ := lookup_eq_some hf
      apply lookup_of_mem
      · exact nodup_retained hnodup removed
      · exact mem_retained.mpr ⟨hm, hgone⟩

/-! ## Well-formed objects -/

end PropertyObject

/-- What an accessor may call. -/
def PropertyHost.Callable (host : PropertyHost) (value : Value) : Prop :=
  value = .undefined ∨ host.cellOf value = some .function

/-- A property that is not a hole and whose accessor functions are functions. -/
def StoredProperty.Valid (host : PropertyHost) : StoredProperty → Prop
  | .data value => value ≠ PropertyStorage.hole
  | .accessor getter setter => host.Callable getter ∧ host.Callable setter

namespace PropertyObject

variable {host : PropertyHost} {obj post : PropertyObject} {key : PropertyKey}

/-- Keys are not repeated, an index is dense or in the list and not both, and nothing in the list is
a hole. -/
structure WellFormed (host : PropertyHost) (obj : PropertyObject) : Prop where
  nodup : (obj.properties.map OwnProperty.key).Nodup
  backed : ∀ elements, obj.elements = some elements → elements.Backed
  separate : ∀ key value, obj.denseArrayValue host key = some value → obj.lookup key = none
  valid : ∀ property ∈ obj.properties, property.payload.Valid host
  registers : ∀ count, obj.exotic = .arguments count →
    ∀ index, obj.registers index ≠ PropertyStorage.hole

variable {prop : OwnProperty}

theorem stored_eq (h : prop.payload.Valid host) : prop.stored = some prop.payload := by
  rw [OwnProperty.stored, if_neg]
  intro hhole
  rw [hhole] at h
  exact h rfl

namespace WellFormed

variable {prop : OwnProperty}

theorem stored_lookup (h : obj.WellFormed host) (hf : obj.lookup key = some prop) :
    prop.stored = some prop.payload :=
  stored_eq (h.valid prop (lookup_eq_some hf).1)

theorem ownProperty_of_dense {val : Value} (hd : obj.denseArrayValue host key = some val) :
    obj.ownProperty host key = some ⟨key, .defaultData, .data val⟩ := by
  rw [ownProperty, hd]

theorem ownProperty_of_none (h : obj.WellFormed host) (hd : obj.denseArrayValue host key = none) :
    obj.ownProperty host key = obj.lookup key := by
  rw [ownProperty, hd]
  cases hf : obj.lookup key with
  | none => rfl
  | some prop =>
    rw [Option.filter_some, h.stored_lookup hf]
    rfl

theorem ownProperty_of_lookup (h : obj.WellFormed host) (hf : obj.lookup key = some prop) :
    obj.ownProperty host key = some prop := by
  cases hd : obj.denseArrayValue host key with
  | none => rw [h.ownProperty_of_none hd, hf]
  | some val =>
    have hn := h.separate key val hd
    rw [hf] at hn
    cases hn

/-- An absent property is in neither place. -/
theorem absent_iff (h : obj.WellFormed host) : obj.ownProperty host key = none ↔
    obj.denseArrayValue host key = none ∧ obj.lookup key = none := by
  cases hd : obj.denseArrayValue host key with
  | none =>
    rw [h.ownProperty_of_none hd]
    exact ⟨fun hn => ⟨rfl, hn⟩, fun hn => hn.2⟩
  | some val =>
    rw [ownProperty_of_dense hd]
    constructor
    · intro hn
      cases hn
    · rintro ⟨hn, -⟩
      cases hn

end WellFormed

/-! ## Changes -/

/-- What a redefinition keeps of a property that is not configurable. -/
def SameContent (host : PropertyHost) (before post : OwnProperty) : Prop :=
  match before.payload, post.payload with
  | .data value, .data value' =>
    before.attributes.writable = false →
      post.attributes.writable = false ∧ host.sameValue value' value = true
  | .accessor getter setter, .accessor getter' setter' => getter' = getter ∧ setter' = setter
  | _, _ => False

/-- A property may follow another one. -/
structure Redefines (host : PropertyHost) (before post : OwnProperty) : Prop where
  key_eq : post.key = before.key
  valid : post.payload.Valid host
  kept : before.attributes.configurable = false → post.attributes.configurable = false ∧
    post.attributes.enumerable = before.attributes.enumerable ∧ SameContent host before post

/-- One publication, with the guard that the source checks. -/
inductive Change (host : PropertyHost) (obj : PropertyObject) : PropertyObject → Prop where
  | add (property : OwnProperty) (absent : obj.ownProperty host property.key = none)
      (extensible : obj.isExtensible = true) (valid : property.payload.Valid host) :
      Change host obj (obj.withProperties (obj.properties ++ [property]))
  | redefine (before post : OwnProperty) (found : obj.lookup before.key = some before)
      (redefines : Redefines host before post) :
      Change host obj (obj.withProperties (replaced post obj.properties))
  | remove (property : OwnProperty) (found : obj.lookup property.key = some property)
      (configurable : property.attributes.configurable = true) :
      Change host obj (obj.withProperties (retained property.key obj.properties))
  | dense (elements : ArrayElements) (backed : elements.Backed) (array : obj.isArray = true)
      (guarded : ∀ key value, (host.arrayPropertyIndex key).bind elements.value = some value →
        obj.lookup key = none ∧ (obj.ownProperty host key = none → obj.isExtensible = true)) :
      Change host obj (obj.withElements elements)
  | convert (elements : ArrayElements) (property : OwnProperty) (backed : elements.Backed)
      (array : obj.isArray = true)
      (dense : (obj.denseArrayValue host property.key).isSome)
      (valid : property.payload.Valid host)
      (others : ∀ key value, (host.arrayPropertyIndex key).bind elements.value = some value →
        key ≠ property.key ∧ (obj.denseArrayValue host key).isSome) :
      Change host obj ((obj.withProperties (obj.properties ++ [property])).withElements elements)
  | register (registers : Nat → Value) (valid : ∀ count, obj.exotic = .arguments count →
        ∀ index, registers index ≠ PropertyStorage.hole) :
      Change host obj { obj with registers := registers }
  | preventExtensions : Change host obj { obj with isExtensible := false }

theorem WellFormed.nodup_append (h : obj.WellFormed host) (hnew : obj.lookup prop.key = none) :
    ((obj.properties ++ [prop]).map OwnProperty.key).Nodup := by
  rw [List.map_append, List.nodup_append]
  refine ⟨h.nodup, List.nodup_singleton _, ?_⟩
  intro old hold new hnewMem heq
  obtain ⟨found, hm, rfl⟩ := List.mem_map.mp hold
  rw [List.map_singleton, List.mem_singleton] at hnewMem
  exact lookup_eq_none.mp hnew found hm (heq.trans hnewMem)

theorem Change.wellFormed (h : obj.WellFormed host) (hch : Change host obj post) :
    post.WellFormed host := by
  cases hch with
  | add prop absent extensible valid =>
    obtain ⟨hd, hnew⟩ := h.absent_iff.mp absent
    refine ⟨h.nodup_append hnew, h.backed, ?_, ?_, h.registers⟩
    · intro key val hv
      rw [lookup_append hnew, if_neg, h.separate key val hv]
      rintro rfl
      rw [denseArrayValue_withProperties, hd] at hv
      cases hv
    · exact forall_mem_append.mpr ⟨h.valid, forall_mem_singleton.mpr valid⟩
  | redefine pre published found redefines =>
    have hf : obj.lookup published.key = some pre := redefines.key_eq ▸ found
    refine ⟨?_, h.backed, ?_, ?_, h.registers⟩
    · rw [withProperties_properties, keys_replaced]
      exact h.nodup
    · intro key val hv
      have hn := h.separate key val hv
      rw [lookup_replaced hf, if_neg, hn]
      rintro rfl
      rw [hf] at hn
      cases hn
    · intro prop hm
      obtain ⟨old, hold, rfl⟩ := mem_map.mp hm
      split
      · exact redefines.valid
      · exact h.valid old hold
  | remove prop found configurable =>
    refine ⟨nodup_retained h.nodup _, h.backed, ?_, ?_, h.registers⟩
    · intro key val hv
      rw [lookup_retained h.nodup, h.separate key val hv, ite_self]
    · intro old hm
      exact h.valid old (mem_retained.mp hm).1
  | dense elements backed array guarded =>
    refine ⟨h.nodup, ?_, ?_, h.valid, ?_⟩
    · intro elements' helems
      exact Option.some.inj helems ▸ backed
    · intro key val hv
      exact (guarded key val hv).1
    · intro cnt hc
      cases hc
  | convert elements prop backed array dense valid others =>
    obtain ⟨cur, hd⟩ := Option.isSome_iff_exists.mp dense
    have hnew := h.separate prop.key cur hd
    refine ⟨h.nodup_append hnew, ?_, ?_, ?_, ?_⟩
    · intro elements' helems
      exact Option.some.inj helems ▸ backed
    · intro key val hv
      obtain ⟨hkey, hpres⟩ := others key val hv
      obtain ⟨old, hold⟩ := Option.isSome_iff_exists.mp hpres
      rw [lookup_withElements, lookup_append hnew, if_neg hkey, h.separate key old hold]
    · exact forall_mem_append.mpr ⟨h.valid, forall_mem_singleton.mpr valid⟩
    · intro cnt hc
      cases hc
  | register registers valid => exact ⟨h.nodup, h.backed, h.separate, h.valid, valid⟩
  | preventExtensions => exact ⟨h.nodup, h.backed, h.separate, h.valid, h.registers⟩

/-- Any number of changes. -/
abbrev Changes (host : PropertyHost) : PropertyObject → PropertyObject → Prop :=
  Relation.ReflTransGen (Change host)

theorem Changes.wellFormed (h : obj.WellFormed host) (hchanges : Changes host obj post) :
    post.WellFormed host := by
  induction hchanges with
  | refl => exact h
  | tail _ hch ih => exact hch.wellFormed ih

end PropertyObject

end TachyonEngine.Vm
