import TachyonEngine.Vm.PropertyRun

/-!
# Objects without dense elements

All properties of an object that is not an Array are in its list. `define_property` and
`set_own_data_property` first write the parameter register of a mapped index, and then they publish
one property or fail. The lemmas say exactly which property, and which memory was granted for it.
-/

namespace TachyonEngine.Vm

open Lib Lib.Attempt

namespace PropertyObject

variable {host : PropertyHost} {mem : MemoryRequest → Bool} {obj post : PropertyObject}
  {key : PropertyKey} {desc : PropertyDescriptor}

section

variable (h : obj.isArray = false)

include h

theorem denseArrayValue_of_listed (key : PropertyKey) : obj.denseArrayValue host key = none := by
  have helems : obj.elements = none := by
    cases hex : obj.exotic with
    | ordinary | arguments cnt => rw [PropertyObject.elements, hex]
    | array elements =>
      rw [isArray, hex] at h
      cases h
  rw [denseArrayValue, helems]
  cases host.arrayPropertyIndex key with
  | none | some idx => rfl

theorem ends_tryDense_of_listed (candidate : Option (Nat × Value)) :
    Ends (tryDenseArrayValue mem candidate) (fun stored post => stored = false ∧ post = obj)
      (fun _ _ => False) obj := by
  cases candidate with
  | none => exact ⟨rfl, rfl⟩
  | some ent =>
    simp only [tryDenseArrayValue]
    rw [setDenseArrayValue, ends_bind, ends_get]
    split
    · exact ⟨rfl, rfl⟩
    · split
      next hex =>
        rw [isArray, hex] at h
        cases h
      next elements hex =>
        rw [isArray, hex] at h
        cases h
      · exact ⟨rfl, rfl⟩

theorem ends_grow_of_listed (key : PropertyKey) :
    Ends (growArrayLengthForIndexProperty host mem key) (fun _ post => post = obj)
      (fun _ _ => False) obj := by
  rw [growArrayLengthForIndexProperty, ends_bind, ends_get, h]
  exact rfl

theorem ends_guardIndex_of_listed (key : PropertyKey) :
    Ends (guardArrayIndex host key) (fun _ post => post = obj) (fun _ _ => False) obj := by
  rw [guardArrayIndex, ends_bind, ends_get]
  cases host.arrayPropertyIndex key with
  | none => exact rfl
  | some idx =>
    rw [h]
    exact rfl

end

/-! ## Publishing one property -/

/-- The list after a write of one property: another one in its place, or a new one at the end. -/
inductive Published (mem : MemoryRequest → Bool) (obj : PropertyObject)
    (prop : OwnProperty) : PropertyObject → Prop where
  | replaced {old : OwnProperty} (found : obj.lookup prop.key = some old)
      (granted : mem (.reconfiguration prop.key) = true ∨
        old.payload.kind = prop.payload.kind ∧ old.attributes = prop.attributes) :
      Published mem obj prop (obj.withProperties (PropertyObject.replaced prop obj.properties))
  | appended (missing : obj.lookup prop.key = none) (extensible : obj.isExtensible = true)
      (granted : mem (.addition prop.key) = true) :
      Published mem obj prop (obj.withProperties (obj.properties ++ [prop]))

namespace Published

variable {prop : OwnProperty}

theorem lookup_eq (h : Published mem obj prop post) (other : PropertyKey) :
    post.lookup other = if other = prop.key then some prop else obj.lookup other := by
  cases h with
  | replaced found granted => exact lookup_replaced found other
  | appended missing extensible granted => exact lookup_append missing other

end Published

/-- What `define_property` publishes: a redefinition that the validation lets pass, or a new
property. -/
def Defines (host : PropertyHost) (obj : PropertyObject) (key : PropertyKey)
    (desc : PropertyDescriptor) (prop : OwnProperty) : Prop :=
  match obj.lookup key with
  | some old => validatePropertyRedefinition host old old.payload desc = true ∧
      prop = redefined old desc
  | none => prop = created key desc

variable {prop : OwnProperty}

theorem Defines.key_eq (h : Defines host obj key desc prop) : prop.key = key := by
  simp only [Defines] at h
  split at h
  next old hf =>
    rw [h.2]
    exact (lookup_eq_some hf).2
  · rw [h]
    rfl

theorem ends_defineOwn_of_listed (h : obj.WellFormed host) (harray : obj.isArray = false)
    (desc : PropertyDescriptor) : Ends (defineOwnProperty host mem key desc)
      (fun _ post => ∃ prop, Defines host obj key desc prop ∧
        Published mem obj prop post) (fun _ post => post = obj) obj := by
  rw [defineOwnProperty, ends_bind, ends_get, denseArrayValue_of_listed harray]
  cases hf : obj.lookup key with
  | some old =>
    obtain ⟨hm, rfl⟩ := lookup_eq_some hf
    simp only [Option.bind_some, h.stored_lookup hf, Option.map_some]
    rw [ends_bind]
    refine (ends_redefinePresentProperty old desc).imp ?_ ?_
    · rintro _ middle ⟨hpass, rfl, hgr⟩
      refine (ends_grow_of_listed (by exact harray) _).imp ?_ (fun _ _ hfalse => hfalse.elim)
      rintro _ post rfl
      refine ⟨redefined old desc, ?_, .replaced hf hgr⟩
      rw [Defines, hf]
      exact ⟨hpass, rfl⟩
    · rintro _ post ⟨rfl, -⟩
      rfl
  | none =>
    simp only [Option.bind_none]
    split_ifs with hext
    · exact rfl
    · rw [Bool.not_eq_true', Bool.not_eq_false] at hext
      rw [defineMissingProperty, ends_bind]
      refine (ends_tryDense_of_listed harray _).imp ?_ (fun _ _ hfalse => hfalse.elim)
      rintro _ tried ⟨rfl, rfl⟩
      rw [if_neg Bool.false_ne_true, ends_bind]
      refine (ends_defineMissingRaw hf desc).imp ?_ (fun _ _ hs => hs)
      rintro _ middle ⟨rfl, hgr⟩
      refine (ends_grow_of_listed (by exact harray) _).imp ?_ (fun _ _ hfalse => hfalse.elim)
      rintro _ post rfl
      refine ⟨created key desc, ?_, .appended hf hext hgr⟩
      simp only [Defines, hf]

/-! ## Writing through the parameter -/

/-- The object with other registers, which are the same if the key is not mapped. -/
structure Synced (host : PropertyHost) (obj : PropertyObject) (key : PropertyKey)
    (post : PropertyObject) : Prop where
  rest : ∃ registers, post = { obj with registers := registers }
  unmapped : obj.mappedArgumentValue host key = none → post = obj

namespace Synced

theorem refl (host : PropertyHost) (obj : PropertyObject) (key : PropertyKey) :
    Synced host obj key obj := ⟨⟨obj.registers, rfl⟩, fun _ => rfl⟩

theorem lookup_eq (h : Synced host obj key post) (other : PropertyKey) :
    post.lookup other = obj.lookup other := by
  obtain ⟨registers, rfl⟩ := h.rest
  rfl

theorem exotic_eq (h : Synced host obj key post) : post.exotic = obj.exotic := by
  obtain ⟨registers, rfl⟩ := h.rest
  rfl

theorem isExtensible_eq (h : Synced host obj key post) : post.isExtensible = obj.isExtensible := by
  obtain ⟨registers, rfl⟩ := h.rest
  rfl

end Synced

variable {val : Value}

theorem ends_sync_synced (h : obj.WellFormed host) (key : PropertyKey) (hv : val ≠
    PropertyStorage.hole) : Ends (syncMappedArgument host key val)
      (fun _ post => Synced host obj key post ∧ post.WellFormed host) (fun _ _ => False) obj := by
  refine (ends_sync key val).imp ?_ (fun _ _ hfalse => hfalse)
  rintro _ post (⟨-, rfl⟩ | ⟨idx, -, hmapped, rfl⟩)
  · exact ⟨.refl host post key, h⟩
  · refine ⟨⟨⟨_, rfl⟩, ?_⟩, Change.wellFormed h (change_register h hv)⟩
    intro hn
    rw [hn] at hmapped
    cases hmapped

theorem ends_syncDescriptor_synced (h : obj.WellFormed host) (key : PropertyKey)
    (hproper : desc.Proper) : Ends (syncDescriptorValue host key desc)
      (fun _ post => Synced host obj key post ∧ post.WellFormed host) (fun _ _ => False) obj := by
  simp only [syncDescriptorValue]
  split
  next val hv =>
    apply ends_sync_synced h key
    rintro rfl
    exact hproper hv
  · exact ⟨.refl host obj key, h⟩

/-- `define_property` on an object without dense elements. -/
theorem ends_define_of_listed (h : obj.WellFormed host) (harray : obj.isArray = false)
    (hproper : desc.Proper) : Ends (defineProperty host mem key desc)
      (fun _ post => ∃ synced prop, Synced host obj key synced ∧
        Defines host obj key (obj.withMappedValue host key desc) prop ∧
        Published mem synced prop post) (fun _ post => Synced host obj key post) obj := by
  rw [defineProperty, ends_bind, ends_get]
  have hproper : (obj.withMappedValue host key desc).Proper := proper_withMappedValue h hproper
  generalize obj.withMappedValue host key desc = desc at hproper
  rw [ends_bind]
  refine (ends_syncDescriptor_synced h key hproper).imp ?_ (fun _ _ hfalse => hfalse.elim)
  rintro _ synced ⟨hsynced, hval⟩
  have hlist : synced.isArray = false := by
    rw [isArray, hsynced.exotic_eq]
    exact harray
  rw [ends_bind]
  refine (ends_validateFields hproper).imp ?_ ?_
  · rintro _ checked ⟨rfl, -⟩
    rw [if_neg (by rw [harray]; exact fun h => Bool.false_ne_true h.1), ends_bind]
    refine (ends_guardIndex_of_listed hlist key).imp ?_ (fun _ _ hfalse => hfalse.elim)
    rintro _ guarded rfl
    refine (ends_defineOwn_of_listed hval hlist desc).imp ?_ ?_
    · rintro _ post ⟨prop, hdefines, hpublished⟩
      refine ⟨guarded, prop, hsynced, ?_, hpublished⟩
      simp only [Defines, hsynced.lookup_eq] at hdefines ⊢
      exact hdefines
    · rintro _ post rfl
      exact hsynced
  · rintro _ checked rfl
    exact hsynced

/-- What `set_own_data_property` publishes. -/
def Assigns (obj : PropertyObject) (key : PropertyKey) (value : Value) (prop : OwnProperty) :
    Prop :=
  match obj.lookup key with
  | some old => isWritableData old = true ∧ prop = { old with payload := .data value }
  | none => prop = ⟨key, .defaultData, .data value⟩

theorem Assigns.key_eq (h : Assigns obj key val prop) : prop.key = key := by
  simp only [Assigns] at h
  split at h
  next old hf =>
    rw [h.2]
    exact (lookup_eq_some hf).2
  · rw [h]

/-- `set_own_data_property` on an object without dense elements. -/
theorem ends_set_of_listed (h : obj.WellFormed host) (harray : obj.isArray = false) (hv : val ≠
    PropertyStorage.hole) : Ends (setOwnDataProperty host mem key val)
      (fun _ post => ∃ synced prop, Synced host obj key synced ∧
        Assigns obj key val prop ∧ Published mem synced prop post)
      (fun _ post => Synced host obj key post) obj := by
  rw [setOwnDataProperty, ends_bind]
  refine (ends_sync_synced h key hv).imp ?_ (fun _ _ hfalse => hfalse.elim)
  rintro _ synced ⟨hsynced, hval⟩
  have hlist : synced.isArray = false := by
    rw [isArray, hsynced.exotic_eq]
    exact harray
  rw [ends_bind, ends_get, if_neg (by rw [hlist]; exact fun h => Bool.false_ne_true h.1)]
  split
  next idx cur hi hd =>
    rw [denseArrayValue_of_listed hlist] at hd
    cases hd
  · cases hf : synced.lookup key with
    | some old =>
      obtain ⟨hm, rfl⟩ := lookup_eq_some hf
      have hsto := hval.stored_lookup hf
      dsimp only
      rw [hsto]
      cases hpay : old.payload with
      | data cur =>
        dsimp only
        split_ifs with hw
        · refine ⟨synced, { old with payload := .data val }, hsynced, ?_, ?_⟩
          · rw [hsynced.lookup_eq] at hf
            rw [Assigns, hf]
            rw [hpay] at hsto
            exact ⟨isWritableData_iff.mpr ⟨hw, cur, hsto⟩, rfl⟩
          · refine .replaced hf (.inr ⟨?_, rfl⟩)
            rw [hpay]
            rfl
        · exact hsynced
      | accessor getter setter => exact hsynced
    | none =>
      dsimp only
      split_ifs with hext
      · exact hsynced
      · rw [Bool.not_eq_true', Bool.not_eq_false] at hext
        rw [createDataProperty, ends_bind]
        refine (ends_tryDense_of_listed hlist _).imp ?_ (fun _ _ hfalse => hfalse.elim)
        rintro _ tried ⟨rfl, rfl⟩
        rw [if_neg Bool.false_ne_true, ends_bind]
        refine (ends_add _).imp ?_ ?_
        · rintro _ middle ⟨rfl, hgr⟩
          refine (ends_grow_of_listed (by exact hlist) _).imp ?_ (fun _ _ hfalse => hfalse.elim)
          rintro _ post rfl
          refine ⟨tried, ⟨key, .defaultData, .data val⟩, hsynced, ?_, .appended hf hext hgr⟩
          rw [hsynced.lookup_eq] at hf
          simp only [Assigns, hf]
        · rintro _ post rfl
          exact hsynced

end PropertyObject

end TachyonEngine.Vm
