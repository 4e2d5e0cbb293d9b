import TachyonEngine.Vm.ListedProperties

/-!
# Mapped arguments objects

In a sloppy function an index of the arguments object stands for a parameter register. The source
does not record which indices are still mapped. It looks at the property: a writable data property
with an index below the number of parameters is mapped. The history does not enter, so an index that
was deleted, made an accessor or made read-only is mapped again as soon as it is a writable data
property again, and an index without an argument is mapped as soon as it is created. A run without
such a revival (`Revives`) treats every index as its history demands.
-/

namespace TachyonEngine.Vm

open Lib Lib.Attempt Option
open Relation (ReflTransGen)

/-! ## Reading -/

namespace PropertyObject

/-- The keys whose properties are no writable data: missing ones, accessors and read-only ones. -/
def Lost (obj : PropertyObject) : Set PropertyKey :=
  {key | (obj.lookup key).any isWritableData = false}

end PropertyObject

/-! ## Operations -/

/-- What a function does to its arguments object and its parameters. -/
inductive ArgumentsOperation where
  | define (key : PropertyKey) (desc : PropertyDescriptor)
  | set (key : PropertyKey) (val : Value)
  | delete (key : PropertyKey)
  | preventExtensions
  | assignParameter (idx : Nat) (val : Value)

namespace ArgumentsOperation

/-- The values come from the language. -/
def Proper : ArgumentsOperation → Prop
  | .define _ desc => desc.Proper
  | .set _ val => val ≠ PropertyStorage.hole
  | .assignParameter _ val => val ≠ PropertyStorage.hole
  | _ => True

def run (host : PropertyHost) (mem : MemoryRequest → Bool) : ArgumentsOperation → ObjectM Unit
  | .define key desc => PropertyObject.defineProperty host mem key desc
  | .set key val => PropertyObject.setOwnDataProperty host mem key val
  | .delete key => do
      let _ ← PropertyObject.deleteOwnDataProperty host mem key
      pure ()
  | .preventExtensions => modify fun obj => { obj with isExtensible := false }
  | .assignParameter idx val =>
    modify fun obj => { obj with registers := Function.update obj.registers idx val }

/-- The property on which an operation works. -/
def target : ArgumentsOperation → Option PropertyKey
  | .define key _ => some key
  | .set key _ => some key
  | .delete key => some key
  | _ => none

/-- The value that an operation writes to its property. -/
def value : ArgumentsOperation → Option Value
  | .define _ desc => desc.value
  | .set _ val => some val
  | _ => none

end ArgumentsOperation

namespace PropertyObject

/-- The operation makes a writable data property of an index of a parameter that has none. It is
asked for one, and neither the object nor the memory stands in its way. -/
def Revives (host : PropertyHost) (mem : MemoryRequest → Bool) (obj : PropertyObject) :
    ArgumentsOperation → Prop
  | .set key _ =>
    (obj.mappedArgumentFrame host key).isSome ∧ obj.lookup key = none ∧
      obj.isExtensible = true ∧ mem (.addition key) = true
  | .define key (.data data) =>
    (obj.mappedArgumentFrame host key).isSome ∧ data.writable = some true ∧
      match obj.lookup key with
      | none => obj.isExtensible = true ∧ mem (.addition key) = true
      | some prop =>
        isWritableData prop = false ∧
          validatePropertyRedefinition host prop prop.payload (.data data) = true ∧
          mem (.reconfiguration key) = true
  | _ => False

variable {host : PropertyHost} {mem : MemoryRequest → Bool} {obj post : PropertyObject}
  {key : PropertyKey} {desc : PropertyDescriptor} {operation : ArgumentsOperation}
  {cnt : Nat}

/-! ## The mapping is read off the property -/

theorem mem_lost : key ∈ obj.Lost ↔ (obj.lookup key).any isWritableData = false := Iff.rfl

theorem mem_lost_congr (h : post.lookup key = obj.lookup key) :
    key ∈ post.Lost ↔ key ∈ obj.Lost := by
  rw [mem_lost, mem_lost, h]

theorem isArray_of_arguments (h : obj.exotic = .arguments cnt) : obj.isArray = false := by
  rw [isArray, h]

variable {idx : Nat}

theorem mappedArgumentFrame_of_arguments (h : obj.exotic = .arguments cnt)
    (hi : host.arrayPropertyIndex key = some idx) (hsm : idx < cnt) :
    obj.mappedArgumentFrame host key = some idx := by
  simp only [mappedArgumentFrame, h, hi, filter_some, hsm, decide_true, if_true]

variable {prop : OwnProperty}

/-- The property itself is no writable data. -/
theorem isWritableData_eq_false (h : key ∈ obj.Lost) (hf : obj.lookup key = some prop) :
    isWritableData prop = false := by
  rw [mem_lost, hf] at h
  exact h

/-- A redefinition to writable data needs a descriptor that asks for it and, for a property that is
none, a new shape. -/
theorem writable_of_redefined (hval : prop.payload.Valid host) (hold : isWritableData prop = false)
    (hnew : isWritableData (redefined prop desc) = true) :
    (∃ data, desc = .data data ∧ data.writable = some true) ∧
      ¬ (prop.payload.kind = (redefined prop desc).payload.kind ∧
        prop.attributes = (redefined prop desc).attributes) := by
  obtain ⟨hw, val, hsto⟩ := isWritableData_iff.mp hnew
  have hdata : (redefined prop desc).payload = .data val := by
    rw [OwnProperty.stored] at hsto
    split_ifs at hsto
    exact some.inj hsto
  -- a data property that is writable already is excluded
  have hro : prop.payload.kind = .data → prop.attributes.writable = true → False := by
    intro hk hflag
    cases hpay : prop.payload with
    | data cur =>
      rw [isWritableData_iff.mpr ⟨hflag, cur, by rw [stored_eq hval, hpay]⟩] at hold
      cases hold
    | accessor getter setter =>
      rw [hpay] at hk
      cases hk
  refine ⟨?_, ?_⟩
  · rw [redefined_writable] at hw
    cases desc with
    | generic desc =>
      simp only [redefinedWritable] at hw
      split at hw
      next hk =>
        exact (hro hk hw).elim
      · cases hw
    | accessor desc => cases hw
    | data data =>
      refine ⟨data, rfl, ?_⟩
      simp only [redefinedWritable] at hw
      cases hfield : data.writable with
      | some flag =>
        rw [hfield, getD_some] at hw
        rw [hw]
      | none =>
        rw [hfield] at hw
        split at hw
        next hk =>
          exact (hro hk hw).elim
        · cases hw
  · rintro ⟨hk, hattrs⟩
    rw [hdata] at hk
    rw [← hattrs] at hw
    exact hro hk hw

theorem writable_of_created (h : isWritableData (created key desc) = true) :
    ∃ data, desc = .data data ∧ data.writable = some true := by
  obtain ⟨hw, -⟩ := isWritableData_iff.mp h
  cases desc with
  | generic desc | accessor desc => cases hw
  | data data =>
    refine ⟨data, rfl, ?_⟩
    have hw : data.writable.getD false = true := hw
    cases hfield : data.writable with
    | none =>
      rw [hfield] at hw
      cases hw
    | some flag =>
      rw [hfield, getD_some] at hw
      rw [hw]

/-- The value of the parameter is added to descriptors that are not writable only. -/
theorem withMappedValue_of_writable {data : DataPropertyDescriptor}
    (h : obj.withMappedValue host key desc = .data data) (hw : data.writable = some true) :
    desc = .data data := by
  cases desc with
  | generic desc | accessor desc => cases h
  | data given =>
    simp only [withMappedValue] at h
    split_ifs at h with hro
    · cases h
      rw [hro.1] at hw
      cases hw
    · exact h

/-! ## How an operation may end -/

/-- The property that an operation publishes. -/
def Writes (host : PropertyHost) (obj : PropertyObject) :
    ArgumentsOperation → OwnProperty → Prop
  | .define key desc =>
    Defines host obj key (obj.withMappedValue host key desc)
  | .set key val => Assigns obj key val
  | _ => fun _ => False

/-- The states in which an operation returns. -/
inductive Returned (host : PropertyHost) (mem : MemoryRequest → Bool) (obj : PropertyObject) :
    ArgumentsOperation → PropertyObject → Prop where
  | written {operation : ArgumentsOperation} {middle post : PropertyObject} {prop : OwnProperty}
      (target : operation.target = some prop.key) (synced : Synced host obj prop.key middle)
      (writes : Writes host obj operation prop)
      (published : Published mem middle prop post) :
      Returned host mem obj operation post
  | deleted {key : PropertyKey} {success : Bool} {post : PropertyObject}
      (deleted : Deleted host obj key success post) :
      Returned host mem obj (.delete key) post
  | closed : Returned host mem obj .preventExtensions { obj with isExtensible := false }
  | assigned (idx : Nat) (val : Value) :
      Returned host mem obj (.assignParameter idx val)
        { obj with registers := Function.update obj.registers idx val }

/-- An operation on an arguments object returns in such a state, or it fails and has changed at most
the parameter of its key. -/
theorem ends_run (h : obj.WellFormed host) (hexotic : obj.exotic = .arguments cnt)
    (hproper : operation.Proper) :
    Ends (operation.run host mem) (fun _ => Returned host mem obj operation)
      (fun _ post => ∃ key, operation.target = some key ∧ Synced host obj key post) obj := by
  have hlist := isArray_of_arguments hexotic
  cases operation with
  | define key desc =>
    refine (ends_define_of_listed h hlist hproper).imp ?_ ?_
    · rintro _ post ⟨synced, prop, hsynced, hdefines, hpublished⟩
      obtain rfl := hdefines.key_eq
      exact .written rfl hsynced hdefines hpublished
    · intro _ post hsynced
      exact ⟨key, rfl, hsynced⟩
  | set key val =>
    refine (ends_set_of_listed h hlist hproper).imp ?_ ?_
    · rintro _ post ⟨synced, prop, hsynced, hassigns, hpublished⟩
      obtain rfl := hassigns.key_eq
      exact .written rfl hsynced hassigns hpublished
    · intro _ post hsynced
      exact ⟨key, rfl, hsynced⟩
  | delete key =>
    rw [ArgumentsOperation.run, ends_bind]
    refine (ends_delete h key).imp ?_ ?_
    · intro success post hdeleted
      exact .deleted hdeleted
    · rintro _ post ⟨rfl, -⟩
      exact ⟨key, rfl, .refl host post key⟩
  | preventExtensions => exact ends_modify _ |>.mpr .closed
  | assignParameter idx val => exact ends_modify _ |>.mpr (.assigned idx val)

/-- A deletion removes its key from the list, or nothing. -/
theorem Deleted.lookup_eq (h : obj.WellFormed host) (hexotic : obj.exotic = .arguments cnt)
    {success : Bool} (hdeleted : Deleted host obj key success post) :
    post.registers = obj.registers ∧ post.exotic = obj.exotic ∧ ∀ other, other.isPrivate = false →
        post.lookup other = obj.lookup other ∨ other = key ∧ post.lookup other = none := by
  cases hdeleted with
  | dense spelled present written =>
    have harray := written.array
    rw [isArray_of_arguments hexotic] at harray
    cases harray
  | absent missing | blocked found fixed => exact ⟨rfl, rfl, fun _ _ => .inl rfl⟩
  | removed found configurable =>
    refine ⟨rfl, rfl, ?_⟩
    intro other hpub
    rw [lookup_retained h.nodup]
    split_ifs with hgone
    · rcases hgone with rfl | hpriv
      · exact .inr ⟨rfl, rfl⟩
      · rw [hpub] at hpriv
        cases hpriv
    · exact .inl rfl

namespace Returned

variable (h : obj.WellFormed host) (hexotic : obj.exotic = .arguments cnt)
  (hret : Returned host mem obj operation post)
include h hexotic hret

theorem exotic_eq : post.exotic = obj.exotic := by
  cases hret with
  | written tgt synced writes published =>
    cases published with
    | replaced found granted | appended missing extensible granted => exact synced.exotic_eq
  | deleted deleted => exact (deleted.lookup_eq h hexotic).2.1
  | closed | assigned idx val => rfl

/-- The other properties stay. -/
theorem lookup_other (hpub : key.isPrivate = false) (ho : operation.target ≠ some key) :
    post.lookup key = obj.lookup key := by
  cases hret with
  | written tgt synced writes published =>
    rw [published.lookup_eq, if_neg, synced.lookup_eq]
    rintro rfl
    exact ho tgt
  | deleted deleted =>
    rcases (deleted.lookup_eq h hexotic).2.2 key hpub with hs | ⟨rfl, -⟩
    · exact hs
    · exact absurd rfl ho
  | closed | assigned idx val => rfl

end Returned

/-- A write that makes writable data of a property that was none is a revival. -/
theorem revives_of_writes (h : obj.WellFormed host) {synced : PropertyObject}
    (ht : operation.target = some prop.key) (hsynced : Synced host obj prop.key synced)
    (hwrites : Writes host obj operation prop) (hpublished : Published mem synced prop post)
    (hfr : (obj.mappedArgumentFrame host prop.key).isSome)
    (hlost : prop.key ∈ obj.Lost) (hnew : isWritableData prop = true) :
    Revives host mem obj operation := by
  cases operation with
  | define key desc =>
    cases ht
    simp only [Writes] at hwrites
    cases hpublished with
    | replaced found granted =>
      rename_i old
      rw [hsynced.lookup_eq] at found
      obtain ⟨hm, hkey⟩ := lookup_eq_some found
      have hold := isWritableData_eq_false hlost found
      rw [Defines, found] at hwrites
      obtain ⟨hpass, hproperty⟩ := hwrites
      rw [hproperty] at hnew granted
      obtain ⟨⟨data, hdata, hw⟩, hchanged⟩ := writable_of_redefined (h.valid old hm) hold hnew
      rw [hdata] at hpass
      rw [withMappedValue_of_writable hdata hw]
      refine ⟨hfr, hw, ?_⟩
      rw [found]
      refine ⟨hold, hpass, ?_⟩
      have hmemory := granted.resolve_right hchanged
      rw [redefined_key, hkey] at hmemory
      exact hmemory
    | appended missing extensible granted =>
      rw [hsynced.lookup_eq] at missing
      rw [hsynced.isExtensible_eq] at extensible
      rw [Defines, missing] at hwrites
      rw [hwrites] at hnew
      obtain ⟨data, hdata, hw⟩ := writable_of_created hnew
      rw [withMappedValue_of_writable hdata hw]
      refine ⟨hfr, hw, ?_⟩
      rw [missing]
      exact ⟨extensible, granted⟩
  | set key val =>
    cases ht
    simp only [Writes] at hwrites
    cases hpublished with
    | replaced found granted =>
      rw [hsynced.lookup_eq] at found
      rw [Assigns, found] at hwrites
      have hold := isWritableData_eq_false hlost found
      rw [hwrites.1] at hold
      cases hold
    | appended missing extensible granted =>
      rw [hsynced.lookup_eq] at missing
      rw [hsynced.isExtensible_eq] at extensible
      exact ⟨hfr, missing, extensible, granted⟩
  | delete _ | preventExtensions | assignParameter _ _ => cases hwrites

/-- Without a revival an index that is not mapped stays so. -/
theorem Returned.lost (h : obj.WellFormed host) (hexotic : obj.exotic = .arguments cnt)
    (hret : Returned host mem obj operation post)
    (hkeeps : ¬ Revives host mem obj operation) (hpub : key.isPrivate = false)
    (hfr : (obj.mappedArgumentFrame host key).isSome) (hlost : key ∈ obj.Lost) :
    key ∈ post.Lost := by
  by_cases ht : operation.target = some key
  · cases hret with
    | written tgt synced writes published =>
      rw [tgt] at ht
      cases ht
      rw [mem_lost, published.lookup_eq, if_pos rfl]
      by_contra hnew
      rw [Bool.not_eq_false] at hnew
      exact hkeeps (revives_of_writes h tgt synced writes published hfr hlost hnew)
    | deleted deleted =>
      rcases (deleted.lookup_eq h hexotic).2.2 key hpub with hs | ⟨-, hn⟩
      · exact (mem_lost_congr hs).mpr hlost
      · rw [mem_lost, hn]
        rfl
    | closed | assigned idx val => cases ht
  · exact (mem_lost_congr (hret.lookup_other h hexotic hpub ht)).mpr hlost

/-! ## What a write stores -/

variable {val : Value}

end PropertyObject

end TachyonEngine.Vm
