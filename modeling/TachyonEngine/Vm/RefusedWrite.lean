import TachyonEngine.Vm.ArrayRun
import TachyonEngine.Vm.ListedProperties

/-!
# Writes that the receiver refuses

A boolean write turns two errors into `false`: the object is not extensible, or the property is
read-only. The change of an Array length never ends in one of them, so a write of a property that is
missing is refused exactly if the object is not extensible and the property is no dense element.
-/

namespace TachyonEngine.Vm

open Lib Lib.Attempt

/-- An error that a boolean write hands on. -/
def DescriptorError.Severe (error : DescriptorError) : Prop :=
  error ≠ .nonExtensibleObject ∧ error ≠ .readOnlyProperty

instance (error : DescriptorError) : Decidable error.Severe := inferInstanceAs (Decidable (_ ∧ _))

namespace PropertyObject

variable {host : PropertyHost} {mem : MemoryRequest → Bool} {obj : PropertyObject}
  {key : PropertyKey}

/-! ## Errors of the length -/

theorem severe_refused (asked : MemoryRequest) : (DescriptorError.refused asked).Severe :=
  ⟨fun h => (nomatch h), fun h => (nomatch h)⟩

theorem severe_request (asked : MemoryRequest) :
    (request mem asked).FailsOnly DescriptorError.Severe := by
  simp only [request]
  split
  · exact failsOnly_pure ()
  · exact failsOnly_throw (severe_refused asked)

theorem severe_reconfigure (prop : OwnProperty) (attributes : PropertyAttributes)
    (payload : StoredProperty) :
    (reconfigure mem prop attributes payload).FailsOnly DescriptorError.Severe := by
  simp only [reconfigure]
  split
  · exact failsOnly_modify _
  · exact (severe_request _).bind fun _ => failsOnly_modify _

theorem severe_callable (val : Value) :
    (validateAccessorCallable host val).FailsOnly DescriptorError.Severe := by
  simp only [validateAccessorCallable]
  split
  · exact failsOnly_pure ()
  · exact failsOnly_throw ⟨by rintro ⟨⟩, by rintro ⟨⟩⟩

theorem severe_redefine (prop : OwnProperty) (cur : StoredProperty) (desc : PropertyDescriptor) :
    (redefinePresentProperty host mem prop cur desc).FailsOnly DescriptorError.Severe := by
  simp only [redefinePresentProperty]
  split
  · cases desc with
    | generic desc | data desc => exact severe_reconfigure _ _ _
    | accessor desc =>
      simp only [applyAccessorDescriptor]
      split
      · exact severe_reconfigure _ _ _
      · refine FailsOnly.bind ?_ fun _ => severe_reconfigure _ _ _
        refine (severe_callable _).bind fun _ => (severe_callable _).bind fun _ => ?_
        exact (severe_request _).bind fun _ => failsOnly_pure _
  · exact failsOnly_throw (by decide)

theorem severe_redefineLength (desc : PropertyDescriptor) :
    (redefineArrayLength host mem desc).FailsOnly DescriptorError.Severe := by
  refine failsOnly_get.bind ?_
  intro obj
  split
  · exact failsOnly_throw (by decide)
  · split
    · exact failsOnly_throw (by decide)
    · exact severe_redefine _ _ _

theorem severe_setElements (elements : ArrayElements) :
    (setElements elements).FailsOnly DescriptorError.Severe := failsOnly_modify _

theorem severe_delete (key : PropertyKey) :
    (deleteOwnDataProperty host mem key).FailsOnly DescriptorError.Severe := by
  refine FailsOnly.bind ?_ ?_
  · refine failsOnly_get.bind ?_
    intro obj
    dsimp only
    split
    · exact failsOnly_pure _
    · exact (severe_setElements _).bind fun _ => failsOnly_pure _
  · intro deleted
    split
    · exact failsOnly_pure _
    · refine failsOnly_get.bind ?_
      intro obj
      split
      · exact failsOnly_pure _
      · split
        · exact failsOnly_pure _
        · split
          · exact failsOnly_pure _
          · refine FailsOnly.bind ?_ fun _ => failsOnly_pure _
            exact (severe_request _).bind fun _ => failsOnly_modify _

theorem severe_deleteShrunk (keys : List (Nat × PropertyKey)) :
    (deleteShrunk host mem keys).FailsOnly DescriptorError.Severe := by
  induction keys with
  | nil => exact failsOnly_pure _
  | cons ent rest ih =>
    refine (severe_delete ent.2).bind ?_
    intro deleted
    split
    · exact ih
    · exact failsOnly_pure _

theorem severe_truncate (length : Nat) :
    (truncateDenseArray length).FailsOnly DescriptorError.Severe := by
  refine failsOnly_get.bind ?_
  intro obj
  split
  · exact failsOnly_pure _
  · exact severe_setElements _

theorem severe_setLengthCanonical (desc : PropertyDescriptor) (newLength : Nat) :
    (arraySetLengthDescriptorCanonical host mem desc newLength).FailsOnly
      DescriptorError.Severe := by
  refine failsOnly_get.bind ?_
  intro obj
  split
  · exact failsOnly_throw (by decide)
  · cases desc with
    | generic desc | accessor desc => exact failsOnly_throw (by decide)
    | data data =>
      dsimp only
      split
      · exact severe_redefineLength _
      · split
        · exact failsOnly_throw (by decide)
        · refine (severe_redefineLength _).bind fun _ => ?_
          refine FailsOnly.bind ?_ fun keys => (severe_deleteShrunk keys).bind fun blocked => ?_
          · exact (severe_request _).bind fun _ => failsOnly_get.bind fun _ => failsOnly_pure _
          · cases blocked with
            | some idx =>
              refine (severe_truncate _).bind fun _ => (severe_redefineLength _).bind fun _ => ?_
              exact failsOnly_throw (by decide)
            | none =>
              refine (severe_truncate _).bind fun _ => ?_
              split
              · exact severe_redefineLength _
              · exact failsOnly_pure _

variable {val : Value}

theorem severe_primitiveLength {err : DescriptorError} (h : host.primitiveArrayLength val = .error
    err) : err.Severe := by
  have hconvert : ∀ {err}, host.convertToNumber val = .error err → err.Severe := by
    intro err h
    simp only [PropertyHost.convertToNumber] at h
    split_ifs at h
    split at h
    all_goals try cases h
    · exact ⟨by rintro ⟨⟩, by rintro ⟨⟩⟩
    · exact ⟨by rintro ⟨⟩, by rintro ⟨⟩⟩
    · split at h
      all_goals cases h
      · exact ⟨by rintro ⟨⟩, by rintro ⟨⟩⟩
      · exact ⟨by rintro ⟨⟩, by rintro ⟨⟩⟩
      · exact ⟨by rintro ⟨⟩, by rintro ⟨⟩⟩
  simp only [PropertyHost.primitiveArrayLength] at h
  split at h
  · cases h
    exact ⟨by rintro ⟨⟩, by rintro ⟨⟩⟩
  · split at h
    next err' hnumber =>
      cases h
      exact hconvert hnumber
    · split at h
      · cases h
        exact ⟨by rintro ⟨⟩, by rintro ⟨⟩⟩
      · split at h
        · cases h
          exact ⟨by rintro ⟨⟩, by rintro ⟨⟩⟩
        · cases h

theorem severe_setLength (desc : PropertyDescriptor) :
    (arraySetLengthDescriptor host mem desc).FailsOnly DescriptorError.Severe := by
  simp only [arraySetLengthDescriptor]
  split
  · exact severe_redefineLength _
  · split
    next err herr =>
      exact failsOnly_throw (severe_primitiveLength herr)
    · exact severe_setLengthCanonical _ _

theorem severe_grow (key : PropertyKey) :
    (growArrayLengthForIndexProperty host mem key).FailsOnly DescriptorError.Severe := by
  refine failsOnly_get.bind ?_
  intro obj
  split
  · split
    · exact failsOnly_pure _
    · dsimp only
      split
      · exact severe_setLength _
      · exact failsOnly_pure _
  · exact failsOnly_pure _

theorem severe_growDense (previous : Option ArrayElements) (idx : Nat) (val : Value) :
    (growDenseArrayValue mem previous idx val).FailsOnly DescriptorError.Severe := by
  simp only [growDenseArrayValue]
  split
  · exact failsOnly_throw (by decide)
  · split
    · exact failsOnly_throw (by decide)
    · exact (severe_request _).bind fun _ => severe_setElements _

theorem severe_setDense (idx : Nat) (val : Value) :
    (setDenseArrayValue mem idx val).FailsOnly DescriptorError.Severe := by
  refine failsOnly_get.bind ?_
  intro obj
  split
  · exact failsOnly_pure _
  · split
    · split
      · exact failsOnly_pure _
      · exact (severe_growDense _ _ _).bind fun _ => failsOnly_pure _
    · split
      · exact failsOnly_pure _
      · split
        · split
          · exact failsOnly_throw (by decide)
          · exact (severe_setElements _).bind fun _ => failsOnly_pure _
        · exact (severe_growDense _ _ _).bind fun _ => failsOnly_pure _
    · exact failsOnly_pure _

theorem severe_tryDense (candidate : Option (Nat × Value)) :
    (tryDenseArrayValue mem candidate).FailsOnly DescriptorError.Severe := by
  cases candidate with
  | none => exact failsOnly_pure _
  | some ent => exact severe_setDense ent.1 ent.2

theorem severe_add (prop : OwnProperty) :
    (addPropertySlotWithKind mem prop).FailsOnly DescriptorError.Severe :=
  (severe_request _).bind fun _ => failsOnly_modify _

/-! ## Missing properties -/

/-- An index for the dense elements is stored there, or the write fails. -/
theorem ends_setDense_stored (harray : obj.isArray = true) {idx : Nat} (hd : obj.storesDense idx =
    true) :
    Ends (setDenseArrayValue mem idx val) (fun stored _ => stored = true)
      (fun err _ => err.Severe) obj := by
  simp only [storesDense, Bool.and_eq_true, decide_eq_true_eq] at hd
  obtain ⟨hsm, hplace⟩ := hd
  rw [setDenseArrayValue, ends_bind, ends_get, if_neg (not_lt.mpr hsm)]
  split
  next hex =>
    simp only [PropertyObject.elements, hex, decide_eq_true_eq] at hplace
    rw [if_neg (not_le.mpr hplace), ends_bind]
    exact (severe_growDense none idx val obj).imp (fun _ _ _ => rfl) (fun _ _ h => h)
  next elements hex =>
    simp only [PropertyObject.elements, hex, decide_eq_true_eq] at hplace
    rw [if_neg (not_lt.mpr hplace)]
    split
    · split
      · exact (by decide : DescriptorError.propertyStorageAllocationFailed.Severe)
      · exact rfl
    · rw [ends_bind]
      exact (severe_growDense (some elements) idx val obj).imp (fun _ _ _ => rfl) (fun _ _ h => h)
  next hordinary helems =>
    simp only [isArray] at harray
    split at harray
    next previous hex =>
      cases previous with
      | none => exact absurd hex hordinary
      | some elements => exact absurd hex (helems elements)
    · cases harray

/-- The object does not take the missing property. -/
def ClosedTo (host : PropertyHost) (obj : PropertyObject) (key : PropertyKey) : Prop :=
  obj.isExtensible = false ∧ ¬ (obj.isArray = true ∧ key = host.lengthKey) ∧
    ((obj.lookup key).isSome → obj.isArray = true →
      ∀ index, host.arrayPropertyIndex key = some index → obj.storesDense index = false)

theorem mappedArgumentValue_of_missing (h : (obj.lookup key).bind OwnProperty.stored = none) :
    obj.mappedArgumentValue host key = none := by
  rw [mappedArgumentValue]
  cases obj.mappedArgumentFrame host key with
  | none => rfl
  | some idx =>
    cases hf : obj.lookup key with
    | none => rfl
    | some prop =>
      rw [hf, Option.bind_some] at h
      dsimp only
      rw [if_neg]
      simp only [isWritableData, h, Bool.and_false, Bool.false_eq_true, not_false_iff]

theorem ends_revive_closed (hcl : obj.ClosedTo host key) (hf : (obj.lookup key).isSome) :
    Ends (reviveDataProperty host mem key val) (fun _ _ => False)
      (fun err post => err = .nonExtensibleObject ∧ post = obj) obj := by
  obtain ⟨hext, -, hstructural⟩ := hcl
  rw [reviveDataProperty, ends_bind]
  have htry : Ends (tryDenseArrayValue mem
      ((host.arrayPropertyIndex key).map fun idx => (idx, val)))
      (fun stored post => stored = false ∧ post = obj) (fun _ _ => False) obj := by
    cases harray : obj.isArray with
    | false => exact ends_tryDense_of_listed harray _
    | true =>
      cases hi : host.arrayPropertyIndex key with
      | none => exact ⟨rfl, rfl⟩
      | some idx => exact ends_setDense_structural (hstructural hf harray idx hi)
  refine htry.imp ?_ (fun _ _ hfalse => hfalse.elim)
  rintro _ post ⟨rfl, rfl⟩
  rw [if_neg Bool.false_ne_true, ends_bind, ends_get, hext, Bool.not_false]
  exact ⟨rfl, rfl⟩

theorem ends_revive_open (hopen : ¬ obj.ClosedTo host key) (hlen : ¬ (obj.isArray = true ∧ key =
    host.lengthKey)) :
    Ends (reviveDataProperty host mem key val) (fun _ _ => True) (fun err _ => err.Severe) obj := by
  rw [reviveDataProperty, ends_bind]
  cases hext : obj.isExtensible with
  | true =>
    have htry : Ends (tryDenseArrayValue mem
        ((host.arrayPropertyIndex key).map fun idx => (idx, val)))
        (fun stored post => stored = false → post.isExtensible = true)
        (fun err _ => err.Severe) obj := by
      cases hi : host.arrayPropertyIndex key with
      | none => exact fun _ => hext
      | some idx =>
        cases hd : obj.storesDense idx with
        | false =>
          refine (ends_setDense_structural hd).imp ?_ (fun _ _ hfalse => hfalse.elim)
          rintro _ post ⟨-, rfl⟩ _
          exact hext
        | true =>
          cases harray : obj.isArray with
          | false =>
            refine (ends_tryDense_of_listed harray _).imp ?_ (fun _ _ hfalse => hfalse.elim)
            rintro _ post ⟨-, rfl⟩ _
            exact hext
          | true =>
            refine (ends_setDense_stored harray hd).imp ?_ (fun _ _ h => h)
            rintro stored post rfl hfalse
            cases hfalse
    refine htry.imp ?_ (fun _ _ h => h)
    intro stored post hsto
    cases stored with
    | true => exact severe_grow key post
    | false =>
      rw [if_neg Bool.false_ne_true, ends_bind, ends_get, hsto rfl, Bool.not_true]
      have hremove : (removePropertySlot mem key).FailsOnly DescriptorError.Severe :=
        (severe_request _).bind fun _ => failsOnly_modify _
      exact (hremove.bind fun _ => (severe_add _).bind fun _ => severe_grow key) post
  | false =>
    -- only a dense index is written although the object is not extensible
    obtain ⟨harray, idx, hi, hd⟩ : obj.isArray = true ∧ ∃ idx,
        host.arrayPropertyIndex key = some idx ∧ obj.storesDense idx = true := by
      by_contra hn
      refine hopen ⟨hext, hlen, ?_⟩
      intro _ harray idx hi
      rw [← Bool.not_eq_true]
      exact fun hd => hn ⟨harray, idx, hi, hd⟩
    rw [hi]
    refine (ends_setDense_stored harray hd).imp ?_ (fun _ _ h => h)
    rintro stored post rfl
    exact severe_grow key post

theorem severe_create (key : PropertyKey) (val : Value) :
    (createDataProperty host mem key val).FailsOnly DescriptorError.Severe := by
  refine (severe_tryDense _).bind ?_
  intro stored
  split
  · exact severe_grow key
  · exact (severe_add _).bind fun _ => severe_grow key

/-- A write of a missing property to a closed object fails without a change, and any other one fails
with a severe error only. -/
theorem ends_set_missing (hd : obj.denseArrayValue host key = none) (hmis : (obj.lookup key).bind
    OwnProperty.stored = none) : (obj.ClosedTo host key →
      Ends (setOwnDataProperty host mem key val) (fun _ _ => False)
        (fun err post => err = .nonExtensibleObject ∧ post = obj) obj) ∧ (¬ obj.ClosedTo host key →
        Ends (setOwnDataProperty host mem key val) (fun _ _ => True)
          (fun err _ => err.Severe) obj) := by
  have hsync : Ends (syncMappedArgument host key val) (fun _ post => post = obj)
      (fun _ _ => False) obj := by
    refine (ends_sync key val).imp ?_ (fun _ _ hfalse => hfalse)
    rintro _ post (⟨-, rfl⟩ | ⟨idx, -, hmapped, -⟩)
    · rfl
    · rw [mappedArgumentValue_of_missing hmis] at hmapped
      cases hmapped
  refine ⟨?_, ?_⟩
  · intro hcl
    rw [setOwnDataProperty, ends_bind]
    refine hsync.imp ?_ (fun _ _ hfalse => hfalse.elim)
    rintro _ synced rfl
    rw [ends_bind, ends_get, if_neg hcl.2.1, hd]
    split
    next heq =>
      cases heq
    · cases hf : synced.lookup key with
      | none =>
        rw [hcl.1, Bool.not_false]
        exact ⟨rfl, rfl⟩
      | some prop =>
        rw [hf, Option.bind_some] at hmis
        dsimp only
        rw [hmis]
        exact ends_revive_closed hcl (by rw [hf]; rfl)
  · intro hopen
    rw [setOwnDataProperty, ends_bind]
    refine hsync.imp ?_ (fun _ _ hfalse => hfalse.elim)
    rintro _ synced rfl
    rw [ends_bind, ends_get]
    split
    · exact severe_setLength _ synced
    next hlen =>
      rw [hd]
      split
      next heq =>
        cases heq
      · cases hf : synced.lookup key with
        | none =>
          dsimp only
          split_ifs with hext
          · refine absurd ⟨?_, hlen, ?_⟩ hopen
            · rw [Bool.not_eq_true'] at hext
              exact hext
            · intro hsome
              rw [hf] at hsome
              cases hsome
          · exact severe_create key val synced
        | some prop =>
          rw [hf, Option.bind_some] at hmis
          dsimp only
          rw [hmis]
          exact ends_revive_open hopen hlen

end PropertyObject

end TachyonEngine.Vm
