import TachyonEngine.Vm.PropertyRun

/-!
# The length of an Array

The length is a property whose value is the canonical Number of a 32-bit integer. Read as a double
and truncated it gives the integer back, so the comparisons of the source are comparisons of
integers.
-/

namespace TachyonEngine.Vm

open Lib Lib.Attempt

/-! ## Canonical numbers -/

theorem numericValue_safeInteger (n : Nat) :
    numericValue (safeIntegerValue n) = some (Float.Model.ofInt n) := by
  rw [safeIntegerValue]
  split_ifs with hsm
  · have hint : (Int32.ofNat n).toInt = n := Int32.toInt_ofNat_of_lt hsm
    show some (Float.Model.ofInt (Int32.ofNat n).toInt) = _
    rw [hint]
  · rfl

theorem unpack_injective {m n : Nat} (hm : m < 2 ^ 53) (hn : n < 2 ^ 53)
    (h : (Float.Model.ofInt m).unpack = (Float.Model.ofInt n).unpack) : m = n := by
  have hm := Binary64.toInt_ofNat hm 0 0
  have hn := Binary64.toInt_ofNat hn 0 0
  rw [h, hn] at hm
  exact (Int.ofNat.inj hm).symm

namespace PropertyHost

variable {host : PropertyHost}

theorem eq_of_sameValue_safeInteger {m n : Nat} (hm : m < 2 ^ 53) (hn : n < 2 ^ 53)
    (h : host.sameValue (safeIntegerValue m) (safeIntegerValue n) = true) : m = n := by
  rw [sameValue_iff] at h
  simp only [meaning, numericValue_safeInteger] at h
  exact unpack_injective hm hn (Meaning.number.inj h)

theorem isIntegral_ofNat {n : Nat} (h : n < 2 ^ 53) : isIntegral (Float.Model.ofInt n) = true := by
  rcases eq_zero_or_pos n with rfl | hn
  · rw [isIntegral, Nat.cast_zero, Binary64.unpack_ofInt_zero]
  · have hexp : (-((n.log2 : Int) - 52)).toNat = 52 - n.log2 := by omega
    rw [isIntegral, Binary64.unpack_ofNat hn h]
    simp only [Binary64.unpacked, Binary64.significand, hexp, Nat.mul_mod_left, decide_true,
      Bool.or_true]

theorem isFinite_ofNat {n : Nat} (h : n < 2 ^ 53) : (Float.Model.ofInt n).isFinite = true := by
  rcases eq_zero_or_pos n with rfl | hn
  · rfl
  · rw [Float.Model.isFinite, Binary64.unpack_ofNat hn h]
    rfl

theorem primitiveArrayLength_safeInteger {n : Nat} (h : n < 2 ^ 32) :
    host.primitiveArrayLength (safeIntegerValue n) = .ok n := by
  have hsm : n < 2 ^ 53 := by omega
  have hobject : host.isObjectValue (safeIntegerValue n) = false := by
    rw [safeIntegerValue]
    split
    · rfl
    · rfl
  have hnumber : host.convertToNumber (safeIntegerValue n) = .ok (safeIntegerValue n) := by
    rw [convertToNumber, numericValue_safeInteger]
    rfl
  have hz : (Float.Model.ofInt n).lt (Float.Model.ofInt 0) = false := by
    rw [Bool.eq_false_iff]
    intro hlt
    exact Nat.not_lt_zero n ((Binary64.lt_ofNat hsm (by decide)).mp hlt)
  have hmax : (Float.Model.ofInt (2 ^ 32 - 1)).lt (Float.Model.ofInt n) = false := by
    rw [Bool.eq_false_iff]
    intro hlt
    have hlt : 2 ^ 32 - 1 < n := (Binary64.lt_ofNat (a := 2 ^ 32 - 1) (by decide) hsm).mp hlt
    omega
  rw [primitiveArrayLength, hobject, hnumber]
  simp only [numericValue_safeInteger, isFinite_ofNat hsm, isIntegral_ofNat hsm, hz,
    hmax, Bool.not_true, Bool.or_self, Bool.false_eq_true, if_false, Binary64.toUInt32_ofNat h]

end PropertyHost

namespace PropertyObject

variable {host : PropertyHost} {mem : MemoryRequest → Bool} {obj post : PropertyObject}
  {key : PropertyKey}

/-! ## Arrays with a length -/

/-- A well-formed Array whose length is `length`; the flag tells whether it is writable. -/
structure HasLength (host : PropertyHost) (obj : PropertyObject) (length : Nat)
    (writable : Bool) : Prop where
  wellFormed : obj.WellFormed host
  array : obj.isArray = true
  small : length < 2 ^ 32
  stored : ∃ property, obj.lookup host.lengthKey = some property ∧
    property.payload = .data (safeIntegerValue length) ∧
    property.attributes.writable = writable ∧ property.attributes.enumerable = false ∧
    property.attributes.configurable = false

theorem index_lengthKey (host : PropertyHost) : host.arrayPropertyIndex host.lengthKey = none :=
  AtomTable.index_lengthAtom host.atoms

theorem denseArrayValue_lengthKey (obj : PropertyObject) :
    obj.denseArrayValue host host.lengthKey = none := by
  rw [denseArrayValue_eq, index_lengthKey]
  rfl

theorem mappedArgumentFrame_of_array (h : obj.isArray = true) (key : PropertyKey) :
    obj.mappedArgumentFrame host key = none := by
  simp only [isArray] at h
  simp only [mappedArgumentFrame]
  split at h
  next hex =>
    rw [hex]
  · cases h

theorem mappedArgumentValue_of_array (h : obj.isArray = true) (key : PropertyKey) :
    obj.mappedArgumentValue host key = none := by
  rw [mappedArgumentValue, mappedArgumentFrame_of_array h]

namespace HasLength

variable {length : Nat} {writable : Bool}

section

variable (h : obj.HasLength host length writable)

include h

/-- The length as the source reads it. -/
theorem arrayLength_eq : obj.arrayLength host = some (Float.Model.ofInt length, some writable) := by
  obtain ⟨prop, hf, hpay, hw, -, -⟩ := h.stored
  simp only [arrayLength, completeOwnPropertyDescriptor, denseArrayValue_lengthKey, hf,
    h.wellFormed.stored_lookup hf, hpay, Option.map_some,
    mappedArgumentValue_of_array h.array, Option.getD_none, hw, Option.bind_some,
    numericValue_safeInteger]

theorem truncated_eq :
    (Float.Model.ofInt length).toUInt32.toNat = length := Binary64.toUInt32_ofNat h.small

/-- The length property is the only thing that matters. -/
theorem of_lookup (ha : post.WellFormed host) (harray : post.isArray = true)
    (hs : post.lookup host.lengthKey = obj.lookup host.lengthKey) :
    post.HasLength host length writable :=
  ⟨ha, harray, h.small, hs ▸ h.stored⟩

end

end HasLength

/-! ## Redefining the length -/

theorem redefined_writable_data (prop : OwnProperty) {val : Value}
    (hpay : prop.payload = .data val) (data : DataPropertyDescriptor) :
    (redefined prop (.data data)).attributes.writable =
      data.writable.getD prop.attributes.writable := by
  rw [redefined_writable]
  simp only [redefinedWritable, OwnProperty.kind, hpay, StoredProperty.kind]

/-- Flags that stay the same are the same attributes. -/
theorem redefined_attributes_eq (prop : OwnProperty) (desc : PropertyDescriptor)
    (hw : redefinedWritable prop desc = prop.attributes.writable)
    (henumerable : desc.enumerable.getD prop.attributes.enumerable = prop.attributes.enumerable)
    (hconf : desc.configurable.getD prop.attributes.configurable = prop.attributes.configurable) :
    prop.attributes = (redefined prop desc).attributes := by
  simp only [redefined, hw, henumerable, hconf]
  obtain ⟨key, ⟨writable, enumerable, configurable, origin⟩, payload⟩ := prop
  cases origin with
  | false | true => rfl

theorem getD_false_of_ne {flag : Option Bool} (h : flag ≠ some true) : flag.getD false = false := by
  cases flag with
  | none => rfl
  | some val =>
    cases val with
    | false => rfl
    | true => exact absurd rfl h

/-- What the validation asks of a data descriptor for the length. -/
theorem validate_length_iff (host : PropertyHost) {prop : OwnProperty} {val : Value}
    (hpay : prop.payload = .data val) (henumerable : prop.attributes.enumerable = false)
    (hconf : prop.attributes.configurable = false) (data : DataPropertyDescriptor) :
    validatePropertyRedefinition host prop prop.payload (.data data) = true ↔
      data.configurable ≠ some true ∧ data.enumerable ≠ some true ∧
        (prop.attributes.writable = true ∨
          data.writable ≠ some true ∧ agrees host data.value val = true) := by
  have hflag : data.enumerable.all (fun flag => decide (flag = false)) = true ↔
      data.enumerable ≠ some true := by
    cases data.enumerable with
    | none => exact ⟨fun _ h => (nomatch h), fun _ => rfl⟩
    | some flag =>
      cases flag with
      | false => exact ⟨fun _ h => (nomatch h), fun _ => rfl⟩
      | true => exact ⟨fun h => absurd h (by decide), fun h => absurd rfl h⟩
  have hk : (PropertyDescriptor.data data).requestedKind.all
      (fun kind => decide (kind = prop.kind)) = true := by
    simp only [PropertyDescriptor.requestedKind, Option.all_some, OwnProperty.kind, hpay,
      StoredProperty.kind, decide_true]
  simp only [validatePropertyRedefinition, hconf, Bool.false_or, hk, hpay,
    henumerable, Bool.and_true, Bool.and_eq_true, Bool.or_eq_true, decide_eq_true_eq]
  simp only [PropertyDescriptor.configurable, PropertyDescriptor.enumerable, hflag, and_assoc]

/-- A redefinition of the length by a data descriptor: what it leaves, and why it may fail. -/
theorem ends_redefineLength {length : Nat} {writable : Bool}
    (h : obj.HasLength host length writable) (data : DataPropertyDescriptor) {next : Nat}
    (hv : data.value = some (safeIntegerValue next) ∨ data.value = none ∧ next = length)
    (hn : next < 2 ^ 32) : Ends (redefineArrayLength host mem (.data data))
      (fun _ post => (∀ other, other ≠ host.lengthKey → post.lookup other = obj.lookup other) ∧
        post.exotic = obj.exotic ∧ post.HasLength host next (data.writable.getD writable) ∧
        (writable = false → next = length ∧ data.writable.getD writable = false) ∧
        data.enumerable ≠ some true ∧ data.configurable ≠ some true) (fun err post => post = obj ∧
        (writable = true → data.enumerable ≠ some true → data.configurable ≠ some true →
          data.writable = some false ∧ err = .refused (.reconfiguration host.lengthKey) ∧
            mem (.reconfiguration host.lengthKey) = false)) obj := by
  obtain ⟨prop, hf, hpay, hw, henumerable, hconf⟩ := h.stored
  obtain ⟨hm, hkey⟩ := lookup_eq_some hf
  have hsto := h.wellFormed.stored_lookup hf
  have hvalidate := validate_length_iff host hpay henumerable hconf data
  have hgiven : data.value.getD (safeIntegerValue length) = safeIntegerValue next := by
    rcases hv with hv | ⟨hv, rfl⟩
    · rw [hv, Option.getD_some]
    · rw [hv, Option.getD_none]
  rw [redefineArrayLength, ends_bind, ends_get, hf]
  dsimp only
  rw [hsto]
  refine (ends_redefinePresentProperty prop (.data data)).imp ?_ ?_
  · rintro _ post ⟨hpass, rfl, -⟩
    obtain ⟨hconfigure, henumerate, hcontent⟩ := hvalidate.mp hpass
    have hdesc : (PropertyDescriptor.data data).Valid host := by
      intro hhole
      rcases hv with hv | ⟨hv, -⟩
      · rw [hv] at hhole
        exact safeIntegerValue_ne next (Option.some.inj hhole)
      · rw [hv] at hhole
        cases hhole
    have hrepl : obj.lookup (redefined prop (.data data)).key = some prop := by
      rw [redefined_key, hkey, hf]
    have hlook := lookup_replaced hrepl
    have ha := Change.wellFormed h.wellFormed (.redefine prop _ (hkey.symm ▸ hf)
      (redefines_of_validate (h.wellFormed.valid prop hm) hdesc hpass))
    refine ⟨?_, rfl, ⟨ha, h.array, hn, redefined prop (.data data), ?_, ?_, ?_, ?_, ?_⟩,
      ?_, henumerate, hconfigure⟩
    · intro other ho
      rw [hlook, if_neg]
      rw [redefined_key, hkey]
      exact ho
    · rw [hlook, if_pos]
      rw [redefined_key, hkey]
    · simp only [redefined, redefinedPayload, hpay, hgiven]
    · rw [redefined_writable_data prop hpay, hw]
    · rw [redefined_enumerable, henumerable]
      exact getD_false_of_ne henumerate
    · rw [redefined_configurable, hconf]
      exact getD_false_of_ne hconfigure
    · intro hro
      rw [hw, hro] at hcontent
      obtain ⟨hflag, hagrees⟩ := hcontent.resolve_left Bool.false_ne_true
      refine ⟨?_, ?_⟩
      · rcases hv with hv | ⟨-, hs⟩
        · rw [hv] at hagrees
          exact PropertyHost.eq_of_sameValue_safeInteger (lt_trans hn (by decide))
            (lt_trans h.small (by decide)) hagrees
        · exact hs
      · rw [hro]
        exact getD_false_of_ne hflag
  · rintro _ post ⟨rfl, hreason⟩
    refine ⟨rfl, ?_⟩
    intro hwrite henumerate hconfigure
    have hpass := hvalidate.mpr ⟨hconfigure, henumerate, .inl (hw.trans hwrite)⟩
    rcases hreason hpass with hk | ⟨herr, href, hchanged⟩
    · cases hk
    · rw [hkey] at herr href
      refine ⟨?_, herr, href⟩
      by_contra hflag
      have hs : prop.attributes = (redefined prop (.data data)).attributes := by
        apply redefined_attributes_eq
        · rw [← redefined_writable, redefined_writable_data prop hpay, hw, hwrite]
          cases hfield : data.writable with
          | none => rfl
          | some flag =>
            cases flag with
            | false => exact absurd hfield hflag
            | true => rfl
        · rw [henumerable]
          exact getD_false_of_ne henumerate
        · rw [hconf]
          exact getD_false_of_ne hconfigure
      rcases hchanged with hk | hattrs
      · rw [hpay] at hk
        exact hk rfl
      · exact hattrs hs

end PropertyObject

end TachyonEngine.Vm
