import TachyonEngine.Vm.ArrayShrink

/-!
# Array objects

An Array keeps three things: an index is dense or in the list of properties and not both, the length
is a 32-bit integer above every index that is present, and a read-only length stays what it is. The
operations keep them, with two exceptions in which the second half of an operation fails after the
first half was published. An assignment to a missing index at or past a read-only length creates the
element and then cannot raise the length. A shorter length is published before the elements above it
are listed and deleted, and a refused request for memory leaves them there.
-/

namespace TachyonEngine.Vm

open Lib Lib.Attempt
open Relation (ReflTransGen)

namespace PropertyObject

variable {host : PropertyHost} {mem : MemoryRequest → Bool} {obj post : PropertyObject}
  {key : PropertyKey} {length : Nat} {writable : Bool}

/-- Every index that is present is below the length. -/
def Bounded (host : PropertyHost) (obj : PropertyObject) (length : Nat) : Prop :=
  ∀ key idx, host.arrayPropertyIndex key = some idx → (obj.ownProperty host key).isSome →
    idx < length

/-- The invariant of an Array. That an index has one place is a part of `WellFormed`. -/
def ArrayExotic (host : PropertyHost) (obj : PropertyObject) : Prop :=
  ∃ length writable, obj.HasLength host length writable ∧ Bounded host obj length

theorem Bounded.of_subset (h : Bounded host obj length)
    (hsub : ∀ key idx, host.arrayPropertyIndex key = some idx →
      (post.ownProperty host key).isSome → (obj.ownProperty host key).isSome) :
    Bounded host post length :=
  fun key idx hi hpres => h key idx hi (hsub key idx hi hpres)

variable {next newLength idx : Nat}

/-- After a new index the length grows past it, and this cannot fail if the length is writable. -/
theorem ends_grow (h : obj.HasLength host length writable)
    (hi : host.arrayPropertyIndex key = some idx) (hguard : length ≤ idx → writable = true) :
    Ends (growArrayLengthForIndexProperty host mem key)
      (fun _ post => (∀ other, other ≠ host.lengthKey → post.lookup other = obj.lookup other) ∧
        post.exotic = obj.exotic ∧ post.HasLength host (max length (idx + 1)) writable)
      (fun _ _ => False) obj := by
  have hsm := index_lt hi
  have hlen : length < 2 ^ 53 := lt_trans h.small (by decide)
  have hnx : (Float.Model.ofInt idx).add (Float.Model.ofInt 1) =
      Float.Model.ofInt (idx + 1 : Nat) :=
    Binary64.ofInt_add (a := idx) (b := 1) (by omega) (by decide) (by omega)
  rw [growArrayLengthForIndexProperty, ends_bind, ends_get, if_pos h.array, hi]
  simp only [h.arrayLength_eq, Option.map_some, Option.getD_some, hnx]
  by_cases hgrow : length < idx + 1
  · have hw := hguard (by omega)
    rw [if_pos ((Binary64.lt_ofNat hlen (by omega)).mpr hgrow),
      Binary64.toUInt64_ofNat (by omega), setArrayLengthValue, arraySetLengthDescriptor]
    simp only [PropertyDescriptor.value, PropertyHost.primitiveArrayLength_safeInteger hsm]
    rw [ends_setLength_longer h _ (by omega), max_eq_right (by omega)]
    refine (ends_redefineLength h _ (.inl rfl) hsm).imp ?_ ?_
    · rintro _ post ⟨hlook, hex, ha, -⟩
      exact ⟨hlook, hex, ha⟩
    · rintro _ post ⟨-, href⟩
      have hn : (none : Option Bool) ≠ some true := fun h => by cases h
      cases (href hw hn hn).1
  · rw [if_neg, max_eq_left (by omega)]
    · exact ⟨fun _ _ => rfl, rfl, h⟩
    · rw [Binary64.lt_ofNat hlen (by omega)]
      exact hgrow

/-! ## A shorter length -/

/-- The removals that a shorter length asks for are granted: those of the indices in the list that
are above every index that stays. -/
def RemovalsGranted (host : PropertyHost) (mem : MemoryRequest → Bool) (obj : PropertyObject)
    (newLength : Nat) : Prop :=
  ∀ key idx, host.arrayPropertyIndex key = some idx → newLength ≤ idx → (obj.lookup key).isSome →
    (∀ other blocked, Blocks host obj newLength other blocked → blocked < idx) →
    mem (.removal key) = true

/-- A change of the length property leaves the indices where they are. -/
theorem bounded_of_others (hlook : ∀ other, other ≠ host.lengthKey →
      post.lookup other = obj.lookup other) (hex : post.exotic = obj.exotic)
    (hbd : Bounded host obj length) : Bounded host post length := by
  refine hbd.of_subset ?_
  intro key idx hi hpres
  rw [ownProperty_congr hex (hlook key (ne_lengthKey hi))] at hpres
  exact hpres

section

variable (h : obj.HasLength host length writable)

include h

/-- The memory that a shorter length needs, if there is an index to delete. -/
structure ShrinkGranted (host : PropertyHost) (mem : MemoryRequest → Bool)
    (obj : PropertyObject) (newLength : Nat) (data : DataPropertyDescriptor) : Prop where
  listing : mem .ownKeys = true
  removals : RemovalsGranted host mem obj newLength
  restoring : data.writable = some false → (∃ key idx, Blocks host obj newLength key idx) →
    mem (.reconfiguration host.lengthKey) = true

/-- A shorter length keeps the invariant if the memory for the deletions is granted. -/
theorem ends_setLength_shorter (hbd : Bounded host obj length)
    (data : DataPropertyDescriptor) (hshorter : next < length)
    (hgr : writable = true → data.enumerable ≠ some true → data.configurable ≠ some true →
      (∃ key idx, host.arrayPropertyIndex key = some idx ∧ next ≤ idx ∧
        (obj.ownProperty host key).isSome) → ShrinkGranted host mem obj next data) :
    Ends (arraySetLengthDescriptorCanonical host mem (.data data) next)
      (fun _ post => ArrayExotic host post) (fun _ post => ArrayExotic host post) obj := by
  have hbelow : ∀ {bound left}, CutAt host obj bound left → Bounded host left bound := by
    intro bound left hcut key idx hi hpres
    by_contra hle
    rw [hcut.gone key idx hi (by omega)] at hpres
    cases hpres
  refine (ends_shorten h data hshorter).imp ?_ ?_
  · rintro _ post ⟨-, -, hs⟩
    exact ⟨next, _, hs.hasLength, hbelow hs.cut⟩
  · rintro err post (⟨rfl, -⟩ | ⟨⟨hw, henumerable, hconf⟩, ⟨idx, -, -, hs⟩ | ⟨asked, -, href⟩⟩)
    · exact ⟨length, writable, h, hbd⟩
    · exact ⟨idx + 1, _, hs.hasLength, hbelow hs.cut⟩
    · -- what is refused is granted, or it leaves the invariant
      have hgr := hgr hw henumerable hconf
      cases href with
      | listing published kept refused =>
        refine ⟨next, true, published, ?_⟩
        intro key idx hi hpres
        by_contra hle
        rw [kept key (ne_lengthKey hi)] at hpres
        rw [(hgr ⟨key, idx, hi, by omega, hpres⟩).listing] at refused
        cases refused
      | @removal key idx _ refused =>
        have hpres := (isSome_ownProperty h.wellFormed key).mpr (.inr refused.listed)
        have hgrant := (hgr ⟨key, idx, refused.spelled, refused.removed, hpres⟩).removals key idx
          refused.spelled refused.removed refused.listed refused.above
        rw [refused.refused] at hgrant
        cases hgrant
      | @restoring idx _ frozen blocks refused =>
        obtain ⟨key, hblocks⟩ := blocks.1
        have hgrant := hgr ⟨key, idx, hblocks.1, hblocks.2.1, hblocks.present h.wellFormed⟩
        rw [hgrant.restoring frozen ⟨key, idx, hblocks⟩] at refused
        cases refused
      | freezing published cut _ => exact ⟨next, true, published, hbelow cut⟩

/-! ## Setting the length -/

variable {desc : PropertyDescriptor}

/-- A redefinition without a value leaves the length where it is. -/
theorem ends_redefineLength_novalue (hbd : Bounded host obj length) (hdesc : desc.Valid host) (hv :
    desc.value = none) : Ends (redefineArrayLength host mem desc)
      (fun _ post => ArrayExotic host post) (fun _ post => ArrayExotic host post) obj := by
  have hex : ArrayExotic host obj := ⟨length, writable, h, hbd⟩
  cases desc with
  | data data =>
    refine (ends_redefineLength h data (.inr ⟨hv, rfl⟩) h.small).imp ?_ ?_
    · rintro _ post ⟨hlook, hs, ha, -⟩
      exact ⟨length, _, ha, bounded_of_others hlook hs hbd⟩
    · rintro _ post ⟨rfl, -⟩
      exact hex
  | generic generic =>
    obtain ⟨prop, hf, hpay, hw, henumerable, hconf⟩ := h.stored
    obtain ⟨hm, hkey⟩ := lookup_eq_some hf
    rw [redefineArrayLength, ends_bind, ends_get, hf]
    dsimp only
    rw [h.wellFormed.stored_lookup hf]
    refine (ends_redefinePresentProperty prop _).imp ?_ ?_
    · rintro _ post ⟨hpass, rfl, -⟩
      have hredefines := redefines_of_validate (h.wellFormed.valid prop hm) hdesc hpass
      have hrepl : obj.lookup (redefined prop (.generic generic)).key = some prop := by
        rw [redefined_key, hkey, hf]
      have hlook := lookup_replaced hrepl
      obtain ⟨hfixed, hs, -⟩ := hredefines.kept hconf
      refine ⟨length, writable, ⟨?_, h.array, h.small, redefined prop (.generic generic),
        ?_, hpay, ?_, hs.trans henumerable, hfixed⟩, ?_⟩
      · exact Change.wellFormed h.wellFormed (.redefine prop _ (hkey.symm ▸ hf) hredefines)
      · rw [hlook, if_pos]
        rw [redefined_key, hkey]
      · rw [redefined_writable]
        simp only [redefinedWritable, OwnProperty.kind, hpay, StoredProperty.kind, hw]
      · refine bounded_of_others ?_ ?_ hbd
        · intro other ho
          rw [hlook, if_neg]
          rw [redefined_key, hkey]
          exact ho
        · rfl
    · rintro _ post ⟨rfl, -⟩
      exact hex
  | accessor accessor =>
    obtain ⟨prop, hf, hpay, -, -, hconf⟩ := h.stored
    obtain ⟨hm, hkey⟩ := lookup_eq_some hf
    rw [redefineArrayLength, ends_bind, ends_get, hf]
    dsimp only
    rw [h.wellFormed.stored_lookup hf]
    refine (ends_redefinePresentProperty prop _).imp ?_ ?_
    · rintro _ post ⟨hpass, -⟩
      -- an accessor cannot take the place of the length
      obtain ⟨-, -, hs⟩ := (redefines_of_validate (h.wellFormed.valid prop hm)
        hdesc hpass).kept hconf
      simp only [SameContent, redefined, redefinedPayload, hpay] at hs
    · rintro _ post ⟨rfl, -⟩
      exact hex

omit h in
theorem primitiveArrayLength_lt {val : Value} (h : host.primitiveArrayLength val = .ok newLength) :
    newLength < 2 ^ 32 := by
  simp only [PropertyHost.primitiveArrayLength] at h
  split at h
  · cases h
  · split at h
    · cases h
    · split at h
      · cases h
      · split_ifs at h
        cases h
        exact UInt32.toNat_lt _

theorem ends_setLengthCanonical (hbd : Bounded host obj length)
    (desc : PropertyDescriptor) (hn : next < 2 ^ 32)
    (hgr : ∀ data, desc = .data data → writable = true → data.enumerable ≠ some true →
      data.configurable ≠ some true →
      (∃ key idx, host.arrayPropertyIndex key = some idx ∧ next ≤ idx ∧
        (obj.ownProperty host key).isSome) → ShrinkGranted host mem obj next data) :
    Ends (arraySetLengthDescriptorCanonical host mem desc next)
      (fun _ post => ArrayExotic host post) (fun _ post => ArrayExotic host post) obj := by
  have hex : ArrayExotic host obj := ⟨length, writable, h, hbd⟩
  have ho : ∀ desc, (∀ data, desc ≠ .data data) →
      Ends (arraySetLengthDescriptorCanonical host mem desc next)
        (fun _ post => ArrayExotic host post) (fun _ post => ArrayExotic host post) obj := by
    intro desc hdesc
    rw [arraySetLengthDescriptorCanonical, ends_bind, ends_get, h.arrayLength_eq]
    dsimp only
    split
    · exact absurd rfl (hdesc _)
    · exact hex
  cases desc with
  | generic generic | accessor accessor => exact ho _ fun _ h => by cases h
  | data data =>
    by_cases hlonger : length ≤ next
    · rw [ends_setLength_longer h data hlonger]
      refine (ends_redefineLength h _ (.inl rfl) hn).imp ?_ ?_
      · rintro _ post ⟨hlook, hs, ha, -⟩
        have hmore : Bounded host obj next := fun key idx hi hpres =>
          lt_of_lt_of_le (hbd key idx hi hpres) hlonger
        exact ⟨next, _, ha, bounded_of_others hlook hs hmore⟩
      · rintro _ post ⟨rfl, -⟩
        exact hex
    · exact ends_setLength_shorter h hbd data (by omega) (hgr data rfl)

theorem ends_setLength (hbd : Bounded host obj length) (hdesc : desc.Valid host) (hgr : ∀ data val
    next, desc = .data data → data.value = some val → host.primitiveArrayLength val = .ok next →
    writable = true → data.enumerable ≠ some true → data.configurable ≠ some true → (∃ key idx,
    host.arrayPropertyIndex key = some idx ∧ next ≤ idx ∧ (obj.ownProperty host key).isSome) →
    ShrinkGranted host mem obj next data) :
    Ends (arraySetLengthDescriptor host mem desc)
      (fun _ post => ArrayExotic host post) (fun _ post => ArrayExotic host post) obj := by
  rw [arraySetLengthDescriptor]
  split
  next hv =>
    exact ends_redefineLength_novalue h hbd hdesc hv
  next val hv =>
    split
    · exact ⟨length, writable, h, hbd⟩
    next next hn =>
      refine ends_setLengthCanonical h hbd desc (primitiveArrayLength_lt hn) ?_
      rintro data rfl
      exact hgr data val next rfl hv hn

/-! ## Creating an index -/

/-- The object after the first half of a definition: at most one index is new, and the length is as
before. -/
structure Creates (host : PropertyHost) (obj : PropertyObject) (key : PropertyKey)
    (length : Nat) (writable : Bool) (post : PropertyObject) : Prop where
  hasLength : post.HasLength host length writable
  present : ∀ other, (post.ownProperty host other).isSome →
    other = key ∨ (obj.ownProperty host other).isSome

theorem Creates.refl (key : PropertyKey) :
    Creates host obj key length writable obj := ⟨h, fun _ hpres => .inr hpres⟩

omit h in
theorem Creates.exotic (hcreates : Creates host obj key length writable post)
    (hbd : Bounded host obj length)
    (hguard : ∀ idx, host.arrayPropertyIndex key = some idx → idx < length) :
    ArrayExotic host post := by
  refine ⟨length, writable, hcreates.hasLength, ?_⟩
  intro other idx hi hpres
  rcases hcreates.present other hpres with rfl | hpres
  · exact hguard idx hi
  · exact hbd other idx hi hpres

omit h in
/-- The second half: the length follows the new index, and this does not fail. -/
theorem Creates.ends_grow (hcreates : Creates host obj key length writable post)
    (hguard : ∀ idx, host.arrayPropertyIndex key = some idx → length ≤ idx →
      writable = true) : Ends (growArrayLengthForIndexProperty host mem key)
      (fun _ final => Bounded host obj length → ArrayExotic host final) (fun _ _ => False)
      post := by
  cases hix : host.arrayPropertyIndex key with
  | none =>
    rw [growArrayLengthForIndexProperty, ends_bind, ends_get, if_pos hcreates.hasLength.array, hix]
    exact fun hbd => hcreates.exotic hbd fun _ h => by rw [hix] at h; cases h
  | some idx =>
    refine (PropertyObject.ends_grow hcreates.hasLength hix (hguard idx hix)).imp ?_
      (fun _ _ hfalse => hfalse.elim)
    rintro _ final ⟨hlook, hs, hfinal⟩ hbd
    refine ⟨_, writable, hfinal, bounded_of_others hlook hs ?_⟩
    intro other i hi hpres
    rcases hcreates.present other hpres with rfl | hpres
    · obtain rfl := Option.some.inj (hi.symm.trans hix)
      exact lt_of_lt_of_le (Nat.lt_succ_self i) (le_max_right length (i + 1))
    · exact lt_of_lt_of_le (hbd other i hi hpres) (le_max_left length (idx + 1))

variable {prop : OwnProperty}

theorem creates_append (ha : (obj.withProperties (obj.properties ++ [prop])).WellFormed host) (hnew
    : obj.lookup prop.key = none) : Creates host obj prop.key length writable
      (obj.withProperties (obj.properties ++ [prop])) := by
  refine ⟨h.of_lookup ha h.array ?_, ?_⟩
  · rw [lookup_append hnew, if_neg]
    intro heq
    obtain ⟨found, hf, -⟩ := h.stored
    rw [heq, hnew] at hf
    cases hf
  · intro other hpres
    by_cases hkey : other = prop.key
    · exact .inl hkey
    · rw [isSome_ownProperty ha, lookup_append hnew, if_neg hkey] at hpres
      exact .inr ((isSome_ownProperty h.wellFormed other).mpr hpres)

theorem creates_replaced {old : OwnProperty} (ha : (obj.withProperties (replaced prop
    obj.properties)).WellFormed host) (hf : obj.lookup prop.key = some old) (hkey : prop.key ≠
    host.lengthKey) :
    Creates host obj prop.key length writable
      (obj.withProperties (replaced prop obj.properties)) := by
  refine ⟨h.of_lookup ha h.array ?_, ?_⟩
  · rw [lookup_replaced hf, if_neg (Ne.symm hkey)]
  · intro other hpres
    by_cases ho : other = prop.key
    · exact .inl ho
    · rw [isSome_ownProperty ha, lookup_replaced hf, if_neg ho] at hpres
      exact .inr ((isSome_ownProperty h.wellFormed other).mpr hpres)

theorem creates_dense {start : PropertyObject} (hix : host.arrayPropertyIndex key = some idx)
    {written : Option Value} (hwrite : start.DenseWrite idx written post)
    (ha : post.WellFormed host) (hs : start.denseAt = obj.denseAt)
    (hlook : ∀ other, other ≠ key → start.lookup other = obj.lookup other) :
    Creates host obj key length writable post := by
  obtain ⟨harray, elements, hbacked, rfl, hvalues⟩ := hwrite
  refine ⟨h.of_lookup ha rfl ?_, ?_⟩
  · rw [lookup_withElements, hlook]
    exact (ne_lengthKey hix).symm
  · intro other hpres
    by_cases ho : other = key
    · exact .inl ho
    · rw [isSome_ownProperty ha, lookup_withElements, hlook other ho,
        denseArrayValue_withElements] at hpres
      refine .inr ((isSome_ownProperty h.wellFormed other).mpr ?_)
      rcases hpres with hpres | hpres
      · obtain ⟨val, hv⟩ := Option.isSome_iff_exists.mp hpres
        obtain ⟨i, hi, helement⟩ := Option.bind_eq_some_iff.mp hv
        rw [hvalues, hs] at helement
        split_ifs at helement with heq
        · rw [heq] at hi
          exact absurd (key_of_index hix hi) ho
        · refine .inl ?_
          rw [denseArrayValue_eq, hi, Option.bind_some, helement]
          rfl
      · exact .inr hpres

end

end PropertyObject

end TachyonEngine.Vm

