import TachyonEngine.Vm.ArrayExotic

/-!
# Runs on an Array

Every operation on an Array keeps `ArrayExotic`, however it ends, if it is none of the two that
leave their second half undone: an assignment that creates an index at or past a read-only length,
and a shorter length whose deletions are refused memory. `KeepsExotic` says so of a step, and a run
of such steps never leaves the invariant.
-/

namespace TachyonEngine.Vm

open Lib Lib.Attempt Option
open Relation (ReflTransGen)
open PropertyOperation

namespace PropertyObject

variable {host : PropertyHost} {mem : MemoryRequest → Bool} {obj post : PropertyObject}
  {key : PropertyKey} {desc : PropertyDescriptor} {length : Nat} {writable : Bool}

/-- The computation leaves an Array with the invariant, however it ends. -/
abbrev EndsExotic {α : Type} (host : PropertyHost) (run : ObjectM α)
    (obj : PropertyObject) : Prop :=
  run.Ends (fun _ => ArrayExotic host) (fun _ => ArrayExotic host) obj

/-- A definition on an Array keeps the invariant, and if it fails nothing has changed. -/
abbrev DefinesExotic {α : Type} (host : PropertyHost) (run : ObjectM α) (obj : PropertyObject)
    (length : Nat) : Prop :=
  run.Ends (fun _ post => Bounded host obj length → ArrayExotic host post)
    (fun _ post => post = obj) obj

/-! ## Defining an index -/

section

variable (h : obj.HasLength host length writable)

include h

/-- A new index is dense or in the list, and then the length follows it. -/
theorem exotic_create (hext : obj.isExtensible = true) (hab : obj.ownProperty host key = none)
    (hguard : ∀ idx, host.arrayPropertyIndex key = some idx → length ≤ idx → writable = true)
    {candidate : Option (Nat × Value)}
    (hcand : ∀ idx val, candidate = some (idx, val) →
      host.arrayPropertyIndex key = some idx ∧ val ≠ PropertyStorage.hole)
    {publish : ObjectM Unit} {prop : OwnProperty} (hkey : prop.key = key)
    (hval : prop.payload.Valid host)
    (hpublish : publish.Ends (fun _ post => post = obj.withProperties (obj.properties ++ [prop]) ∧
        mem (.addition key) = true)
      (fun _ post => post = obj) obj) :
    DefinesExotic host (do
        let stored ← tryDenseArrayValue mem candidate
        if stored then growArrayLengthForIndexProperty host mem key
        else do
          publish
          growArrayLengthForIndexProperty host mem key) obj length := by
  obtain ⟨-, hnew⟩ := h.wellFormed.absent_iff.mp hab
  rw [DefinesExotic, ends_bind]
  refine (ends_tryDense h.wellFormed hcand).imp ?_ ?_
  · intro stored post hsto
    cases stored with
    | true =>
      obtain ⟨idx, val, heq, hwrite⟩ := hsto
      obtain ⟨hi, -⟩ := hcand idx val heq
      have hch := change_write h.wellFormed hi hnew (fun _ => hext) hwrite
      have hcreates := creates_dense h hi hwrite (hch.wellFormed h.wellFormed) rfl (fun _ _ => rfl)
      exact (hcreates.ends_grow hguard).imp (fun _ _ hex => hex) (fun _ _ hfalse => hfalse.elim)
    | false =>
      obtain rfl : post = obj := hsto
      subst hkey
      rw [if_neg Bool.false_ne_true, ends_bind]
      refine hpublish.imp ?_ ?_
      · rintro _ final ⟨rfl, -⟩
        have hch := Change.add prop hab hext hval
        have hcreates := creates_append h (hch.wellFormed h.wellFormed) hnew
        exact (hcreates.ends_grow hguard).imp (fun _ _ hex => hex) (fun _ _ hfalse => hfalse.elim)
      · exact fun _ _ hs => hs
  · exact fun _ _ hs => hs

/-- A dense element takes a new value or moves to the list. -/
theorem exotic_defineDense {cur : Value}
    (hd : obj.denseArrayValue host key = some cur) (hdesc : desc.Valid host) :
    DefinesExotic host (defineDenseProperty host mem key cur desc) obj length := by
  have hpres : (obj.ownProperty host key).isSome := by
    rw [WellFormed.ownProperty_of_dense hd]
    rfl
  have hbl : Bounded host obj length → ∀ idx, host.arrayPropertyIndex key = some idx →
      idx < length := fun hbounded idx hix => hbounded key idx hix hpres
  have hnew := h.wellFormed.separate key cur hd
  refine (ends_defineDense h.wellFormed hd hdesc).imp ?_ ?_
  · rintro _ post (rfl | ⟨idx, hix, ⟨val, -, hwrite⟩ | hwrite⟩) hbounded
    · exact ⟨length, writable, h, hbounded⟩
    · have hch : Change host obj post := by
        refine change_write h.wellFormed hix hnew ?_ hwrite
        intro hab
        rw [hab] at hpres
        cases hpres
      have hcreates := creates_dense h hix hwrite (hch.wellFormed h.wellFormed) rfl (fun _ _ => rfl)
      exact hcreates.exotic hbounded (hbl hbounded)
    · obtain ⟨i, hi, helement⟩ := bind_eq_some_iff.mp hd
      have hval := valid_created (valid_preserved (denseAt_ne_hole h.wellFormed helement) hdesc) key
      have hch : Change host obj post := change_convert (created key _) hd hval hix hwrite
      have hcreates := creates_dense h hix hwrite (hch.wellFormed h.wellFormed) rfl ?_
      · exact hcreates.exotic hbounded (hbl hbounded)
      · intro other ho
        rw [lookup_append hnew, if_neg]
        exact ho
  · exact fun _ _ hs => hs

theorem exotic_defineOwn (hkey : key ≠ host.lengthKey) (hdesc : desc.Valid host)
    (hguard : ∀ idx, host.arrayPropertyIndex key = some idx → length ≤ idx → writable = true) :
    DefinesExotic host (defineOwnProperty host mem key desc) obj length := by
  rw [DefinesExotic, defineOwnProperty, ends_bind, ends_get]
  cases hd : obj.denseArrayValue host key with
  | some cur => exact exotic_defineDense h hd hdesc
  | none =>
    cases hf : obj.lookup key with
    | some prop =>
      obtain ⟨hm, rfl⟩ := lookup_eq_some hf
      simp only [bind_some, h.wellFormed.stored_lookup hf, map_some]
      rw [ends_bind]
      refine (ends_redefinePresentProperty prop desc).imp ?_ ?_
      · rintro _ post ⟨hpass, rfl, -⟩
        have hredefines := redefines_of_validate (h.wellFormed.valid prop hm) hdesc hpass
        have hch := Change.redefine prop _ hf hredefines
        have hcreates := creates_replaced h (hch.wellFormed h.wellFormed) hf hkey
        exact (hcreates.ends_grow hguard).imp (fun _ _ hex => hex) (fun _ _ hfalse => hfalse.elim)
      · exact fun _ _ hs => hs.1
    | none =>
      simp only [bind_none]
      split_ifs with hext
      · rfl
      · rw [Bool.not_eq_true', Bool.not_eq_false] at hext
        exact exotic_create h hext (h.wellFormed.absent_iff.mpr ⟨hd, hf⟩) hguard
          (fun _ _ => denseCandidate_spec hdesc) rfl (valid_created hdesc key)
          (ends_defineMissingRaw hf desc)

end

/-! ## The exotic parts that an Array lacks -/

theorem withMappedValue_of_array (h : obj.isArray = true) (key : PropertyKey)
    (desc : PropertyDescriptor) : obj.withMappedValue host key desc = desc := by
  cases desc with
  | generic desc | accessor desc => rfl
  | data data =>
    simp only [withMappedValue]
    split_ifs with hro
    · rw [mappedArgumentValue_of_array h, ← hro.2]
    · rfl

theorem ends_sync_of_array (h : obj.isArray = true) (key : PropertyKey) (val : Value) :
    Ends (syncMappedArgument host key val) (fun _ post => post = obj) (fun _ _ => False) obj := by
  refine (ends_sync key val).imp ?_ (fun _ _ hfalse => hfalse)
  rintro _ post (⟨-, rfl⟩ | ⟨idx, hfr, -⟩)
  · rfl
  · rw [mappedArgumentFrame_of_array h] at hfr
    cases hfr

theorem ends_syncDescriptor_of_array (h : obj.isArray = true) (key : PropertyKey)
    (desc : PropertyDescriptor) :
    Ends (syncDescriptorValue host key desc) (fun _ post => post = obj) (fun _ _ => False) obj := by
  simp only [syncDescriptorValue]
  split
  · exact ends_sync_of_array h key _
  · rfl

/-! ## Assignments past a read-only length -/

/-- Whether a new index is one for the dense elements. -/
def storesDense (obj : PropertyObject) (idx : Nat) : Bool := idx ≤ maxDenseElementIndex &&
    match obj.elements with
    | none => idx < initialDenseElementCapacity
    | some elements => idx - elements.capacity ≤ maxDenseGrowthGap

/-- Whether the memory that a new index needs is granted. -/
def creationGranted (mem : MemoryRequest → Bool) (obj : PropertyObject) (key : PropertyKey)
    (idx : Nat) : Bool :=
  if obj.storesDense idx then
    (obj.elements.any fun elements => idx < elements.capacity) || mem .elements
  else mem (.addition key)

/-- An assignment to the key would create an index at or past a read-only length. -/
def PassesReadOnlyLength (host : PropertyHost) (mem : MemoryRequest → Bool)
    (obj : PropertyObject) (key : PropertyKey) : Prop :=
  obj.isExtensible = true ∧ obj.ownProperty host key = none ∧
    ∃ idx number, host.arrayPropertyIndex key = some idx ∧
      obj.arrayLength host = some (number, some false) ∧ number.toUInt32.toNat ≤ idx ∧
      creationGranted mem obj key idx = true

variable {idx : Nat} {val : Value}

theorem ends_growDense_refused {previous : Option ArrayElements} (href : mem .elements = false) :
    Ends (growDenseArrayValue mem previous idx val) (fun _ _ => False)
      (fun _ post => post = obj) obj := by
  simp only [growDenseArrayValue]
  split
  · rfl
  · split
    · rfl
    · rw [ends_bind, ends_request, href, if_neg Bool.false_ne_true]

theorem ends_setDense_structural (hstructural : obj.storesDense idx = false) :
    Ends (setDenseArrayValue mem idx val)
      (fun stored post => stored = false ∧ post = obj) (fun _ _ => False) obj := by
  simp only [storesDense, Bool.and_eq_false_iff, decide_eq_false_iff_not] at hstructural
  rw [setDenseArrayValue, ends_bind, ends_get]
  split
  · exact ⟨rfl, rfl⟩
  next hsm =>
    have hplace := hstructural.resolve_left (not_not.mpr (Nat.le_of_not_lt hsm))
    split
    next hex =>
      simp only [PropertyObject.elements, hex, decide_eq_false_iff_not, not_lt] at hplace
      rw [if_pos hplace]
      exact ⟨rfl, rfl⟩
    next elements hex =>
      simp only [PropertyObject.elements, hex, decide_eq_false_iff_not, not_le] at hplace
      rw [if_pos hplace]
      exact ⟨rfl, rfl⟩
    · exact ⟨rfl, rfl⟩

theorem ends_setDense_refused (harray : obj.isArray = true) (hd : obj.storesDense idx = true)
    (hlarge : (obj.elements.any fun elements => idx < elements.capacity) = false)
    (href : mem .elements = false) : Ends (setDenseArrayValue mem idx val) (fun _ _ => False)
      (fun _ post => post = obj) obj := by
  simp only [storesDense, Bool.and_eq_true, decide_eq_true_eq] at hd
  obtain ⟨hsm, hplace⟩ := hd
  rw [setDenseArrayValue, ends_bind, ends_get, if_neg (not_lt.mpr hsm)]
  split
  next hex =>
    simp only [PropertyObject.elements, hex, decide_eq_true_eq] at hplace
    rw [if_neg (not_le.mpr hplace), ends_bind]
    exact ends_growDense_refused href
  next elements hex =>
    simp only [PropertyObject.elements, hex, decide_eq_true_eq] at hplace
    simp only [PropertyObject.elements, hex, any_some, decide_eq_false_iff_not] at hlarge
    rw [if_neg (not_lt.mpr hplace), if_neg hlarge, ends_bind]
    exact ends_growDense_refused href
  next hordinary helems =>
    simp only [isArray] at harray
    split at harray
    next previous hex =>
      cases previous with
      | none => exact absurd hex hordinary
      | some elements => exact absurd hex (helems elements)
    · cases harray

/-- Without memory for the new index nothing happens. -/
theorem ends_createData_refused (harray : obj.isArray = true)
    (hi : host.arrayPropertyIndex key = some idx) (href : creationGranted mem obj key idx = false) :
    Ends (createDataProperty host mem key val) (fun _ _ => False)
      (fun _ post => post = obj) obj := by
  simp only [creationGranted] at href
  rw [createDataProperty, hi, ends_bind]
  cases hd : obj.storesDense idx with
  | true =>
    rw [hd, if_pos rfl, Bool.or_eq_false_iff] at href
    refine (ends_setDense_refused harray hd href.1 href.2).imp ?_ (fun _ _ h => h)
    exact fun _ _ hfalse => hfalse.elim
  | false =>
    rw [hd, if_neg Bool.false_ne_true] at href
    refine (ends_setDense_structural hd).imp ?_ (fun _ _ hfalse => hfalse.elim)
    rintro _ post ⟨rfl, rfl⟩
    rw [if_neg Bool.false_ne_true, ends_bind, addPropertySlotWithKind, ends_bind, ends_request,
      href, if_neg Bool.false_ne_true]

/-- An index that is not dense. -/
theorem denseArrayValue_eq_none (h : ∀ idx val, host.arrayPropertyIndex key = some idx →
      obj.denseArrayValue host key ≠ some val) : obj.denseArrayValue host key = none := by
  cases hd : obj.denseArrayValue host key with
  | none => rfl
  | some val =>
    obtain ⟨idx, hi, -⟩ := bind_eq_some_iff.mp hd
    exact absurd hd (h idx val hi)

/-- An assignment at or past a read-only length leaves the Array as it was, unless it creates the
index. -/
theorem ends_set_readOnly (h : obj.HasLength host length false)
    (hbounded : Bounded host obj length) (hi : host.arrayPropertyIndex key = some idx)
    (hpast : length ≤ idx) (hguard : ¬ PassesReadOnlyLength host mem obj key) :
    Ends (setOwnDataProperty host mem key val) (fun _ _ => False)
      (fun _ post => post = obj) obj := by
  have hab : obj.ownProperty host key = none := by
    by_contra hpres
    have := hbounded key idx hi (ne_none_iff_isSome.mp hpres)
    omega
  obtain ⟨hd, hnew⟩ := h.wellFormed.absent_iff.mp hab
  rw [setOwnDataProperty, ends_bind]
  refine (ends_sync_of_array h.array key val).imp ?_ (fun _ _ hfalse => hfalse.elim)
  rintro _ post rfl
  rw [ends_bind, ends_get, if_neg fun hlen => ne_lengthKey hi hlen.2, hi, hd]
  simp only [hnew]
  split_ifs with hext
  · rfl
  · rw [Bool.not_eq_true', Bool.not_eq_false] at hext
    refine ends_createData_refused h.array hi ?_
    rw [← Bool.not_eq_true]
    intro hgr
    refine hguard ⟨hext, hab, idx, _, hi, h.arrayLength_eq, ?_, hgr⟩
    rw [h.truncated_eq]
    exact hpast

/-- A definition at or past a read-only length leaves the Array as it was. -/
theorem ends_define_readOnly (h : obj.HasLength host length false)
    (hi : host.arrayPropertyIndex key = some idx) (hpast : length ≤ idx) (hproper : desc.Proper) :
    Ends (defineProperty host mem key desc) (fun _ _ => False) (fun _ post => post = obj) obj := by
  rw [defineProperty, ends_bind, ends_get, withMappedValue_of_array h.array]
  rw [ends_bind]
  refine (ends_syncDescriptor_of_array h.array key desc).imp ?_ (fun _ _ hfalse => hfalse.elim)
  rintro _ synced rfl
  rw [ends_bind]
  refine (ends_validateFields hproper).imp ?_ (fun _ _ hs => hs)
  rintro _ checked ⟨rfl, -⟩
  rw [if_neg fun hlen => ne_lengthKey hi hlen.2, ends_bind]
  refine (ends_guardIndex key).imp ?_ (fun _ _ hs => hs)
  rintro _ guarded ⟨rfl, hlen⟩
  obtain ⟨number, flag, hread, hw⟩ := hlen h.array idx hi
  rw [h.arrayLength_eq] at hread
  cases hread
  rw [h.truncated_eq] at hw
  cases hw hpast

/-! ## The operations keep the invariant -/

/-- A length that a step sets, with the descriptor it publishes. -/
abbrev GrantsShrink (host : PropertyHost) (mem : MemoryRequest → Bool) (obj : PropertyObject)
    (data : DataPropertyDescriptor) (newLength : Nat) : Prop :=
  ∀ number, obj.arrayLength host = some (number, some true) → data.enumerable ≠ some true →
    data.configurable ≠ some true →
    (∃ key idx, host.arrayPropertyIndex key = some idx ∧ newLength ≤ idx ∧
      (obj.ownProperty host key).isSome) → ShrinkGranted host mem obj newLength data

section

variable (h : obj.HasLength host length writable)

include h

section

variable (hbounded : Bounded host obj length)

include hbounded

theorem exotic_setLength (hdesc : desc.Valid host)
    (hgr : ∀ data val newLength, desc = .data data → data.value = some val →
      host.primitiveArrayLength val = .ok newLength → GrantsShrink host mem obj data newLength) :
    EndsExotic host (arraySetLengthDescriptor host mem desc) obj := by
  refine ends_setLength h hbounded hdesc ?_
  rintro data val next hdata hv hn rfl
  exact hgr data val next hdata hv hn _ h.arrayLength_eq

theorem exotic_define (key : PropertyKey) (hproper : desc.Proper)
    (hgr : ∀ data val newLength, key = host.lengthKey → desc = .data data →
      data.value = some val → host.primitiveArrayLength val = .ok newLength →
      GrantsShrink host mem obj data newLength) :
    EndsExotic host (defineProperty host mem key desc) obj := by
  have hex : ArrayExotic host obj := ⟨length, writable, h, hbounded⟩
  rw [EndsExotic, defineProperty, ends_bind, ends_get, withMappedValue_of_array h.array]
  rw [ends_bind]
  refine (ends_syncDescriptor_of_array h.array key desc).imp ?_ (fun _ _ hfalse => hfalse.elim)
  rintro _ synced rfl
  rw [ends_bind]
  refine (ends_validateFields hproper).imp ?_ ?_
  · rintro _ checked ⟨rfl, hdesc⟩
    split_ifs with hlen
    · apply exotic_setLength h hbounded hdesc
      exact fun data val next => hgr data val next hlen.2
    · rw [ends_bind]
      refine (ends_guardIndex key).imp ?_ ?_
      · rintro _ guarded ⟨rfl, hread⟩
        refine (exotic_defineOwn h (fun hkey => hlen ⟨h.array, hkey⟩) hdesc ?_).imp
          (fun _ _ hafter => hafter hbounded) (fun _ _ hs => hs ▸ hex)
        intro idx hi hpast
        obtain ⟨number, flag, hread, hw⟩ := hread h.array idx hi
        rw [h.arrayLength_eq] at hread
        cases hread
        rw [h.truncated_eq] at hw
        exact some.inj (hw hpast)
      · rintro _ guarded rfl
        exact hex
  · rintro _ checked rfl
    exact hex

theorem exotic_setOwn (key : PropertyKey) (hv : val ≠ PropertyStorage.hole)
    (hguard : ¬ PassesReadOnlyLength host mem obj key)
    (hgr : ∀ newLength, key = host.lengthKey → host.primitiveArrayLength val = .ok newLength →
      GrantsShrink host mem obj ⟨some val, none, none, none⟩ newLength) :
    EndsExotic host (setOwnDataProperty host mem key val) obj := by
  have hex : ArrayExotic host obj := ⟨length, writable, h, hbounded⟩
  by_cases hpast : ∃ idx, host.arrayPropertyIndex key = some idx ∧ length ≤ idx ∧ writable = false
  · obtain ⟨idx, hi, hle, rfl⟩ := hpast
    refine (ends_set_readOnly h hbounded hi hle hguard).imp (fun _ _ hfalse => hfalse.elim) ?_
    rintro _ post rfl
    exact hex
  have hw : ∀ idx, host.arrayPropertyIndex key = some idx → length ≤ idx → writable = true := by
    intro idx hi hle
    by_contra hro
    exact hpast ⟨idx, hi, hle, Bool.not_eq_true writable ▸ hro⟩
  rw [EndsExotic, setOwnDataProperty, ends_bind]
  refine (ends_sync_of_array h.array key val).imp ?_ (fun _ _ hfalse => hfalse.elim)
  rintro _ synced rfl
  rw [ends_bind, ends_get]
  split
  next hlen =>
    refine exotic_setLength h hbounded ?_ ?_
    · exact fun hhole => hv (some.inj hhole)
    · rintro data written next hdata hwri hn
      cases hdata
      cases hwri
      exact hgr next hlen.2 hn
  next hlen =>
    split
    · -- a dense element takes the value
      rename_i idx cur hi hd
      have hcreates : ∀ post, synced.DenseWrite idx (some val) post →
          Creates host synced key length writable post := by
        intro post hwrite
        have hch : Change host synced post := by
          refine change_write h.wellFormed hi (h.wellFormed.separate key cur hd) ?_ hwrite
          intro hab
          rw [WellFormed.ownProperty_of_dense hd] at hab
          cases hab
        exact creates_dense h hi hwrite (hch.wellFormed h.wellFormed) rfl (fun _ _ => rfl)
      have hgrows : ∀ {post}, Creates host synced key length writable post →
          EndsExotic host (growArrayLengthForIndexProperty host mem key) post :=
        fun hcreates => (hcreates.ends_grow hw).imp (fun _ _ hafter => hafter hbounded)
          (fun _ _ hfalse => hfalse.elim)
      rw [ends_bind]
      refine (ends_setDense h.wellFormed hv).imp ?_ ?_
      · intro stored post hsto
        cases stored with
        | true => exact hgrows (hcreates post hsto)
        | false =>
          obtain rfl : post = synced := hsto
          exact hgrows (Creates.refl h key)
      · rintro _ post rfl
        exact hex
    next hnotDense =>
      split
      next prop hf =>
        obtain ⟨hm, rfl⟩ := lookup_eq_some hf
        rw [h.wellFormed.stored_lookup hf]
        cases hpay : prop.payload with
        | data cur =>
          dsimp only
          split_ifs with hupdates
          · have hch : Change host synced _ := change_update hf hpay hupdates hv
            have hpres : (synced.ownProperty host prop.key).isSome := by
              rw [h.wellFormed.ownProperty_of_lookup hf]
              rfl
            have hcreates : Creates host synced prop.key length writable (synced.withProperties
                (replaced { prop with payload := .data val } synced.properties)) :=
              creates_replaced h (hch.wellFormed h.wellFormed) hf fun hkey =>
                hlen ⟨h.array, hkey⟩
            exact hcreates.exotic hbounded fun idx hi =>
              hbounded prop.key idx hi hpres
          · exact hex
        | accessor getter setter => exact hex
      next hmis =>
        split_ifs with hext
        · exact hex
        · rw [Bool.not_eq_true', Bool.not_eq_false] at hext
          have hd := denseArrayValue_eq_none hnotDense
          refine Ends.imp (exotic_create h hext ?_ hw (candidate_assigned hv) ?_ ?_
            (ends_add ⟨key, .defaultData, .data val⟩)) (fun _ _ hafter => hafter hbounded)
            (fun _ _ hs => hs ▸ hex)
          · exact h.wellFormed.absent_iff.mpr ⟨hd, hmis⟩
          · rfl
          · exact hv

theorem exotic_delete (key : PropertyKey) :
    EndsExotic host (deleteOwnDataProperty host mem key) obj := by
  have hex : ArrayExotic host obj := ⟨length, writable, h, hbounded⟩
  refine (ends_delete h.wellFormed key).imp ?_ ?_
  · intro deleted post hdeleted
    cases deleted with
    | true =>
      have ha := (hdeleted.changes h.wellFormed).wellFormed h.wellFormed
      have herases := hdeleted.erases h.wellFormed ha
      refine ⟨length, writable, herases.hasLength h ha, ?_⟩
      exact hbounded.of_subset fun _ _ hi hpres => (herases.present hi hpres).1
    | false =>
      cases hdeleted
      exact hex
  · rintro _ post ⟨rfl, -⟩
    exact hex

end

end

end PropertyObject

namespace PropertyOperation

/-- The key that an operation writes. -/
def written : PropertyOperation → Option PropertyKey
  | .define key _ => some key
  | .set key _ => some key
  | _ => none

/-- The data descriptor and the length with which an operation sets the length. -/
def lengthRequest (host : PropertyHost) : PropertyOperation → Option (DataPropertyDescriptor × Nat)
  | .define key (.data data) =>
    if key = host.lengthKey then
      (data.value.bind fun val => (host.primitiveArrayLength val).toOption).map fun newLength =>
        (data, newLength)
    else none
  | .set key val =>
    if key = host.lengthKey then
      (host.primitiveArrayLength val).toOption.map fun newLength =>
        (⟨some val, none, none, none⟩, newLength)
    else none
  | .setLength val =>
    (host.primitiveArrayLength val).toOption.map fun newLength =>
      (⟨some val, none, none, none⟩, newLength)
  | .setLengthCanonical (.data data) newLength => some (data, newLength.toNat)
  | _ => none

end PropertyOperation

namespace PropertyObject

variable {host : PropertyHost} {mem : MemoryRequest → Bool} {obj post : PropertyObject}
  {operation : PropertyOperation}

/-- The operation is neither of the two that leave their second half undone. -/
structure KeepsExotic (host : PropertyHost) (mem : MemoryRequest → Bool) (obj : PropertyObject)
    (operation : PropertyOperation) : Prop where
  guarded : ∀ key val, operation = .set key val → ¬ PassesReadOnlyLength host mem obj key
  granted : ∀ data newLength, operation.lengthRequest host = some (data, newLength) →
    GrantsShrink host mem obj data newLength

/-- What one operation preserves. -/
theorem KeepsExotic.exotic (hex : ArrayExotic host obj) (hproper : operation.Proper)
    (hkeeps : KeepsExotic host mem obj operation) :
    ArrayExotic host ((operation.run host mem).final obj) := by
  obtain ⟨length, writable, h, hbounded⟩ := hex
  have hgr := hkeeps.granted
  apply Ends.final
  cases operation with
  | define key desc =>
    apply exotic_define h hbounded key hproper
    rintro data val next rfl rfl hv hn
    apply hgr
    simp only [lengthRequest, if_true, hv, bind_some, hn, Except.toOption, map_some]
  | set key val =>
    apply exotic_setOwn h hbounded key hproper
    · exact hkeeps.guarded key val rfl
    · rintro next rfl hn
      apply hgr
      simp only [lengthRequest, if_true, hn, Except.toOption, map_some]
  | delete key =>
    rw [run, ends_bind]
    exact (exotic_delete h hbounded key).imp (fun _ _ ha => ha) (fun _ _ ha => ha)
  | setLength val =>
    rw [run]
    refine exotic_setLength h hbounded ?_ ?_
    · exact fun hhole => hproper (some.inj hhole)
    · rintro data written next hdata hwri hn
      cases hdata
      cases hwri
      apply hgr
      simp only [lengthRequest, hn, Except.toOption, map_some]
  | setLengthCanonical desc newLength =>
    refine ends_setLengthCanonical h hbounded desc newLength.toNat_lt ?_
    rintro data rfl rfl
    exact hgr data newLength.toNat rfl _ h.arrayLength_eq
  | preventExtensions =>
    refine ends_modify _ |>.mpr ⟨length, writable, ?_, hbounded⟩
    have ha := Change.wellFormed h.wellFormed .preventExtensions
    exact h.of_lookup ha h.array rfl

variable {key : PropertyKey} {idx : Nat}

/-- A write at or past a read-only length leaves the Array as it was. -/
theorem KeepsExotic.unchanged (hex : ArrayExotic host obj) (hproper : operation.Proper) (hkeeps :
    KeepsExotic host mem obj operation) {number : F64} (hwri : operation.written = some key) (hi :
    host.arrayPropertyIndex key = some idx) (hlen : obj.arrayLength host = some (number, some
    false)) (hpast : number.toUInt32.toNat ≤ idx) : (operation.run host mem).final obj = obj := by
  obtain ⟨length, writable, h, hbounded⟩ := hex
  rw [h.arrayLength_eq] at hlen
  cases hlen
  rw [h.truncated_eq] at hpast
  have hfinal : ∀ {run : ObjectM Unit},
      run.Ends (fun _ _ => False) (fun _ post => post = obj) obj → run.final obj = obj :=
    fun hends => Ends.final (hends.imp (fun _ _ hfalse => hfalse.elim) (fun _ _ hs => hs))
  cases operation with
  | define key' desc =>
    obtain rfl := some.inj hwri
    exact hfinal (ends_define_readOnly h hi hpast hproper)
  | set key' val =>
    obtain rfl := some.inj hwri
    exact hfinal (ends_set_readOnly h hbounded hi hpast (hkeeps.guarded key' val rfl))
  | delete _ | setLength _ | setLengthCanonical _ _ | preventExtensions => cases hwri

/-! ## Runs -/

/-- One operation of this kind, with the memory it gets. -/
inductive KeepingStep (host : PropertyHost) (obj : PropertyObject) : PropertyObject → Prop where
  | perform (mem : MemoryRequest → Bool) (operation : PropertyOperation)
      (proper : operation.Proper) (keeps : KeepsExotic host mem obj operation) :
      KeepingStep host obj ((operation.run host mem).final obj)

theorem exotic_newArray (host : PropertyHost) (registers : Nat → Value) :
    ArrayExotic host (newArray host registers) := by
  have hval : (newArray host registers).WellFormed host := (Fresh.array registers).wellFormed
  have hf : (newArray host registers).lookup host.lengthKey =
      some ⟨host.lengthKey, .data true false false, .data (.fromI32 0)⟩ :=
    lookup_of_mem hval.nodup List.mem_cons_self
  refine ⟨0, true, ⟨hval, rfl, by decide, _, hf, rfl, rfl, rfl, rfl⟩, ?_⟩
  · intro key idx hi hpres
    rw [isSome_ownProperty hval, denseArrayValue_eq, hi] at hpres
    rcases hpres with hd | hlist
    · cases hd
    · obtain ⟨prop, hf⟩ := isSome_iff_exists.mp hlist
      obtain ⟨hm, rfl⟩ := lookup_eq_some hf
      rw [List.mem_singleton.mp hm, index_lengthKey] at hi
      cases hi

theorem exotic_run {start : PropertyObject} (hst : ArrayExotic host start)
    (hrun : ReflTransGen (KeepingStep host) start obj) : ArrayExotic host obj := by
  induction hrun with
  | refl => exact hst
  | tail _ hstep ih =>
    cases hstep with
    | perform mem operation proper keeps => exact keeps.exotic ih proper

/-- In a run of such steps from a new Array, every state has the invariant, and a write at or past a
read-only length leaves the Array as it was. -/
theorem array_exotic_kept (registers : Nat → Value)
    (hrun : ReflTransGen (KeepingStep host) (newArray host registers) obj) :
    ArrayExotic host obj ∧ ∀ mem operation key idx number, operation.Proper →
        KeepsExotic host mem obj operation → operation.written = some key →
        host.arrayPropertyIndex key = some idx →
        obj.arrayLength host = some (number, some false) → number.toUInt32.toNat ≤ idx →
        (operation.run host mem).final obj = obj := by
  have hex := exotic_run (exotic_newArray host registers) hrun
  refine ⟨hex, ?_⟩
  intro mem operation key idx number hproper hkeeps hwri hi hlen hpast
  exact hkeeps.unchanged hex hproper hwri hi hlen hpast

/-- A definition that sets no length is neither of the two. -/
theorem keepsExotic_define {mem : MemoryRequest → Bool} {desc : PropertyDescriptor} (h : (define key
    desc).lengthRequest host = none) : KeepsExotic host mem obj (.define key desc) := by
  refine ⟨fun _ _ heq => (nomatch heq), ?_⟩
  intro data newLength hreq
  rw [h] at hreq
  cases hreq

/-- The length becomes read-only, and an index past it is defined and refused. -/
theorem array_exotic_kept_readOnly : ∃ obj,
    ReflTransGen (KeepingStep .sample) (newArray .sample fun _ => .undefined) obj ∧
      obj.arrayLength .sample = some (.ofInt 0, some false) ∧ ArrayExotic .sample obj ∧
      (PropertyOperation.run .sample (fun _ => true)
        (.define (.atom 3) (.data ⟨some .undefined, some true, some true, some true⟩))).final obj =
          obj := by
  have hkeeps : ∀ {obj : PropertyObject} {key : PropertyKey} {desc : PropertyDescriptor},
      (PropertyOperation.define key desc).lengthRequest .sample = none →
      KeepsExotic .sample (fun _ => true) obj (.define key desc) :=
    keepsExotic_define
  have hrun : ReflTransGen (KeepingStep .sample) (newArray .sample fun _ => .undefined) _ :=
    .single (.perform (fun _ => true)
      (.define (.atom 0) (.data ⟨none, some false, none, none⟩)) (by decide) (hkeeps (by decide)))
  have hlen := array_exotic_kept (fun _ => .undefined) hrun
  refine ⟨_, hrun, by decide, hlen.1, ?_⟩
  exact hlen.2 (fun _ => true) _ (.atom 3) 0 (.ofInt 0) (by decide) (hkeeps (by decide)) rfl
    (by decide) (by decide) (by decide)

/-- An index that is present at the length 0. -/
theorem not_exotic_of_zero (hi : host.arrayPropertyIndex key = some idx) (hpres : (obj.ownProperty
    host key).isSome) (hlen : (obj.lookup host.lengthKey).map OwnProperty.payload = some (.data
    (.fromI32 0))) : ¬ ArrayExotic host obj := by
  rintro ⟨length, writable, h, hbounded⟩
  have hbl := hbounded key idx hi hpres
  obtain ⟨prop, hf, hpay, -⟩ := h.stored
  rw [hf, map_some, hpay] at hlen
  have hv := StoredProperty.data.inj (some.inj hlen)
  have hnumber := numericValue_safeInteger length
  rw [hv] at hnumber
  have hz : Float.Model.ofInt (0 : Nat) = Float.Model.ofInt length := some.inj hnumber
  have := unpack_injective (by decide) (lt_trans h.small (by decide))
    (congrArg Float.Model.unpack hz)
  omega

/-- An assignment past a read-only length creates its index, and a shorter length that cannot list
the indices leaves them. -/
theorem array_exotic_lost : ∃ assigned shrunk,
    Run .sample (newArray .sample fun _ => .undefined) assigned ∧
      Run .sample (newArray .sample fun _ => .undefined) shrunk ∧
      ¬ ArrayExotic .sample assigned ∧ ¬ ArrayExotic .sample shrunk := by
  refine ⟨_, _,
    .head (.perform (fun _ => true) (.define (.atom 0) (.data ⟨none, some false, none, none⟩))
      (by decide)) (.single (.perform (fun _ => true) (.set (.atom 3) (.fromI32 7)) (by decide))),
    .head (.perform (fun _ => true) (.set (.atom 3) (.fromI32 7)) (by decide))
      (.single (.perform (fun asked => asked ≠ .ownKeys) (.setLength (.fromI32 0)) (by decide))),
    ?_, ?_⟩
  · have hi : PropertyHost.sample.arrayPropertyIndex (.atom 3) = some 0 := by decide
    exact not_exotic_of_zero hi (by decide) (by decide)
  · have hi : PropertyHost.sample.arrayPropertyIndex (.atom 3) = some 0 := by decide
    exact not_exotic_of_zero hi (by decide) (by decide)

end PropertyObject

end TachyonEngine.Vm
