import TachyonEngine.Vm.ArgumentsRun
import TachyonEngine.Vm.ArrayRun

/-!
# Definitions that are rejected

A definition that fails leaves the receiver as it was, if it is not a shorter length that an index
stops and no request for memory is refused. There is one exception. The value of a descriptor
reaches a mapped parameter before the descriptor is validated, and it stays there if the validation
rejects the descriptor.
-/

namespace TachyonEngine.Vm

open Lib Lib.Attempt

/-- An error of the allocator. -/
inductive DescriptorError.OfAllocation : DescriptorError → Prop where
  | refused (asked : MemoryRequest) : OfAllocation (.refused asked)
  | storage : OfAllocation .propertyStorageAllocationFailed

namespace PropertyObject

/-! ## Receivers -/

/-- The keys that a String wrapper answers from its string. An index whose string cannot be made is
passed over. -/
def stringOwns (host : PropertyHost) (mem : MemoryRequest → Bool) (units : List UInt16)
    (key : PropertyKey) : Bool :=
  key = host.lengthKey || mem .string &&
    (host.arrayPropertyIndex key).any fun idx => idx < units.length

/-- `define_property` on a receiver that may wrap a string. -/
def definePropertyOf (host : PropertyHost) (mem : MemoryRequest → Bool)
    (wrapped : Option (List UInt16)) (key : PropertyKey) (desc : PropertyDescriptor) :
    ObjectM Unit := do
  let obj ← get
  let desc := obj.withMappedValue host key desc
  syncDescriptorValue host key desc
  validateAccessorFields host desc
  if wrapped.any fun units => stringOwns host mem units key then throw .invalidPropertyRedefinition
  else if obj.isArray ∧ key = host.lengthKey then arraySetLengthDescriptor host mem desc
  else do
    guardArrayIndex host key
    defineOwnProperty host mem key desc

variable {host : PropertyHost} {mem : MemoryRequest → Bool} {wrapped : Option (List UInt16)}
  {obj post : PropertyObject} {key : PropertyKey} {desc : PropertyDescriptor}
  {length : Nat} {writable : Bool}

/-- An ordinary object, an Array with its length, an arguments object, or a String wrapper. -/
structure Receiver (host : PropertyHost) (wrapped : Option (List UInt16)) (obj : PropertyObject) :
    Prop where
  wellFormed : obj.WellFormed host
  array : obj.isArray = true → ∃ length writable, obj.HasLength host length writable
  wrapper : wrapped.isSome = true → obj.exotic = .ordinary

/-- A shorter length that stops at an index: the length is the successor of the index. -/
def StoppedDecrease (host : PropertyHost) (obj : PropertyObject) (desc : PropertyDescriptor)
    (post : PropertyObject) : Prop :=
  ∃ data value next idx, desc = .data data ∧ data.value = some value ∧
    host.primitiveArrayLength value = .ok next ∧ HighestBlock host obj next idx ∧
    ShortenedTo host obj data (idx + 1) post

/-- A definition that is rejected changes nothing. -/
def RejectsCleanly (host : PropertyHost) (mem : MemoryRequest → Bool)
    (wrapped : Option (List UInt16)) (obj : PropertyObject) (key : PropertyKey)
    (desc : PropertyDescriptor) : Prop :=
  (definePropertyOf host mem wrapped key desc).Ends (fun _ _ => True)
    (fun error post => error.OfAllocation ∨ post = obj ∨
      obj.isArray = true ∧ key = host.lengthKey ∧ StoppedDecrease host obj desc post)
    obj

/-- The descriptor has another value for the parameter that the key is mapped to. -/
def NewParameter (host : PropertyHost) (obj : PropertyObject) (key : PropertyKey)
    (desc : PropertyDescriptor) (idx : Nat) (value : Value) : Prop :=
  desc.value = some value ∧ obj.mappedArgumentFrame host key = some idx ∧
    (obj.mappedArgumentValue host key).isSome ∧ obj.registers idx ≠ value

/-- The descriptor has another value for a mapped parameter, and the validation rejects it. -/
def WritesThenRejects (host : PropertyHost) (obj : PropertyObject) (key : PropertyKey)
    (desc : PropertyDescriptor) : Prop :=
  ∃ idx value property, NewParameter host obj key desc idx value ∧ obj.lookup key = some property ∧
    validatePropertyRedefinition host property property.payload desc = false

/-! ## The length -/

theorem ends_redefineLength_fails (h : obj.WellFormed host) (desc : PropertyDescriptor) :
    Ends (redefineArrayLength host mem desc) (fun _ _ => True) (fun _ post => post = obj) obj := by
  rw [redefineArrayLength, ends_bind, ends_get]
  cases hf : obj.lookup host.lengthKey with
  | none => rfl
  | some prop =>
    dsimp only
    rw [h.stored_lookup hf]
    exact (ends_redefinePresentProperty prop desc).imp (fun _ _ _ => trivial)
      (fun _ _ href => href.1)

theorem ends_setLength_fails (h : obj.HasLength host length writable) (desc : PropertyDescriptor) :
    Ends (arraySetLengthDescriptor host mem desc) (fun _ _ => True)
      (fun err post => err.OfAllocation ∨ post = obj ∨ StoppedDecrease host obj desc post) obj := by
  rw [arraySetLengthDescriptor]
  split
  · exact (ends_redefineLength_fails h.wellFormed _).imp (fun _ _ h => h)
      (fun _ _ hs => .inr (.inl hs))
  next val hv =>
    split
    · exact .inr (.inl rfl)
    next next hnext =>
      cases desc with
      | generic generic | accessor accessor => cases hv
      | data data =>
        rcases Nat.lt_or_ge next length with hshorter | hlonger
        · refine (ends_shorten h data hshorter).imp (fun _ _ _ => trivial) ?_
          rintro err post (⟨rfl, -⟩ | ⟨-, ⟨idx, -, hblock, hleft⟩ | ⟨asked, rfl, -⟩⟩)
          · exact .inr (.inl rfl)
          · exact .inr (.inr ⟨data, val, next, idx, rfl, hv, hnext, hblock, hleft⟩)
          · exact .inl (.refused asked)
        · rw [ends_setLength_longer h data hlonger]
          exact (ends_redefineLength_fails h.wellFormed _).imp (fun _ _ h => h)
            (fun _ _ hs => .inr (.inl hs))

/-! ## Properties -/

/-- What comes after the checks of the exotic parts fails without a change. -/
theorem ends_defineOwn_fails (h : Receiver host wrapped obj) (hdesc : desc.Valid host)
    (hkey : ¬ (obj.isArray = true ∧ key = host.lengthKey)) :
    Ends (guardArrayIndex host key >>= fun _ => defineOwnProperty host mem key desc)
      (fun _ _ => True) (fun _ post => post = obj) obj := by
  rw [ends_bind]
  refine (ends_guardIndex key).imp ?_ (fun _ _ hs => hs)
  rintro _ guarded ⟨rfl, hread⟩
  cases harray : guarded.isArray with
  | false =>
    exact (ends_defineOwn_of_listed h.wellFormed harray desc).imp (fun _ _ _ => trivial)
      (fun _ _ hs => hs)
  | true =>
    obtain ⟨length, writable, hlen⟩ := h.array harray
    refine (exotic_defineOwn hlen (fun hk => hkey ⟨harray, hk⟩) hdesc ?_).imp (fun _ _ _ => trivial)
      (fun _ _ hs => hs)
    intro idx hi hpast
    obtain ⟨number, flag, hread, hw⟩ := hread harray idx hi
    rw [hlen.arrayLength_eq] at hread
    cases hread
    rw [hlen.truncated_eq] at hw
    exact Option.some.inj (hw hpast)

/-- A data descriptor for a property in the list is rejected by the validation or lacks memory. -/
theorem ends_defineOwn_listed (h : obj.WellFormed host) (harray : obj.isArray = false)
    {prop : OwnProperty} (hf : obj.lookup key = some prop) (data : DataPropertyDescriptor) :
    Ends (defineOwnProperty host mem key (.data data))
      (fun _ _ => validatePropertyRedefinition host prop prop.payload (.data data) = true)
      (fun err post =>
        if validatePropertyRedefinition host prop prop.payload (.data data) then err.OfAllocation
        else err = .invalidPropertyRedefinition ∧ post = obj) obj := by
  rw [defineOwnProperty, ends_bind, ends_get, denseArrayValue_of_listed harray, hf]
  simp only [Option.bind_some, h.stored_lookup hf, Option.map_some]
  rw [ends_bind]
  cases hpass : validatePropertyRedefinition host prop prop.payload (.data data) with
  | true =>
    refine (ends_redefinePresentProperty prop _).imp ?_ ?_
    · rintro _ post ⟨-, rfl, -⟩
      exact (ends_grow_of_listed (by exact harray) key).imp (fun _ _ _ => rfl)
        (fun _ _ hfalse => hfalse.elim)
    · rintro err post ⟨-, hreason⟩
      rcases hreason hpass with hk | ⟨rfl, -⟩
      · cases hk
      · exact .refused _
  | false =>
    simp only [redefinePresentProperty, hpass]
    exact ⟨rfl, rfl⟩

/-! ## The parameter -/

theorem withMappedValue_cases (obj : PropertyObject) (key : PropertyKey)
    (desc : PropertyDescriptor) : obj.withMappedValue host key desc = desc ∨ desc.value = none ∧
        (obj.withMappedValue host key desc).value = obj.mappedArgumentValue host key := by
  cases desc with
  | generic generic | accessor accessor => exact .inl rfl
  | data data =>
    simp only [withMappedValue]
    split_ifs with hfrozen
    · exact .inr ⟨hfrozen.2, rfl⟩
    · exact .inl rfl

variable {idx : Nat}

theorem mapped_lookup (hframe : obj.mappedArgumentFrame host key = some idx)
    (hmapped : (obj.mappedArgumentValue host key).isSome) :
    obj.mappedArgumentValue host key = some (obj.registers idx) ∧
      ∃ prop, obj.lookup key = some prop := by
  simp only [mappedArgumentValue, hframe] at hmapped ⊢
  cases hf : obj.lookup key with
  | none =>
    rw [hf] at hmapped
    cases hmapped
  | some prop =>
    rw [hf] at hmapped
    dsimp only at hmapped ⊢
    split_ifs at hmapped with hw
    · rw [if_pos hw]
      exact ⟨rfl, prop, rfl⟩
    · cases hmapped

/-- The value of a descriptor changes nothing, or it is a new value of a mapped parameter. -/
theorem ends_syncDescriptor (key : PropertyKey) (desc : PropertyDescriptor) :
    Ends (syncDescriptorValue host key (obj.withMappedValue host key desc))
      (fun _ post =>
        (post = obj ∧ ∀ idx val, ¬ NewParameter host obj key desc idx val) ∨
          ∃ idx val, NewParameter host obj key desc idx val ∧
            post = { obj with registers := Function.update obj.registers idx val })
      (fun _ _ => False) obj := by
  have hcases : obj.withMappedValue host key desc = desc ∨ _ := withMappedValue_cases obj key desc
  rw [syncDescriptorValue]
  cases hv : (obj.withMappedValue host key desc).value with
  | none =>
    refine .inl ⟨rfl, ?_⟩
    rintro idx val ⟨hgiven, -⟩
    rcases hcases with heq | ⟨hn, -⟩
    · rw [heq, hgiven] at hv
      cases hv
    · rw [hn] at hgiven
      cases hgiven
  | some val =>
    refine (ends_sync key val).imp ?_ (fun _ _ hfalse => hfalse)
    rintro _ post (⟨hun, rfl⟩ | ⟨idx, hframe, hmapped, rfl⟩)
    · refine .inl ⟨rfl, ?_⟩
      rintro idx val ⟨-, -, hmapped, -⟩
      rw [hun] at hmapped
      cases hmapped
    · have hsame : obj.registers idx = val →
          { obj with registers := Function.update obj.registers idx val } = obj := by
        rintro rfl
        rw [Function.update_eq_self]
      rcases hcases with heq | ⟨hn, hread⟩
      · rw [heq] at hv
        by_cases hold : obj.registers idx = val
        · refine .inl ⟨hsame hold, ?_⟩
          rintro other written ⟨hgiven, hplace, -, hne⟩
          obtain rfl := Option.some.inj (hframe.symm.trans hplace)
          obtain rfl := Option.some.inj (hv.symm.trans hgiven)
          exact hne hold
        · exact .inr ⟨idx, val, ⟨hv, hframe, hmapped, hold⟩, rfl⟩
      · -- a descriptor that only freezes the index has the value of the parameter
        rw [hv, (mapped_lookup hframe hmapped).1] at hread
        refine .inl ⟨hsame (Option.some.inj hread).symm, ?_⟩
        rintro other written ⟨hgiven, -⟩
        rw [hn] at hgiven
        cases hgiven

/-- How a definition ends, with the exception. -/
theorem ends_definePropertyOf (h : Receiver host wrapped obj) (hproper : desc.Proper) :
    Ends (definePropertyOf host mem wrapped key desc)
      (fun _ _ => ¬ WritesThenRejects host obj key desc)
      (fun err post => (¬ WritesThenRejects host obj key desc ∧
          (err.OfAllocation ∨ post = obj ∨ obj.isArray = true ∧ key = host.lengthKey ∧
            StoppedDecrease host obj desc post)) ∨
        WritesThenRejects host obj key desc ∧ err = .invalidPropertyRedefinition ∧
          obj.isArray = false ∧ post ≠ obj) obj := by
  rw [definePropertyOf, ends_bind, ends_get]
  rw [ends_bind]
  refine (ends_syncDescriptor key desc).imp ?_ (fun _ _ hfalse => hfalse.elim)
  rintro _ synced (⟨rfl, hsilent⟩ | ⟨idx, val, hnew, rfl⟩)
  · have hno : ¬ WritesThenRejects host synced key desc :=
      fun ⟨idx, val, _, hnew, _⟩ => hsilent idx val hnew
    rw [ends_bind]
    refine (ends_validateFields (proper_withMappedValue h.wellFormed hproper)).imp ?_
      (fun _ _ hs => .inl ⟨hno, .inr (.inl hs)⟩)
    rintro _ checked ⟨rfl, hdesc⟩
    split
    · exact .inl ⟨hno, .inr (.inl rfl)⟩
    · split_ifs with hlen
      · obtain ⟨length, writable, hl⟩ := h.array hlen.1
        rw [withMappedValue_of_array hlen.1]
        refine (ends_setLength_fails hl desc).imp (fun _ _ _ => hno) ?_
        intro err post hfails
        exact .inl ⟨hno, hfails.imp_right (Or.imp_right fun hs => ⟨hlen.1, hlen.2, hs⟩)⟩
      · exact (ends_defineOwn_fails h hdesc hlen).imp (fun _ _ _ => hno)
          (fun _ _ hs => .inl ⟨hno, .inr (.inl hs)⟩)
  · obtain ⟨hv, hframe, hmapped, hne⟩ := id hnew
    obtain ⟨-, prop, hf⟩ := mapped_lookup hframe hmapped
    obtain ⟨data, rfl⟩ : ∃ data, desc = .data data := by
      cases desc with
      | data data => exact ⟨data, rfl⟩
      | generic _ | accessor _ => cases hv
    have hkept : obj.withMappedValue host key (.data data) = .data data :=
      (withMappedValue_cases obj key (.data data)).resolve_right fun hn => by
        rw [hn.1] at hv
        cases hv
    obtain ⟨harray, rfl⟩ : obj.isArray = false ∧ wrapped = none := by
      simp only [mappedArgumentFrame] at hframe
      split at hframe
      next cnt hex =>
        refine ⟨by rw [isArray, hex], ?_⟩
        cases wrapped with
        | none => rfl
        | some units =>
          have hord := h.wrapper rfl
          rw [hex] at hord
          cases hord
      · cases hframe
    have hval : WellFormed host { obj with registers := Function.update obj.registers idx val } :=
      Change.wellFormed h.wellFormed (change_register h.wellFormed fun hhole => hproper
        (hhole ▸ hv))
    have hunique : validatePropertyRedefinition host prop prop.payload (.data data) = true →
        ¬ WritesThenRejects host obj key (.data data) := by
      rintro hpass ⟨-, -, other, -, hother, hrej⟩
      cases hf.symm.trans hother
      rw [hpass] at hrej
      cases hrej
    have hfields : validateAccessorFields host (.data data) = pure () := rfl
    rw [hkept, hfields, ends_bind, ends_pure, Option.any_none,
      if_neg Bool.false_ne_true, if_neg (by rw [harray]; exact fun hk => Bool.false_ne_true hk.1),
        ends_bind]
    refine (ends_guardIndex_of_listed (by exact harray) key).imp ?_ (fun _ _ hfalse => hfalse.elim)
    rintro _ guarded rfl
    refine (ends_defineOwn_listed hval harray hf data).imp (fun _ _ hpass => hunique hpass) ?_
    intro err post hfails
    split_ifs at hfails with hpass
    · exact .inl ⟨hunique hpass, .inl hfails⟩
    · obtain ⟨rfl, rfl⟩ := hfails
      refine .inr ⟨⟨idx, val, prop, hnew, hf, Bool.not_eq_true _ ▸ hpass⟩, rfl, harray, ?_⟩
      intro hsame
      have hregister : Function.update obj.registers idx val idx = obj.registers idx :=
        congrFun (congrArg PropertyObject.registers hsame) idx
      rw [Function.update_self] at hregister
      exact hne hregister.symm

/-- A rejected definition changes nothing, the stopped decrease of a length apart, unless its value
is new for a mapped parameter and the validation rejects it. -/
theorem rejected_definition_iff (h : Receiver host wrapped obj) (hproper : desc.Proper) :
    RejectsCleanly host mem wrapped obj key desc ↔ ¬ WritesThenRejects host obj key desc := by
  have hends : (definePropertyOf host mem wrapped key desc).Ends _ _ obj :=
    ends_definePropertyOf h hproper
  constructor
  · intro hclean
    have hboth : (definePropertyOf host mem wrapped key desc).Ends
        (fun _ _ => ¬ WritesThenRejects host obj key desc)
        (fun _ _ => ¬ WritesThenRejects host obj key desc) obj := by
      refine (hclean.and hends).imp (fun _ _ hboth => hboth.2) ?_
      rintro err post ⟨hchange, hno | ⟨-, rfl, harray, hne⟩⟩
      · exact hno.1
      · rcases hchange with halloc | hsame | hlen
        · cases halloc
        · exact absurd hsame hne
        · rw [harray] at hlen
          cases hlen.1
    exact hboth.final
  · intro hno
    refine hends.imp (fun _ _ _ => trivial) ?_
    rintro err post (hclean | hwrites)
    · exact hclean.2
    · exact absurd hwrites.1 hno

/-- The length of a String wrapper is not redefined. -/
theorem rejected_definition_iff_string :
    RejectsCleanly .sample (fun _ => true) (some [97]) (newOrdinary fun _ => .undefined) (.atom 0)
      (.data ⟨some (.fromI32 7), none, none, none⟩) := by
  have h : Receiver .sample (some [97]) (newOrdinary fun _ => .undefined) :=
    ⟨(Fresh.ordinary _).wellFormed, fun harray => (nomatch harray), fun _ => rfl⟩
  refine (rejected_definition_iff h (by decide)).mpr ?_
  rintro ⟨idx, val, prop, ⟨-, hframe, -⟩, -⟩
  cases hframe

/-- The arguments object of a call with one parameter, whose index 0 is no longer configurable. -/
def sealedArguments : PropertyObject :=
  ((PropertyOperation.define (.atom 3) (.data ⟨none, none, none, some false⟩)).run .sample
    fun _ => true).final sampleArguments

/-- The value 9 reaches the parameter, although the index cannot stop being enumerable. -/
theorem rejected_definition_writes : sealedArguments.registers 0 = .fromI32 7 ∧
    ¬ RejectsCleanly .sample (fun _ => true) none sealedArguments (.atom 3)
      (.data ⟨some (.fromI32 9), none, some false, none⟩) := by
  refine ⟨rfl, ?_⟩
  intro hclean
  rcases hclean with halloc | hsame | ⟨harray, -⟩
  · cases halloc
  · exact absurd (congrFun (congrArg PropertyObject.registers hsame) 0) (by decide)
  · cases harray

end PropertyObject

end TachyonEngine.Vm
