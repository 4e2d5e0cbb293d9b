import TachyonEngine.Lib.Binary64Order
import TachyonEngine.Vm.PropertyChanges

/-!
# What the operations do to an object

Each operation is a run of changes, whether it returns or fails. The lemmas on the publications say
exactly what they leave; from them the operations on the length, on missing properties and on
present ones follow, and from these `define_property`, `set_own_data_property` and
`delete_own_data_property`.
-/

namespace TachyonEngine.Vm

open Lib Lib.Attempt

/-! ## Equality -/

namespace PropertyHost

variable {host : PropertyHost}

/-- What `SameValue` compares. -/
inductive Meaning where
  | number (number : Float.Model.UnpackedFloat)
  | bigint (value : Int)
  | text (units : List UInt16)
  | other (value : Value)

/-- A value that is neither a Number nor a BigInt. -/
def plainMeaning (host : PropertyHost) (value : Value) : Meaning :=
  match host.cellOf value with
  | some (.string units) => .text units
  | _ => .other value

def meaning (host : PropertyHost) (value : Value) : Meaning :=
  match numericValue value with
  | some number => .number number.unpack
  | none =>
    match host.isBigintValue value with
    | some n => .bigint n
    | none => host.plainMeaning value

theorem plainMeaning_ne (val : Value) : (∀ number, host.plainMeaning val ≠ .number number) ∧
      ∀ n, host.plainMeaning val ≠ .bigint n := by
  simp only [plainMeaning]
  split
  · exact ⟨fun _ h => (nomatch h), fun _ h => (nomatch h)⟩
  · exact ⟨fun _ h => (nomatch h), fun _ h => (nomatch h)⟩

/-- The comparison of two numbers. -/
theorem sameNumber_iff (left right : F64) :
    (if left.isNaN && right.isNaN then true
      else if left.beq (.ofInt 0) && right.beq (.ofInt 0) then
        decide (isSignNegative left = isSignNegative right)
      else left.beq right) = true ↔ left.unpack = right.unpack := by
  have hz : ∀ number : F64, number.beq (.ofInt 0) = true ↔ ∃ sign, number.unpack = .zero sign := by
    intro number
    rw [Float.Model.beq, Binary64.beq_iff, Binary64.unpack_ofInt_zero]
    constructor
    · rintro (⟨heq, -⟩ | ⟨sign, -, heq, -⟩)
      · exact ⟨_, heq⟩
      · exact ⟨sign, heq⟩
    · rintro ⟨sign, heq⟩
      exact .inr ⟨sign, _, heq, rfl⟩
  have hnan : ∀ number : F64, number.isNaN = true ↔ number.unpack = .notANumber := by
    intro number
    rw [Float.Model.isNaN]
    cases number.unpack with
    | notANumber => exact ⟨fun _ => rfl, fun _ => rfl⟩
    | infinity _ | zero _ | finite _ _ _ _ => exact ⟨fun h => (Bool.false_ne_true h).elim,
        fun h => nomatch h⟩
  split
  next hboth =>
    rw [Bool.and_eq_true, hnan, hnan] at hboth
    rw [hboth.1, hboth.2]
    exact ⟨fun _ => rfl, fun _ => rfl⟩
  next hnotNaN =>
    rw [Bool.and_eq_true, hnan, hnan] at hnotNaN
    split_ifs with hboth
    · rw [Bool.and_eq_true, hz, hz] at hboth
      obtain ⟨⟨sign, hl⟩, ⟨sign', hr⟩⟩ := hboth
      rw [decide_eq_true_eq, isSignNegative, isSignNegative, hl, hr]
      cases sign with
      | negative => cases sign' with
        | negative => exact ⟨fun _ => rfl, fun _ => rfl⟩
        | positive => exact ⟨fun h => (Bool.false_ne_true h.symm).elim, fun h => nomatch h⟩
      | positive => cases sign' with
        | negative => exact ⟨fun h => (Bool.false_ne_true h).elim, fun h => nomatch h⟩
        | positive => exact ⟨fun _ => rfl, fun _ => rfl⟩
    · rw [Bool.and_eq_true, hz, hz] at hboth
      rw [Float.Model.beq, Binary64.beq_iff]
      constructor
      · rintro (⟨heq, -⟩ | ⟨sign, sign', hl, hr⟩)
        · exact heq
        · exact absurd ⟨⟨sign, hl⟩, ⟨sign', hr⟩⟩ hboth
      · intro heq
        refine .inl ⟨heq, ?_⟩
        intro hl
        exact hnotNaN ⟨hl, heq ▸ hl⟩

/-- `SameValue` is equality of what the values denote. -/
theorem sameValue_iff (left right : Value) :
    host.sameValue left right = true ↔ host.meaning left = host.meaning right := by
  simp only [sameValue, strictEqualValues, meaning]
  cases hl : numericValue left with
  | some x =>
    cases hr : numericValue right with
    | some y =>
      rw [sameNumber_iff]
      exact ⟨congrArg Meaning.number, Meaning.number.inj⟩
    | none =>
      refine ⟨fun h => (Bool.false_ne_true h).elim, ?_⟩
      cases hbigint : host.isBigintValue right with
      | some n => exact fun h => nomatch h
      | none => exact fun h => ((plainMeaning_ne right).1 _ h.symm).elim
  | none =>
    cases hr : numericValue right with
    | some y =>
      refine ⟨fun h => (Bool.false_ne_true h).elim, ?_⟩
      cases hbigint : host.isBigintValue left with
      | some n => exact fun h => nomatch h
      | none => exact fun h => ((plainMeaning_ne left).1 _ h).elim
    | none =>
      cases hleftBigint : host.isBigintValue left with
      | some n =>
        cases hrightBigint : host.isBigintValue right with
        | some m =>
          rw [decide_eq_true_eq]
          exact ⟨congrArg Meaning.bigint, Meaning.bigint.inj⟩
        | none =>
          refine ⟨fun h => (Bool.false_ne_true h).elim, ?_⟩
          exact fun h => ((plainMeaning_ne right).2 _ h.symm).elim
      | none =>
        cases hrightBigint : host.isBigintValue right with
        | some m =>
          refine ⟨fun h => (Bool.false_ne_true h).elim, ?_⟩
          exact fun h => ((plainMeaning_ne left).2 _ h).elim
        | none =>
          by_cases heq : left = right
          · subst heq
            rw [if_pos rfl]
            exact ⟨fun _ => rfl, fun _ => rfl⟩
          · rw [if_neg heq]
            simp only [plainMeaning]
            split
            next units units' hcell hcell' =>
              rw [hcell, hcell', decide_eq_true_eq]
              exact ⟨congrArg Meaning.text, Meaning.text.inj⟩
            next hcells =>
              refine ⟨fun h => (Bool.false_ne_true h).elim, ?_⟩
              split
              next units hcell =>
                split
                next units' hcell' =>
                  exact absurd hcell' (hcells units units' hcell)
                · exact fun h => nomatch h
              · split
                · exact fun h => nomatch h
                · exact fun h => absurd (Meaning.other.inj h) heq

theorem sameValue_refl (val : Value) : host.sameValue val val = true :=
  (sameValue_iff val val).mpr rfl

theorem sameValue_trans {first second third : Value} (h : host.sameValue first second = true)
    (h' : host.sameValue second third = true) : host.sameValue first third = true :=
  (sameValue_iff first third).mpr
    (((sameValue_iff first second).mp h).trans ((sameValue_iff second third).mp h'))

variable {val : Value}

/-- A value whose cell is a function is a reference to it. -/
theorem Callable.cases (h : host.Callable val) :
    val = .undefined ∨ ∃ ref, val = .heapRef ref ∧ host.cell ref = .function := by
  rcases h with rfl | hcell
  · exact .inl rfl
  · right
    cases val with
    | heapRef ref =>
      exact ⟨ref, rfl, Option.some.inj hcell⟩
    | float _ | int32 _ | immediate _ | smallBigint _ => cases hcell

theorem Callable.meaning (h : host.Callable val) : host.meaning val = .other val := by
  rcases h.cases with rfl | ⟨ref, rfl, hcell⟩
  · rfl
  · have hnumber : numericValue (.heapRef ref) = none := rfl
    simp only [PropertyHost.meaning, hnumber, isBigintValue, cellOf, Value.asHeapRef,
      Option.map_some, hcell, plainMeaning]

/-- Functions are the same value only if they are equal. -/
theorem eq_of_sameValue {left right : Value} (hl : host.Callable left)
    (hr : host.Callable right) (hs : host.sameValue left right = true) : left = right := by
  rw [sameValue_iff, hl.meaning, hr.meaning] at hs
  exact Meaning.other.inj hs

end PropertyHost

namespace PropertyObject

variable {host : PropertyHost} {mem : MemoryRequest → Bool} {obj : PropertyObject}
  {key : PropertyKey}

/-! ## Publications -/

theorem ends_request {asked : MemoryRequest} {returns : Unit → PropertyObject → Prop}
    {fails : DescriptorError → PropertyObject → Prop} :
    Ends (request mem asked) returns fails obj ↔
      if mem asked then returns () obj else fails (.refused asked) obj := by
  simp only [request]
  split
  · exact ends_pure ()
  · exact ends_throw _

theorem ends_add (prop : OwnProperty) : Ends (addPropertySlotWithKind mem prop)
      (fun _ post => post = obj.withProperties (obj.properties ++ [prop]) ∧
        mem (.addition prop.key) = true) (fun _ post => post = obj) obj := by
  rw [addPropertySlotWithKind, ends_bind, ends_request]
  split_ifs with hgr
  · exact ends_modify _ |>.mpr ⟨rfl, hgr⟩
  · rfl

theorem ends_remove (key : PropertyKey) : Ends (removePropertySlot mem key)
      (fun _ post => post = obj.withProperties (retained key obj.properties))
      (fun err post => post = obj ∧ err = .refused (.removal key) ∧
        mem (.removal key) = false) obj := by
  rw [removePropertySlot, ends_bind, ends_request]
  split_ifs with href
  · exact ends_modify _ |>.mpr rfl
  · exact ⟨rfl, rfl, Bool.not_eq_true _ ▸ href⟩

/-- A transition that keeps the shape is not refused. -/
theorem ends_reconfigure (prop : OwnProperty) (attributes : PropertyAttributes)
    (payload : StoredProperty) : Ends (reconfigure mem prop attributes payload)
      (fun _ post => post =
          obj.withProperties (replaced { prop with attributes, payload } obj.properties) ∧
        (mem (.reconfiguration prop.key) = true ∨
          prop.payload.kind = payload.kind ∧ prop.attributes = attributes))
      (fun err post => post = obj ∧ err = .refused (.reconfiguration prop.key) ∧
        mem (.reconfiguration prop.key) = false ∧
        ¬ (prop.payload.kind = payload.kind ∧ prop.attributes = attributes)) obj := by
  simp only [reconfigure]
  split_ifs with hs
  · exact ends_modify _ |>.mpr ⟨rfl, .inr hs⟩
  · rw [ends_bind, ends_request]
    split_ifs with hgr
    · exact ends_modify _ |>.mpr ⟨rfl, .inl hgr⟩
    · exact ⟨rfl, rfl, Bool.not_eq_true _ ▸ hgr, hs⟩

/-! ## Dense elements -/

/-- The elements of an Array are in its backing. -/
theorem elements_of_array {elements : ArrayElements} (h : obj.elements = some elements) :
    obj.isArray = true := by
  simp only [PropertyObject.elements] at h
  split at h
  next hex =>
    simp only [isArray, hex]
  · cases h

/-- The object after a write of one dense element. -/
structure DenseWrite (obj : PropertyObject) (index : Nat) (written : Option Value)
    (post : PropertyObject) : Prop where
  array : obj.isArray = true
  result : ∃ elements, elements.Backed ∧ post = obj.withElements elements ∧
    ∀ i, elements.value i = if i = index then written else obj.denseAt i

variable {idx : Nat} {val : Value}

theorem ends_growDense (h : obj.WellFormed host) {previous : Option ArrayElements} (harray :
    obj.isArray = true) (hprev : obj.elements = previous) (hv : val ≠ PropertyStorage.hole) :
    Ends (growDenseArrayValue mem previous idx val)
      (fun _ post => obj.DenseWrite idx (some val) post) (fun _ post => post = obj) obj := by
  simp only [growDenseArrayValue]
  split
  · rfl
  · split
    · rfl
    next written hwri =>
      obtain ⟨grown, hgrown, hset⟩ := Option.bind_eq_some_iff.mp hwri
      have hcopy : grown.Backed ∧ ∀ i, grown.value i = obj.denseAt i := by
        cases previous with
        | none =>
          cases hgrown
          refine ⟨ArrayElements.backed_withCapacity _, ?_⟩
          intro i
          rw [denseAt, hprev]
          rfl
        | some elements =>
          obtain ⟨hbacked, hs⟩ := ArrayElements.growCopy_spec (h.backed _ hprev) hgrown
          refine ⟨hbacked, ?_⟩
          intro i
          rw [hs, denseAt, hprev]
          rfl
      obtain ⟨hbacked, hvalues⟩ := ArrayElements.set_spec hcopy.1 hv hset
      rw [ends_bind, ends_request]
      split
      · refine ends_modify _ |>.mpr ⟨harray, written, hbacked, rfl, ?_⟩
        intro i
        rw [hvalues, hcopy.2]
      · rfl

theorem ends_setDense (h : obj.WellFormed host) (hv : val ≠ PropertyStorage.hole) :
    Ends (setDenseArrayValue mem idx val)
      (fun stored post => if stored then obj.DenseWrite idx (some val) post
        else post = obj) (fun _ post => post = obj) obj := by
  have hgrow : ∀ previous, obj.exotic = .array previous →
      Ends (growDenseArrayValue mem previous idx val >>= fun _ => pure true)
        (fun stored post => if stored then obj.DenseWrite idx (some val) post
          else post = obj)
        (fun _ post => post = obj) obj := by
    intro previous hex
    have harray : obj.isArray = true := by
      rw [isArray, hex]
    have helems : obj.elements = previous := by
      rw [PropertyObject.elements, hex]
    rw [ends_bind]
    exact (ends_growDense h harray helems hv).imp (fun _ _ hwrite => hwrite) (fun _ _ hs => hs)
  rw [setDenseArrayValue, ends_bind, ends_get]
  split
  · rfl
  · split
    · split
      · rfl
      next hex _ =>
        exact hgrow none hex
    next elements hex =>
      have helems : obj.elements = some elements := by
        rw [PropertyObject.elements, hex]
      split
      · rfl
      · split
        · split
          · rfl
          next written hset =>
            obtain ⟨hbacked, hvalues⟩ := ArrayElements.set_spec (h.backed _ helems) hv hset
            rw [ends_bind]
            refine ⟨elements_of_array helems, written, hbacked, rfl, ?_⟩
            intro i
            rw [hvalues, denseAt, helems]
            rfl
        · exact hgrow (some elements) hex
    · rfl

theorem ends_deleteDense (hbacked : ∀ elements, obj.elements = some elements → elements.Backed)
    (key : PropertyKey) :
    Ends (deleteDenseArrayValue host key) (fun deleted post =>
        if deleted then ∃ idx, host.arrayPropertyIndex key = some idx ∧
          (obj.denseAt idx).isSome ∧ obj.DenseWrite idx none post
        else post = obj ∧ obj.denseArrayValue host key = none) (fun _ _ => False) obj := by
  rw [deleteDenseArrayValue, ends_bind, ends_get]
  dsimp only
  split
  next hdeleted =>
    refine ⟨rfl, ?_⟩
    rw [denseArrayValue_eq]
    cases hi : host.arrayPropertyIndex key with
    | none => rfl
    | some idx =>
      rw [Option.bind_some, denseAt]
      cases helems : obj.elements with
      | none => rfl
      | some elements =>
        rw [hi, helems] at hdeleted
        exact ArrayElements.delete_eq_none (hbacked _ helems) hdeleted
  next deleted hdeleted =>
    obtain ⟨idx, hi, hdelete⟩ := Option.bind_eq_some_iff.mp hdeleted
    obtain ⟨elements, helems, hdelete⟩ := Option.bind_eq_some_iff.mp hdelete
    obtain ⟨ha, hpres, hvalues⟩ := ArrayElements.delete_spec (hbacked _ helems) hdelete
    have hd : obj.denseAt = elements.value := by
      funext i
      rw [denseAt, helems]
      rfl
    rw [ends_bind]
    refine ends_modify _ |>.mpr ⟨idx, hi, ?_, elements_of_array helems, deleted, ha, rfl, ?_⟩
    · rw [hd]
      exact hpres
    · intro i
      rw [hvalues, hd]

theorem ends_truncateDense (h : obj.WellFormed host) (length : Nat) :
    Ends (truncateDenseArray length) (fun _ post => (obj.elements = none ∧ post = obj) ∨
        ∃ elements, obj.isArray = true ∧ elements.Backed ∧ post = obj.withElements elements ∧
          ∀ i, elements.value i = if i < length then obj.denseAt i else none)
      (fun _ _ => False) obj := by
  rw [truncateDenseArray, ends_bind, ends_get]
  split
  next hn =>
    exact .inl ⟨hn, rfl⟩
  next elements helems =>
    obtain ⟨hbacked, hvalues⟩ := ArrayElements.truncate_spec (h.backed _ helems) length
    refine ends_modify _ |>.mpr (.inr ⟨_, elements_of_array helems, hbacked, rfl, ?_⟩)
    intro i
    rw [hvalues, denseAt, helems]
    rfl

/-! ## Redefinitions -/

end PropertyObject

/-- The descriptor holds no hole and its accessor functions are functions. -/
def PropertyDescriptor.Valid (host : PropertyHost) : PropertyDescriptor → Prop
  | .generic _ => True
  | .data desc => desc.value ≠ some PropertyStorage.hole
  | .accessor desc =>
    host.Callable (desc.getter.getD .undefined) ∧ host.Callable (desc.setter.getD .undefined)

namespace PropertyObject

variable {host : PropertyHost} {mem : MemoryRequest → Bool} {obj : PropertyObject}
  {key : PropertyKey} {prop : OwnProperty} {desc : PropertyDescriptor}

/-- The content after a redefinition. -/
def redefinedPayload (current : StoredProperty) : PropertyDescriptor → StoredProperty
  | .generic _ => current
  | .data desc =>
    match current with
    | .data value => .data (desc.value.getD value)
    | .accessor _ _ => .data (desc.value.getD .undefined)
  | .accessor desc =>
    match current with
    | .data _ => .accessor (desc.getter.getD .undefined) (desc.setter.getD .undefined)
    | .accessor getter setter =>
      .accessor (desc.getter.getD getter) (desc.setter.getD setter)

/-- Whether the property is writable after a redefinition. -/
def redefinedWritable (prop : OwnProperty) : PropertyDescriptor → Bool
  | .generic _ =>
    match prop.kind with
    | .data => prop.attributes.writable
    | .accessor => false
  | .data desc =>
    desc.writable.getD <|
      match prop.kind with
      | .data => prop.attributes.writable
      | .accessor => false
  | .accessor _ => false

/-- The property after a redefinition. -/
def redefined (prop : OwnProperty) (desc : PropertyDescriptor) : OwnProperty :=
  { prop with
    attributes := withOrigin prop
      (.data (redefinedWritable prop desc) (desc.enumerable.getD prop.attributes.enumerable)
        (desc.configurable.getD prop.attributes.configurable))
    payload := redefinedPayload prop.payload desc }

@[simp]
theorem redefined_key (prop : OwnProperty) (desc : PropertyDescriptor) :
    (redefined prop desc).key = prop.key := rfl

theorem withOrigin_flags (prop : OwnProperty) (attributes : PropertyAttributes) :
    (withOrigin prop attributes).writable = attributes.writable ∧
      (withOrigin prop attributes).enumerable = attributes.enumerable ∧
      (withOrigin prop attributes).configurable = attributes.configurable := by
  simp only [withOrigin]
  split
  · exact ⟨rfl, rfl, rfl⟩
  · exact ⟨rfl, rfl, rfl⟩

theorem redefined_writable (prop : OwnProperty) (desc : PropertyDescriptor) :
    (redefined prop desc).attributes.writable = redefinedWritable prop desc :=
  (withOrigin_flags prop _).1

theorem redefined_enumerable (prop : OwnProperty) (desc : PropertyDescriptor) :
    (redefined prop desc).attributes.enumerable = desc.enumerable.getD prop.attributes.enumerable :=
  (withOrigin_flags prop _).2.1

theorem redefined_configurable (prop : OwnProperty) (desc : PropertyDescriptor) :
    (redefined prop desc).attributes.configurable =
      desc.configurable.getD prop.attributes.configurable :=
  (withOrigin_flags prop _).2.2

theorem valid_redefinedPayload {cur : StoredProperty} (hcur : cur.Valid host)
    (hdesc : desc.Valid host) : (redefinedPayload cur desc).Valid host := by
  have hundefined : Value.undefined ≠ PropertyStorage.hole := by decide
  have hpart : ∀ {field : Option Value} {val : Value}, host.Callable (field.getD .undefined) →
      host.Callable val → host.Callable (field.getD val) := by
    intro field val hfield hv
    cases field with
    | none => exact hv
    | some val => exact hfield
  cases desc with
  | generic desc => exact hcur
  | data desc =>
    have hv : ∀ val, val ≠ PropertyStorage.hole → desc.value.getD val ≠ PropertyStorage.hole := by
      intro val hv heq
      cases hfield : desc.value with
      | none =>
        rw [hfield] at heq
        exact hv heq
      | some written =>
        rw [hfield] at heq
        exact hdesc (heq ▸ hfield)
    cases cur with
    | data val => exact hv val hcur
    | accessor getter setter => exact hv .undefined hundefined
  | accessor desc =>
    cases cur with
    | data val => exact hdesc
    | accessor getter setter =>
      exact ⟨hpart hdesc.1 hcur.1, hpart hdesc.2 hcur.2⟩

/-- What the validation lets pass keeps a property that is not configurable. -/
theorem redefines_of_validate (hcur : prop.payload.Valid host) (hdesc : desc.Valid host)
    (hpass : validatePropertyRedefinition host prop prop.payload desc = true) :
    Redefines host prop (redefined prop desc) := by
  refine ⟨rfl, valid_redefinedPayload hcur hdesc, ?_⟩
  intro hfixed
  rw [redefined_configurable, redefined_enumerable, hfixed]
  simp only [validatePropertyRedefinition, hfixed, Bool.false_or, Bool.and_eq_true,
    decide_eq_true_eq] at hpass
  obtain ⟨⟨⟨hconf, henumerable⟩, hk⟩, hcontent⟩ := hpass
  refine ⟨?_, ?_, ?_⟩
  · cases hfield : desc.configurable with
    | none => rfl
    | some flag =>
      cases flag with
      | false => rfl
      | true => exact absurd hfield hconf
  · cases hfield : desc.enumerable with
    | none => rfl
    | some flag =>
      rw [hfield] at henumerable
      exact of_decide_eq_true henumerable
  · have hdatum : ∀ {field : Option Value} {val : Value}, agrees host field val = true →
        host.Callable (field.getD .undefined) → host.Callable val → field.getD val = val := by
      intro field val hagrees hfield hv
      cases field with
      | none => rfl
      | some written => exact PropertyHost.eq_of_sameValue hfield hv hagrees
    have hw := redefined_writable prop desc
    simp only [SameContent]
    rw [hw]
    simp only [redefined, redefinedWritable, OwnProperty.kind] at hk ⊢
    cases hpay : prop.payload with
    | data val =>
      simp only [hpay] at hcontent hk
      cases desc with
      | generic desc => exact fun hro => ⟨hro, PropertyHost.sameValue_refl val⟩
      | data desc =>
        intro hro
        simp only [hro, Bool.false_or, Bool.and_eq_true, decide_eq_true_eq] at hcontent
        refine ⟨?_, ?_⟩
        · show desc.writable.getD prop.attributes.writable = false
          cases hfield : desc.writable with
          | none => exact hro
          | some flag =>
            cases flag with
            | false => rfl
            | true => exact absurd hfield hcontent.1
        · cases hfield : desc.value with
          | none => exact PropertyHost.sameValue_refl val
          | some written =>
            rw [hfield] at hcontent
            exact hcontent.2
      | accessor desc => cases hk
    | accessor getter setter =>
      simp only [hpay] at hcontent hcur hk
      cases desc with
      | generic desc => exact ⟨rfl, rfl⟩
      | data desc => cases hk
      | accessor desc =>
        simp only [Bool.and_eq_true] at hcontent
        exact ⟨hdatum hcontent.1 hdesc.1 hcur.1, hdatum hcontent.2 hdesc.2 hcur.2⟩

theorem ends_validateCallable (val : Value) :
    Ends (validateAccessorCallable host val) (fun _ post => post = obj ∧ host.Callable val)
      (fun _ post => post = obj) obj := by
  simp only [validateAccessorCallable]
  split_ifs with hcallable
  · exact ⟨rfl, hcallable⟩
  · rfl

theorem ends_allocatePair (getter setter : Value) :
    Ends (allocateAccessorPair host mem getter setter)
      (fun pair post => pair = .accessor getter setter ∧ post = obj ∧
        host.Callable getter ∧ host.Callable setter) (fun _ post => post = obj) obj := by
  rw [allocateAccessorPair, ends_bind]
  refine (ends_validateCallable getter).imp ?_ (fun _ _ h => h)
  rintro _ post ⟨rfl, hgetter⟩
  rw [ends_bind]
  refine (ends_validateCallable setter).imp ?_ (fun _ _ h => h)
  rintro _ post ⟨rfl, hsetter⟩
  rw [ends_bind, ends_request]
  split
  · exact ⟨rfl, rfl, hgetter, hsetter⟩
  · rfl

section

variable (host : PropertyHost) (mem : MemoryRequest → Bool) (prop : OwnProperty)
  (desc : PropertyDescriptor) (obj : PropertyObject) (err : DescriptorError)
  (post : PropertyObject)

/-- What a redefinition leaves behind. -/
def RedefinedTo : Prop := validatePropertyRedefinition host prop prop.payload desc = true ∧
    post = obj.withProperties (replaced (redefined prop desc) obj.properties) ∧
    (mem (.reconfiguration prop.key) = true ∨
      prop.payload.kind = (redefined prop desc).payload.kind ∧
        prop.attributes = (redefined prop desc).attributes)

/-- A redefinition that the validation lets pass can only be refused a new shape or a pair. -/
def RedefinitionRefused : Prop :=
  post = obj ∧ (validatePropertyRedefinition host prop prop.payload desc = true →
    desc.requestedKind = some .accessor ∨ err = .refused (.reconfiguration prop.key) ∧
      mem (.reconfiguration prop.key) = false ∧
      (prop.payload.kind ≠ (redefinedPayload prop.payload desc).kind ∨
        prop.attributes ≠ (redefined prop desc).attributes))

end

theorem ends_redefinePresentProperty (prop : OwnProperty) (desc : PropertyDescriptor) :
    Ends (redefinePresentProperty host mem prop prop.payload desc)
      (fun _ => RedefinedTo host mem prop desc obj)
      (RedefinitionRefused host mem prop desc obj) obj := by
  simp only [redefinePresentProperty]
  split
  next hpass =>
    have hpublish : ∀ {payload : StoredProperty} {attributes : PropertyAttributes},
        payload = redefinedPayload prop.payload desc →
        attributes = (redefined prop desc).attributes →
        Ends (reconfigure mem prop attributes payload) (fun _ => RedefinedTo host mem prop desc obj)
          (RedefinitionRefused host mem prop desc obj) obj := by
      rintro payload attributes rfl rfl
      refine (ends_reconfigure prop _ _).imp ?_ ?_
      · rintro _ post ⟨rfl, hgr⟩
        exact ⟨hpass, rfl, hgr⟩
      · rintro _ post ⟨rfl, herr, href, hchanged⟩
        exact ⟨rfl, fun _ => .inr ⟨herr, href, not_and_or.mp hchanged⟩⟩
    cases desc with
    | generic desc =>
      refine hpublish rfl ?_
      simp only [redefined, redefinedWritable, OwnProperty.kind]
      cases prop.payload with
      | data val | accessor getter setter => rfl
    | data desc =>
      cases hpay : prop.payload with
      | data val | accessor getter setter =>
        refine hpublish ?_ ?_
        · rw [hpay]
          rfl
        · simp only [redefined, redefinedWritable, OwnProperty.kind, hpay]
          rfl
    | accessor desc =>
      simp only [applyAccessorDescriptor]
      cases hpay : prop.payload with
      | data val =>
        rw [ends_bind]
        refine (ends_allocatePair _ _).imp ?_ ?_
        · rintro pair post ⟨rfl, rfl, -, -⟩
          refine hpublish ?_ rfl
          rw [hpay]
          rfl
        · rintro _ post rfl
          exact ⟨rfl, fun _ => .inl rfl⟩
      | accessor getter setter =>
        refine hpublish ?_ rfl
        rw [hpay]
        rfl
  next hfail =>
    exact ⟨rfl, fun hpass => absurd hpass hfail⟩

/-! ## Missing properties -/

/-- The property that a descriptor creates. -/
def created (key : PropertyKey) (desc : PropertyDescriptor) : OwnProperty :=
  { key := key
    attributes := .data
        (match desc with
          | .data desc => desc.writable.getD false
          | _ => false)
        (desc.enumerable.getD false) (desc.configurable.getD false)
    payload := redefinedPayload (.data .undefined) desc }

theorem valid_created (hdesc : desc.Valid host) (key : PropertyKey) :
    (created key desc).payload.Valid host :=
  valid_redefinedPayload (by decide : Value.undefined ≠ PropertyStorage.hole) hdesc

theorem ends_publishMissing (prop : OwnProperty) (hnew : obj.lookup prop.key = none) :
    Ends (publishMissingProperty mem prop)
      (fun _ post => post = obj.withProperties (obj.properties ++ [prop]) ∧
        mem (.addition prop.key) = true) (fun _ post => post = obj) obj := by
  rw [publishMissingProperty, ends_bind, ends_get, hnew]
  exact ends_add prop

theorem ends_defineMissingRaw (hnew : obj.lookup key = none) (desc : PropertyDescriptor) :
    Ends (defineMissingPropertyRaw host mem key desc)
      (fun _ post => post = obj.withProperties (obj.properties ++ [created key desc]) ∧
        mem (.addition key) = true) (fun _ post => post = obj) obj := by
  cases desc with
  | generic desc => exact ends_publishMissing (created key (.generic desc)) hnew
  | data desc => exact ends_publishMissing (created key (.data desc)) hnew
  | accessor desc =>
    simp only [defineMissingPropertyRaw]
    rw [ends_bind]
    refine (ends_allocatePair _ _).imp ?_ (fun _ _ h => h)
    rintro pair post ⟨rfl, rfl, -, -⟩
    exact ends_publishMissing (created key (.accessor desc)) hnew

/-! ## Deleting -/

/-- How a deletion that returns may end. -/
inductive Deleted (host : PropertyHost) (obj : PropertyObject) (key : PropertyKey) :
    Bool → PropertyObject → Prop where
  | dense {index : Nat} {post : PropertyObject} (spelled : host.arrayPropertyIndex key = some index)
      (present : (obj.denseAt index).isSome) (written : obj.DenseWrite index none post) :
      Deleted host obj key true post
  | absent (missing : obj.ownProperty host key = none) : Deleted host obj key true obj
  | removed {prop : OwnProperty} (found : obj.lookup key = some prop)
      (configurable : prop.attributes.configurable = true) :
      Deleted host obj key true (obj.withProperties (retained key obj.properties))
  | blocked {prop : OwnProperty} (found : obj.lookup key = some prop)
      (fixed : prop.attributes.configurable = false) : Deleted host obj key false obj

theorem ends_delete (h : obj.WellFormed host) (key : PropertyKey) :
    Ends (deleteOwnDataProperty host mem key) (Deleted host obj key)
      (fun err post => post = obj ∧ err = .refused (.removal key) ∧ mem (.removal key) = false ∧
        ∃ prop, obj.lookup key = some prop ∧ prop.attributes.configurable = true) obj := by
  rw [deleteOwnDataProperty, ends_bind]
  refine (ends_deleteDense h.backed key).imp ?_ (fun _ _ hfalse => hfalse.elim)
  intro deleted post hdeleted
  cases deleted with
  | true =>
    obtain ⟨idx, hi, hpres, hwri⟩ := hdeleted
    exact .dense hi hpres hwri
  | false =>
    obtain ⟨rfl, hd⟩ := hdeleted
    rw [if_neg Bool.false_ne_true, ends_bind, ends_get]
    cases hf : post.lookup key with
    | none => exact .absent (h.absent_iff.mpr ⟨hd, hf⟩)
    | some prop =>
      dsimp only
      rw [h.stored_lookup hf]
      cases hconf : prop.attributes.configurable with
      | false => exact .blocked hf hconf
      | true =>
        rw [Bool.not_true, if_neg Bool.false_ne_true, Option.isNone_some,
          if_neg Bool.false_ne_true, ends_bind]
        refine (ends_remove key).imp ?_ ?_
        · rintro _ post' rfl
          exact .removed hf hconf
        · rintro _ post' ⟨rfl, herr, href⟩
          exact ⟨rfl, herr, href, prop, rfl, hconf⟩

end PropertyObject

end TachyonEngine.Vm
