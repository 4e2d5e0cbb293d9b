import TachyonEngine.Vm.PropertyObject

/-!
# Defining, setting and deleting properties

The operations on one object as the source writes them, with the publications that can be refused in
the places where the source makes them. An error leaves the object as it is at that moment. The
array index of a key decides between the dense elements and the list of properties; the length of an
Array is a property of the list.
-/

namespace TachyonEngine.Vm

open Lib

/-! ## Descriptors -/

structure DataPropertyDescriptor where
  value : Option Value
  writable : Option Bool
  enumerable : Option Bool
  configurable : Option Bool

structure GenericPropertyDescriptor where
  enumerable : Option Bool
  configurable : Option Bool

structure AccessorPropertyDescriptor where
  getter : Option Value
  setter : Option Value
  enumerable : Option Bool
  configurable : Option Bool

inductive PropertyDescriptor where
  | generic (descriptor : GenericPropertyDescriptor)
  | data (descriptor : DataPropertyDescriptor)
  | accessor (descriptor : AccessorPropertyDescriptor)

namespace PropertyDescriptor

def enumerable : PropertyDescriptor → Option Bool
  | .generic descriptor => descriptor.enumerable
  | .data descriptor => descriptor.enumerable
  | .accessor descriptor => descriptor.enumerable

def configurable : PropertyDescriptor → Option Bool
  | .generic descriptor => descriptor.configurable
  | .data descriptor => descriptor.configurable
  | .accessor descriptor => descriptor.configurable

def requestedKind : PropertyDescriptor → Option PropertyKind
  | .generic _ => none
  | .data _ => some .data
  | .accessor _ => some .accessor

/-- The value of a data descriptor. -/
def value : PropertyDescriptor → Option Value
  | .data descriptor => descriptor.value
  | _ => none

end PropertyDescriptor

/-- A descriptor with the fields of a dense element where it has none. -/
def preserveDensePropertyFields (descriptor : PropertyDescriptor) (currentValue : Value) :
    PropertyDescriptor :=
  match descriptor with
  | .generic descriptor =>
    .data
      { value := some currentValue
        writable := some true
        enumerable := some (descriptor.enumerable.getD true)
        configurable := some (descriptor.configurable.getD true) }
  | .data descriptor =>
    .data
      { value := some (descriptor.value.getD currentValue)
        writable := some (descriptor.writable.getD true)
        enumerable := some (descriptor.enumerable.getD true)
        configurable := some (descriptor.configurable.getD true) }
  | .accessor descriptor =>
    .accessor
      { descriptor with
        enumerable := some (descriptor.enumerable.getD true)
        configurable := some (descriptor.configurable.getD true) }

/-! ## Publications -/

namespace PropertyObject

/-- The properties that a removal keeps, in the order in which it replays them: the string keys,
then the Symbols. Private names are not listed and are lost. -/
def retained (removed : PropertyKey) (properties : List OwnProperty) : List OwnProperty :=
  (properties.filter fun property =>
      property.key ≠ removed && !property.key.isPrivate && !property.key.isSymbol) ++
    properties.filter fun property =>
      property.key ≠ removed && !property.key.isPrivate && property.key.isSymbol

/-- The list with another property in the place of the one with its key. -/
def replaced (property : OwnProperty) (properties : List OwnProperty) : List OwnProperty :=
  properties.map fun old => if old.key = property.key then property else old

def withProperties (object : PropertyObject) (properties : List OwnProperty) : PropertyObject :=
  { object with properties := properties }

def withElements (object : PropertyObject) (elements : ArrayElements) : PropertyObject :=
  { object with exotic := .array (some elements) }

section Operations

variable (host : PropertyHost) (mem : MemoryRequest → Bool)

def request (asked : MemoryRequest) : ObjectM Unit :=
  if mem asked then pure () else throw (.refused asked)

def addPropertySlotWithKind (property : OwnProperty) : ObjectM Unit := do
  request mem (.addition property.key)
  modify fun object => object.withProperties (object.properties ++ [property])

def removePropertySlot (key : PropertyKey) : ObjectM Unit := do
  request mem (.removal key)
  modify fun object => object.withProperties (retained key object.properties)

/-- Writes the content of a property in place. -/
def updatePropertySlot (property : OwnProperty) (payload : StoredProperty) : ObjectM Unit :=
  modify fun object =>
    object.withProperties (replaced { property with payload := payload } object.properties)

/-- A transition to new flags and a new content. The source asks for nothing when the shape
stays. -/
def reconfigure (property : OwnProperty) (attributes : PropertyAttributes)
    (payload : StoredProperty) : ObjectM Unit :=
  let published := { property with attributes := attributes, payload := payload }
  let publish : ObjectM Unit :=
    modify fun object => object.withProperties (replaced published object.properties)
  if property.kind = published.kind ∧ property.attributes = attributes then publish
  else do
    request mem (.reconfiguration property.key)
    publish

/-! ## Dense elements -/

def setElements (elements : ArrayElements) : ObjectM Unit :=
  modify fun object => object.withElements elements

def growDenseArrayValue (previous : Option ArrayElements) (index : Nat) (value : Value) :
    ObjectM Unit :=
  match grownDenseElementCapacity (previous.elim 0 ArrayElements.capacity) (index + 1) with
  | none => throw .propertyStorageAllocationFailed
  | some capacity =>
    let grown :=
      match previous with
      | none => some (ArrayElements.withCapacity capacity)
      | some elements => elements.growCopy capacity
    match grown.bind fun grown => grown.set index value with
    | none => throw .propertyStorageAllocationFailed
    | some written => do
        request mem .elements
        setElements written

/-- Writes a dense element; the result tells whether the index is one for the dense elements. -/
def setDenseArrayValue (index : Nat) (value : Value) : ObjectM Bool := do
  let object ← get
  if maxDenseElementIndex < index then pure false
  else
    match object.exotic with
    | .array none =>
      if initialDenseElementCapacity ≤ index then pure false
      else do
        growDenseArrayValue mem none index value
        pure true
    | .array (some elements) =>
      if maxDenseGrowthGap < index - elements.capacity then pure false
      else if index < elements.capacity then
        match elements.set index value with
        | none => throw .propertyStorageAllocationFailed
        | some written => do
            setElements written
            pure true
      else do
        growDenseArrayValue mem (some elements) index value
        pure true
    | _ => pure false

/-- A write of an element that may not be one for the dense elements. -/
def tryDenseArrayValue (candidate : Option (Nat × Value)) : ObjectM Bool :=
  match candidate with
  | none => pure false
  | some (index, value) => setDenseArrayValue mem index value

def deleteDenseArrayValue (key : PropertyKey) : ObjectM Bool := do
  let object ← get
  let deleted := (host.arrayPropertyIndex key).bind fun index =>
    object.elements.bind fun elements => elements.delete index
  match deleted with
  | none => pure false
  | some elements => do
      setElements elements
      pure true

def truncateDenseArray (length : Nat) : ObjectM Unit := do
  let object ← get
  match object.elements with
  | none => pure ()
  | some elements => setElements (elements.truncate length)

/-! ## Mapped arguments -/

/-- Writes a mapped index to its parameter register. -/
def syncMappedArgument (key : PropertyKey) (value : Value) : ObjectM Unit := do
  let object ← get
  match object.lookup key with
  | none => pure ()
  | some property =>
    if isWritableData property then
      match object.mappedArgumentFrame host key with
      | none => pure ()
      | some index =>
        modify fun object =>
          { object with registers := Function.update object.registers index value }
    else pure ()

/-! ## Complete descriptors -/

def completeOwnPropertyDescriptor (object : PropertyObject) (key : PropertyKey) :
    Option PropertyDescriptor :=
  match object.denseArrayValue host key with
  | some value => some (.data ⟨some value, some true, some true, some true⟩)
  | none =>
    match object.lookup key with
    | none => none
    | some property =>
      let attributes := property.attributes
      property.stored.map fun stored =>
        match stored with
        | .data value =>
          .data
            { value := some ((object.mappedArgumentValue host key).getD value)
              writable := some attributes.writable
              enumerable := some attributes.enumerable
              configurable := some attributes.configurable }
        | .accessor getter setter =>
          .accessor
            { getter := some getter
              setter := some setter
              enumerable := some attributes.enumerable
              configurable := some attributes.configurable }

/-! ## Redefining -/

/-- Accepts functions and `undefined`. -/
def validateAccessorCallable (value : Value) : ObjectM Unit :=
  if value = .undefined ∨ host.cellOf value = some .function then pure ()
  else throw (.nonCallable value)

def allocateAccessorPair (getter setter : Value) : ObjectM StoredProperty := do
  validateAccessorCallable host getter
  validateAccessorCallable host setter
  request mem .accessorPair
  pure (.accessor getter setter)

/-- Whether a field is absent or agrees with what is stored. -/
def agrees (field : Option Value) (current : Value) : Bool :=
  match field with
  | none => true
  | some value => host.sameValue value current

/-- Whether the source lets the redefinition pass. -/
def validatePropertyRedefinition (property : OwnProperty) (current : StoredProperty)
    (descriptor : PropertyDescriptor) : Bool :=
  property.attributes.configurable || (descriptor.configurable ≠ some true &&
      descriptor.enumerable.all (fun value => value = property.attributes.enumerable) &&
      descriptor.requestedKind.all (fun kind => kind = property.kind) &&
      match current, descriptor with
      | .data current, .data descriptor =>
        property.attributes.writable ||
          (descriptor.writable ≠ some true && agrees host descriptor.value current)
      | .accessor getter setter, .accessor descriptor =>
        agrees host descriptor.getter getter && agrees host descriptor.setter setter
      | _, _ => true)

/-- New flags of a property; the mark of a materialized function field stays. -/
def withOrigin (property : OwnProperty) (attributes : PropertyAttributes) : PropertyAttributes :=
  if property.attributes.virtualOrigin then attributes.withVirtualOrigin else attributes

def applyDataDescriptor (property : OwnProperty) (current : StoredProperty)
    (descriptor : DataPropertyDescriptor) (enumerable configurable : Bool) : ObjectM Unit :=
  let (currentValue, currentWritable) :=
    match current with
    | .data value => (value, property.attributes.writable)
    | .accessor _ _ => (Value.undefined, false)
  let attributes := withOrigin property
    (.data (descriptor.writable.getD currentWritable) enumerable configurable)
  reconfigure mem property attributes (.data (descriptor.value.getD currentValue))

def applyAccessorDescriptor (property : OwnProperty) (current : StoredProperty)
    (descriptor : AccessorPropertyDescriptor) (enumerable configurable : Bool) : ObjectM Unit :=
  let attributes := withOrigin property (.accessor enumerable configurable)
  match current with
  | .accessor getter setter =>
    reconfigure mem property attributes
      (.accessor (descriptor.getter.getD getter) (descriptor.setter.getD setter))
  | .data _ => do
      let pair ← allocateAccessorPair host mem (descriptor.getter.getD .undefined)
        (descriptor.setter.getD .undefined)
      reconfigure mem property attributes pair

def redefinePresentProperty (property : OwnProperty) (current : StoredProperty)
    (descriptor : PropertyDescriptor) : ObjectM Unit :=
  if validatePropertyRedefinition host property current descriptor then
    let enumerable := descriptor.enumerable.getD property.attributes.enumerable
    let configurable := descriptor.configurable.getD property.attributes.configurable
    match descriptor with
    | .generic _ =>
      let attributes :=
        match property.kind with
        | .data => PropertyAttributes.data property.attributes.writable enumerable configurable
        | .accessor => .accessor enumerable configurable
      reconfigure mem property (withOrigin property attributes) property.payload
    | .data descriptor =>
      applyDataDescriptor mem property current descriptor enumerable configurable
    | .accessor descriptor =>
      applyAccessorDescriptor host mem property current descriptor enumerable configurable
  else throw .invalidPropertyRedefinition

/-! ## Deleting -/

def deleteOwnDataProperty (key : PropertyKey) : ObjectM Bool := do
  let deleted ← deleteDenseArrayValue host key
  if deleted then pure true
  else do
    let object ← get
    match object.lookup key with
    | none => pure true
    | some property =>
      if !property.attributes.configurable then pure false
      else if property.stored.isNone then pure true
      else do
        removePropertySlot mem key
        pure true

/-! ## The length of an Array -/

/-- Redefines the length as an ordinary property. -/
def redefineArrayLength (descriptor : PropertyDescriptor) : ObjectM Unit := do
  let object ← get
  match object.lookup host.lengthKey with
  | none => throw .invalidArrayLength
  | some property =>
    match property.stored with
    | none => throw .invalidArrayLength
    | some current => redefinePresentProperty host mem property current descriptor

/-- The indices from `newLength` on with their keys, from the largest on. The elements are dense or
in the list of properties. -/
def shrinkKeys (object : PropertyObject) (newLength : Nat) : List (Nat × PropertyKey) :=
  let dense := (object.elements.elim [] ArrayElements.presentIndices).map fun index =>
    (index, host.atoms.indexKey index)
  let structural := object.properties.filterMap fun property =>
    if property.stored.isSome then
      (host.arrayPropertyIndex property.key).map fun index => (index, property.key)
    else none
  ((dense ++ structural).filter fun entry => newLength ≤ entry.1).mergeSort fun left right =>
    right.1 ≤ left.1

/-- Lists the keys; the list needs memory. -/
def arrayShrinkKeys (newLength : Nat) : ObjectM (List (Nat × PropertyKey)) := do
  request mem .ownKeys
  let object ← get
  pure (object.shrinkKeys host newLength)

/-- The loop over the keys: the first index that cannot be deleted, if there is one. -/
def deleteShrunk : List (Nat × PropertyKey) → ObjectM (Option Nat)
  | [] => pure none
  | (index, key) :: rest => do
      let deleted ← deleteOwnDataProperty host mem key
      if deleted then deleteShrunk rest else pure (some index)

/-- The length and whether it is writable, as a complete descriptor has them. -/
def arrayLength (object : PropertyObject) : Option (F64 × Option Bool) :=
  match object.completeOwnPropertyDescriptor host host.lengthKey with
  | some (.data data) => (data.value.bind numericValue).map fun number => (number, data.writable)
  | _ => none

def arraySetLengthDescriptorCanonical (descriptor : PropertyDescriptor) (newLength : Nat) :
    ObjectM Unit := do
  let object ← get
  match object.arrayLength host with
  | none => throw .invalidArrayLength
  | some (oldNumber, oldWritable) =>
    match descriptor with
    | .data data =>
      let oldLength := oldNumber.toUInt32.toNat
      let newData := { data with value := some (safeIntegerValue newLength) }
      if oldLength ≤ newLength then redefineArrayLength host mem (.data newData)
      else if oldWritable ≠ some true then throw .invalidPropertyRedefinition
      else do
        let delayReadOnly := newData.writable = some false
        let newData := if delayReadOnly then { newData with writable := some true } else newData
        redefineArrayLength host mem (.data newData)
        let keys ← arrayShrinkKeys host mem newLength
        let blocked ← deleteShrunk host mem keys
        match blocked with
        | some index => do
            let restored :=
              { newData with
                value := some (safeIntegerValue (index + 1))
                writable := if delayReadOnly then some false else newData.writable }
            truncateDenseArray (index + 1)
            redefineArrayLength host mem (.data restored)
            throw .invalidPropertyRedefinition
        | none => do
            truncateDenseArray newLength
            if delayReadOnly then
              redefineArrayLength host mem (.data ⟨none, some false, none, none⟩)
            else pure ()
    | _ => throw .invalidPropertyRedefinition

def arraySetLengthDescriptor (descriptor : PropertyDescriptor) : ObjectM Unit :=
  match descriptor.value with
  | none => redefineArrayLength host mem descriptor
  | some value =>
    match host.primitiveArrayLength value with
    | .error error => throw error
    | .ok newLength => arraySetLengthDescriptorCanonical host mem descriptor newLength

def setArrayLengthValue (value : Value) : ObjectM Unit :=
  arraySetLengthDescriptor host mem (.data ⟨some value, none, none, none⟩)

/-- Grows the length past a new index. The source goes through `set_own_data_property`, which takes
this way for the length of an Array. -/
def growArrayLengthForIndexProperty (key : PropertyKey) : ObjectM Unit := do
  let object ← get
  if object.isArray then
    match host.arrayPropertyIndex key with
    | none => pure ()
    | some index =>
      let currentLength := ((object.arrayLength host).map Prod.fst).getD (Float.Model.ofInt 0)
      let nextLength := (Float.Model.ofInt index).add (Float.Model.ofInt 1)
      if currentLength.lt nextLength then
        setArrayLengthValue host mem (safeIntegerValue nextLength.toUInt64.toNat)
      else pure ()
  else pure ()

/-- Rejects an index past a length that is read-only. -/
def guardArrayIndexGrowth (index : Nat) : ObjectM Unit := do
  let object ← get
  match object.arrayLength host with
  | none => throw .invalidArrayLength
  | some (number, writable) =>
    if number.toUInt32.toNat ≤ index ∧ writable ≠ some true then throw .invalidPropertyRedefinition
    else pure ()

/-! ## Creating -/

def publishMissingProperty (property : OwnProperty) : ObjectM Unit := do
  let object ← get
  if (object.lookup property.key).isSome then do
    removePropertySlot mem property.key
    addPropertySlotWithKind mem property
  else addPropertySlotWithKind mem property

def defineMissingPropertyRaw (key : PropertyKey) (descriptor : PropertyDescriptor) : ObjectM Unit :=
  match descriptor with
  | .generic descriptor =>
    publishMissingProperty mem
      { key := key
        attributes := .data false (descriptor.enumerable.getD false)
          (descriptor.configurable.getD false)
        payload := .data .undefined }
  | .data descriptor =>
    publishMissingProperty mem
      { key := key
        attributes := .data (descriptor.writable.getD false) (descriptor.enumerable.getD false)
          (descriptor.configurable.getD false)
        payload := .data (descriptor.value.getD .undefined) }
  | .accessor descriptor => do
      let pair ← allocateAccessorPair host mem (descriptor.getter.getD .undefined)
        (descriptor.setter.getD .undefined)
      publishMissingProperty mem
        { key := key
          attributes := .accessor (descriptor.enumerable.getD false)
            (descriptor.configurable.getD false)
          payload := pair }

/-- The index and the value of a new property that may be a dense element. -/
def denseCandidate (key : PropertyKey) (descriptor : PropertyDescriptor) : Option (Nat × Value) :=
  match host.arrayPropertyIndex key, descriptor with
  | some index, .data ⟨some value, some true, some true, some true⟩ =>
    if index ≤ maxDenseElementIndex then some (index, value) else none
  | _, _ => none

def defineMissingProperty (key : PropertyKey) (descriptor : PropertyDescriptor) : ObjectM Unit := do
  let dense ← tryDenseArrayValue mem (denseCandidate host key descriptor)
  if dense then growArrayLengthForIndexProperty host mem key
  else do
    defineMissingPropertyRaw host mem key descriptor
    growArrayLengthForIndexProperty host mem key

/-! ## `define_property` -/

/-- Whether a descriptor leaves the default attributes of a dense element. -/
def staysDense : PropertyDescriptor → Bool
  | .data data =>
    data.writable ≠ some false && data.enumerable ≠ some false && data.configurable ≠ some false
  | .generic data => data.enumerable ≠ some false && data.configurable ≠ some false
  | .accessor _ => false

/-- The part of `define_property` for a dense element: a descriptor that the dense elements cannot
express moves the index to the list of properties. -/
def defineDenseProperty (key : PropertyKey) (currentValue : Value)
    (descriptor : PropertyDescriptor) :
    ObjectM Unit :=
  if staysDense descriptor then
    match host.arrayPropertyIndex key, descriptor.value with
    | some index, some value => do
        let _ ← setDenseArrayValue mem index value
        pure ()
    | _, _ => pure ()
  else do
    defineMissingPropertyRaw host mem key (preserveDensePropertyFields descriptor currentValue)
    let _ ← deleteDenseArrayValue host key
    pure ()

/-- The part of `define_property` after the checks of the exotic parts. -/
def defineOwnProperty (key : PropertyKey) (descriptor : PropertyDescriptor) : ObjectM Unit := do
  let object ← get
  match object.denseArrayValue host key with
  | some currentValue => defineDenseProperty host mem key currentValue descriptor
  | none =>
    match (object.lookup key).bind fun property =>
      property.stored.map fun current => (property, current) with
    | some (property, current) => do
        redefinePresentProperty host mem property current descriptor
        growArrayLengthForIndexProperty host mem key
    | none =>
      if !object.isExtensible then throw .nonExtensibleObject
      else defineMissingProperty host mem key descriptor

/-- The descriptor that freezes a mapped index keeps the value of the parameter. -/
def withMappedValue (object : PropertyObject) (key : PropertyKey)
    (descriptor : PropertyDescriptor) :
    PropertyDescriptor :=
  match descriptor with
  | .data data =>
    if data.writable = some false ∧ data.value = none then
      .data { data with value := object.mappedArgumentValue host key }
    else .data data
  | descriptor => descriptor

/-- The value of a descriptor reaches the parameter. -/
def syncDescriptorValue (key : PropertyKey) (descriptor : PropertyDescriptor) : ObjectM Unit :=
  match descriptor.value with
  | some value => syncMappedArgument host key value
  | none => pure ()

/-- The callable check of the fields that a descriptor has. -/
def validateAccessorFields (descriptor : PropertyDescriptor) : ObjectM Unit :=
  match descriptor with
  | .accessor accessor => do
      validateAccessorCallable host (accessor.getter.getD .undefined)
      validateAccessorCallable host (accessor.setter.getD .undefined)
  | _ => pure ()

/-- The checks of an Array before an index is defined. -/
def guardArrayIndex (key : PropertyKey) : ObjectM Unit := do
  let object ← get
  match host.arrayPropertyIndex key with
  | some index => if object.isArray then guardArrayIndexGrowth host index else pure ()
  | none => pure ()

def defineProperty (key : PropertyKey) (descriptor : PropertyDescriptor) : ObjectM Unit := do
  let object ← get
  let descriptor := object.withMappedValue host key descriptor
  syncDescriptorValue host key descriptor
  validateAccessorFields host descriptor
  if object.isArray ∧ key = host.lengthKey then arraySetLengthDescriptor host mem descriptor
  else do
    guardArrayIndex host key
    defineOwnProperty host mem key descriptor

/-! ## `set_own_data_property` -/

/-- The creation of a property by an assignment. -/
def createDataProperty (key : PropertyKey) (value : Value) : ObjectM Unit := do
  let dense ← tryDenseArrayValue mem ((host.arrayPropertyIndex key).map fun index => (index, value))
  if dense then growArrayLengthForIndexProperty host mem key
  else do
    addPropertySlotWithKind mem ⟨key, .defaultData, .data value⟩
    growArrayLengthForIndexProperty host mem key

/-- An assignment to a property that left a hole in its slot. -/
def reviveDataProperty (key : PropertyKey) (value : Value) : ObjectM Unit := do
  let dense ← tryDenseArrayValue mem ((host.arrayPropertyIndex key).map fun index => (index, value))
  if dense then growArrayLengthForIndexProperty host mem key
  else do
    let object ← get
    if !object.isExtensible then throw .nonExtensibleObject
    else do
      removePropertySlot mem key
      addPropertySlotWithKind mem ⟨key, .defaultData, .data value⟩
      growArrayLengthForIndexProperty host mem key

def setOwnDataProperty (key : PropertyKey) (value : Value) : ObjectM Unit := do
  syncMappedArgument host key value
  let object ← get
  if object.isArray ∧ key = host.lengthKey then setArrayLengthValue host mem value
  else
    match host.arrayPropertyIndex key, object.denseArrayValue host key with
    | some index, some _ => do
        let _ ← setDenseArrayValue mem index value
        growArrayLengthForIndexProperty host mem key
    | _, _ =>
      match object.lookup key with
      | some property =>
        match property.stored with
        | some (.data _) =>
          if property.attributes.writable then updatePropertySlot property (.data value)
          else throw .readOnlyProperty
        | some (.accessor _ _) => throw .unsupportedAccessorDescriptor
        | none => reviveDataProperty host mem key value
      | none =>
        if !object.isExtensible then throw .nonExtensibleObject
        else createDataProperty host mem key value

end Operations

end PropertyObject

end TachyonEngine.Vm
