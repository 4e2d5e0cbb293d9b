import TachyonEngine.Lib.Surviving
import TachyonEngine.Vm.ArrayIndex
import TachyonEngine.Vm.Collection
import TachyonEngine.Vm.PropertyRemoval

/-!
# Objects with descriptors

One object as the property operations see it: its own properties in the order in which its shape
lists them, the dense elements if it is an Array, and the parameters of the activation if it is a
mapped arguments object. `PropertyStorage` looks into shapes and slots; here a property is its
record together with what its slot holds, and publishing a change of the list may be refused.

Objects without other exotic parts are modelled: ordinary objects, Arrays, and arguments objects.
-/

namespace TachyonEngine.Vm

open Gc (RawHeapRef)
open Lib

/-! ## Dense elements -/

/-- Fixed backing for the index properties of an Array that have the default attributes. -/
structure ArrayElements where
  slots : List Value
  used : Nat
  holeCount : Nat

namespace ArrayElements

def isHole (value : Value) : Bool := value = PropertyStorage.hole

def withCapacity (capacity : Nat) : ArrayElements :=
  { slots := List.replicate capacity PropertyStorage.hole, used := 0, holeCount := 0 }

def value (elements : ArrayElements) (index : Nat) : Option Value :=
  if index < elements.used then (elements.slots[index]?).filter fun value => !isHole value else none

def capacity (elements : ArrayElements) : Nat := elements.slots.length

/-- Stores an index below the capacity; the counters are checked 32-bit numbers. -/
def set (elements : ArrayElements) (index : Nat) (value : Value) : Option ArrayElements :=
  if elements.slots.length ≤ index then none
  else if elements.used ≤ index then
    if elements.holeCount + (index - elements.used) < 2 ^ 32 ∧ index + 1 < 2 ^ 32 then
      some
        { slots := elements.slots.set index value
          used := index + 1
          holeCount := elements.holeCount + (index - elements.used) }
    else none
  else if (elements.slots[index]?).any isHole then
    if 0 < elements.holeCount then
      some
        { elements with
          slots := elements.slots.set index value
          holeCount := elements.holeCount - 1 }
    else none
  else some { elements with slots := elements.slots.set index value }

/-- Makes a hole of a present index; `none` if the index is not present. -/
def delete (elements : ArrayElements) (index : Nat) : Option ArrayElements :=
  match elements.slots[index]? with
  | none => none
  | some slot =>
    if elements.used ≤ index || isHole slot then none
    else
      some
        { elements with
          slots := elements.slots.set index PropertyStorage.hole
          holeCount := min (elements.holeCount + 1) (2 ^ 32 - 1) }

/-- Makes holes of all indices from `length` on. -/
def truncate (elements : ArrayElements) (length : Nat) : ArrayElements :=
  if elements.used ≤ length then elements
  else
    { slots := elements.slots.take length ++
        List.replicate (elements.used - length) PropertyStorage.hole ++
        elements.slots.drop elements.used
      used := length
      holeCount := (elements.slots.take length).countP isHole }

/-- The elements in a larger backing. -/
def growCopy (elements : ArrayElements) (capacity : Nat) : Option ArrayElements :=
  if capacity < elements.used then none
  else
    some
      { elements with
        slots := elements.slots.take elements.used ++
          List.replicate (capacity - elements.used) PropertyStorage.hole }

def presentIndices (elements : ArrayElements) : List Nat :=
  (List.range elements.used).filter fun index => (elements.value index).isSome

end ArrayElements

def initialDenseElementCapacity : Nat := 8

def maxDenseElementIndex : Nat := 1048575

def maxDenseGrowthGap : Nat := 1024

/-- Grows by a third in checked 64-bit arithmetic. -/
def grownDenseElementCapacity (current required : Nat) : Option Nat :=
  let base := max current initialDenseElementCapacity
  if base + base / 3 < 2 ^ 64 ∧ base < base + base / 3 then some (max (base + base / 3) required)
  else none

/-! ## Properties -/

/-- What the slot of a property holds. The retained mark of a deleted property is a hole. -/
inductive StoredProperty where
  | data (value : Value)
  | accessor (getter setter : Value)
  deriving DecidableEq

def StoredProperty.kind : StoredProperty → PropertyKind
  | .data _ => .data
  | .accessor _ _ => .accessor

structure OwnProperty where
  key : PropertyKey
  attributes : PropertyAttributes
  payload : StoredProperty
  deriving DecidableEq

namespace OwnProperty

def kind (property : OwnProperty) : PropertyKind := property.payload.kind

/-- The content of a slot that is not a hole. -/
def stored (property : OwnProperty) : Option StoredProperty :=
  if property.payload = .data PropertyStorage.hole then none else some property.payload

end OwnProperty

/-- The part of an object beside its shape. The parameters of a mapped arguments object are those of
an activation that is still on the fiber. -/
inductive ExoticPart where
  | ordinary
  | array (elements : Option ArrayElements)
  | arguments (mappedParameterCount : Nat)

structure PropertyObject where
  exotic : ExoticPart
  properties : List OwnProperty
  isExtensible : Bool
  /-- The parameter registers of the activation. -/
  registers : Nat → Value

/-! ## What the operations ask -/

/-- What a reference leads to. -/
inductive HeapCell where
  | string (units : List UInt16)
  | symbol
  | bigint (value : Int)
  | function
  | object
  deriving DecidableEq

/-- The engine around the object: its atoms, its heap, and the parser of numeric strings. -/
structure PropertyHost where
  atoms : AtomTable
  cell : RawHeapRef → HeapCell
  parseNumberCodeUnits : List UInt16 → F64

/-- A publication for which the source asks for memory or for a shape. It asks more than once for
some of them; what matters is whether all it asked for was granted. -/
inductive MemoryRequest where
  | elements
  | accessorPair
  | addition (key : PropertyKey)
  | reconfiguration (key : PropertyKey)
  | removal (key : PropertyKey)
  | ownKeys
  | string
  deriving DecidableEq

inductive DescriptorError where
  | refused (request : MemoryRequest)
  | propertyStorageAllocationFailed
  | nonCallable (value : Value)
  | notObject (value : Value)
  | readOnlyProperty
  | nonExtensibleObject
  | unsupportedAccessorDescriptor
  | invalidPropertyRedefinition
  | invalidArrayLength
  | unsupportedNumberConversion (value : Value)
  deriving DecidableEq

/-- An operation on the object. -/
abbrev ObjectM (α : Type) := Attempt PropertyObject DescriptorError α

namespace PropertyHost

variable (host : PropertyHost)

def arrayPropertyIndex (key : PropertyKey) : Option Nat := host.atoms.index key

def lengthKey : PropertyKey := .atom host.atoms.lengthAtom

def cellOf (value : Value) : Option HeapCell := value.asHeapRef.map host.cell

def isObjectValue (value : Value) : Bool :=
  host.cellOf value = some .function || host.cellOf value = some .object

/-! ### Equality -/

/-- `is_sign_negative` of a number. -/
def isSignNegative (number : F64) : Bool :=
  match number.unpack with
  | .infinity .negative | .zero .negative | .finite .negative _ _ _ => true
  | _ => false

def isBigintValue (value : Value) : Option Int :=
  match value with
  | .smallBigint n => some n
  | _ =>
    match host.cellOf value with
    | some (.bigint n) => some n
    | _ => none

def strictEqualValues (left right : Value) : Bool :=
  match numericValue left, numericValue right with
  | some left, some right => left.beq right
  | some _, none | none, some _ => false
  | none, none =>
    match host.isBigintValue left, host.isBigintValue right with
    | some left, some right => left = right
    | some _, none | none, some _ => false
    | none, none =>
      if left = right then true
      else
        match host.cellOf left, host.cellOf right with
        | some (.string left), some (.string right) => left = right
        | _, _ => false

def sameValue (left right : Value) : Bool :=
  match numericValue left, numericValue right with
  | some left, some right =>
    if left.isNaN && right.isNaN then true
    else if left.beq (.ofInt 0) && right.beq (.ofInt 0) then
      isSignNegative left = isSignNegative right
    else left.beq right
  | _, _ => host.strictEqualValues left right

/-! ### Numbers -/

/-- The conversion of a value that is not an object. -/
def convertToNumber (value : Value) : Except DescriptorError Value :=
  if (numericValue value).isSome then .ok value
  else
    match value.asImmediate with
    | some .true => .ok (.fromI32 1)
    | some .false | some .null => .ok (.fromI32 0)
    | some .undefined => .ok (.fromF64 f64NaN)
    | some .hole | some .uninitialized => .error (.unsupportedNumberConversion value)
    | none =>
      match host.cellOf value with
      | none => .error (.unsupportedNumberConversion value)
      | some .symbol => .error (.notObject value)
      | some (.string units) => .ok (.fromF64 (host.parseNumberCodeUnits units))
      | some _ => .error (.unsupportedNumberConversion value)

/-- `number.fract() == 0.0` for a finite number: the bits of the significand below the point are
zero. -/
def isIntegral (number : F64) : Bool :=
  match number.unpack with
  | .finite _ mantissa exponent _ => 0 ≤ exponent || mantissa % 2 ^ (-exponent).toNat = 0
  | _ => true

def primitiveArrayLength (value : Value) : Except DescriptorError Nat :=
  if host.isObjectValue value then .error (.unsupportedNumberConversion value)
  else
    match host.convertToNumber value with
    | .error error => .error error
    | .ok number =>
      match numericValue number with
      | none => .error .invalidArrayLength
      | some number =>
        if !number.isFinite || number.lt (Float.Model.ofInt 0) || !isIntegral number ||
            (Float.Model.ofInt (2 ^ 32 - 1)).lt number then
          .error .invalidArrayLength
        else .ok number.toUInt32.toNat

end PropertyHost

/-- The integer, as a 32-bit one if it fits. -/
def safeIntegerValue (value : Nat) : Value :=
  if value < 2 ^ 31 then .fromI32 (Int32.ofNat value) else .fromF64 (Float.Model.ofInt value)

/-! ## Reading the object -/

namespace PropertyObject

variable (host : PropertyHost)

def isArray (object : PropertyObject) : Bool :=
  match object.exotic with
  | .array _ => true
  | _ => false

def elements (object : PropertyObject) : Option ArrayElements :=
  match object.exotic with
  | .array elements => elements
  | _ => none

def lookup (object : PropertyObject) (key : PropertyKey) : Option OwnProperty :=
  object.properties.find? fun property => property.key = key

def denseArrayValue (object : PropertyObject) (key : PropertyKey) : Option Value :=
  (host.arrayPropertyIndex key).bind fun index => object.elements.bind fun elements =>
    elements.value index

/-- The register that an index of a mapped arguments object stands for. -/
def mappedArgumentFrame (object : PropertyObject) (key : PropertyKey) : Option Nat :=
  match object.exotic with
  | .arguments count => (host.arrayPropertyIndex key).filter fun index => index < count
  | _ => none

/-- The mapping is read off the state of the property: it has to be writable data. -/
def isWritableData (property : OwnProperty) : Bool := property.attributes.writable &&
    match property.stored with
    | some (.data _) => true
    | _ => false

def mappedArgumentValue (object : PropertyObject) (key : PropertyKey) : Option Value :=
  match object.mappedArgumentFrame host key, object.lookup key with
  | some index, some property =>
    if isWritableData property then some (object.registers index) else none
  | _, _ => none

end PropertyObject

end TachyonEngine.Vm
