import TachyonEngine.Vm.ShapeLayout

/-!
# Property storage

The slots of the properties of an object stand in a vector that is replaced when a property is added
or removed. A removal lists the keys of the object, drops one of them, and replays the others from
the empty shape into a compact vector.

An object is a number here and its storage is a part of it; the references of the heap are not
looked into. A request for memory, also for the new storage object, can fail.
-/

namespace TachyonEngine.Vm

open Lib.Capacity

/-! ## Objects -/

/-- The edge that keeps the Symbol of a key alive. -/
structure SymbolPropertyKey where
  slot : Nat
  id : SymbolId
  value : Value

structure PropertyStorage where
  slots : List Value
  symbolKeys : List SymbolPropertyKey

namespace PropertyStorage

def hole : Value := .fromImmediate .hole

/-- Marks the edge of a Symbol as present or not. -/
def setSymbolPresence (storage : PropertyStorage) (slot : Nat) (key : PropertyKey)
    (isPresent : Bool) : PropertyStorage :=
  match key.symbolIdentity with
  | none => storage
  | some id =>
    { storage with
      symbolKeys := storage.symbolKeys.map fun entry =>
        if entry.slot = slot ∧ entry.id = id then
          { entry with value := if isPresent then id.value else hole }
        else entry }

end PropertyStorage

structure OrdinaryObject where
  shape : ShapeId
  isExtensible : Bool
  storage : Option PropertyStorage
  prototype : Value

namespace OrdinaryObject

/-- An object without properties. -/
def new (prototype : Value) : OrdinaryObject :=
  { shape := ShapeId.empty, isExtensible := true, storage := none, prototype := prototype }

def slots (object : OrdinaryObject) : List Value :=
    (object.storage.map PropertyStorage.slots).getD []

def symbolKeys (object : OrdinaryObject) : List SymbolPropertyKey :=
  (object.storage.map PropertyStorage.symbolKeys).getD []

end OrdinaryObject

/-- Why an operation failed; `panicked` is a broken expectation of the source. -/
inductive PropertyError where
  | shape (error : ShapeError)
  | propertyStorageAllocationFailed
  | heapAllocation
  | panicked

/-- The table of shapes and the objects that share it. -/
structure PropertyHeap where
  shapes : ShapeTable
  objects : Nat → OrdinaryObject
  allocator : Allocator

namespace PropertyHeap

/-- `try_reserve_exact` of a fresh vector. -/
def reserve (heap : PropertyHeap) (count : Nat) : Bool × PropertyHeap :=
  if count = 0 then (true, heap)
  else
    let (granted, allocator) := heap.allocator.request
    (granted, { heap with allocator := allocator })

/-- A new heap object. -/
def allocate (heap : PropertyHeap) : Bool × PropertyHeap :=
  let (granted, allocator) := heap.allocator.request
  (granted, { heap with allocator := allocator })

def replacePropertyStorage (heap : PropertyHeap) (object : Nat) (shape : ShapeId)
    (storage : Option PropertyStorage) : PropertyHeap :=
  { heap with
    objects := Function.update heap.objects object
      { heap.objects object with shape := shape, storage := storage } }

def setObjectShape (heap : PropertyHeap) (object : Nat) (shape : ShapeId) : PropertyHeap :=
  { heap with
    objects := Function.update heap.objects object { heap.objects object with shape := shape } }

/-- Writes an existing slot. -/
def updatePropertySlot (heap : PropertyHeap) (object : Nat) (key : PropertyKey) (slot : Nat)
    (value : Value) : Except PropertyError Unit × PropertyHeap :=
  match (heap.objects object).storage with
  | none => (.error .panicked, heap)
  | some storage =>
    let written : PropertyStorage := { storage with slots := storage.slots.set slot value }
    (.ok (),
      { heap with
        objects := Function.update heap.objects object
          { heap.objects object with
            storage := some (written.setSymbolPresence slot key (value ≠ PropertyStorage.hole)) } })

/-! ## Adding -/

def addPropertySlotWithKind (heap : PropertyHeap) (object : Nat) (key : PropertyKey)
    (kind : PropertyKind) (value : Value) (attributes : PropertyAttributes) :
    Except PropertyError Unit × PropertyHeap :=
  let snapshot := heap.objects object
  match heap.shapes.transitionAddKind snapshot.shape key kind attributes with
  | (.error error, shapes) => (.error (.shape error), { heap with shapes := shapes })
  | (.ok shape, shapes) =>
    let heap := { heap with shapes := shapes }
    let length := shapes.propertyCount shape
    let symbolCount := snapshot.symbolKeys.length + if key.symbolIdentity.isSome then 1 else 0
    match heap.reserve length with
    | (false, heap) => (.error .propertyStorageAllocationFailed, heap)
    | (true, heap) =>
      match heap.reserve symbolCount with
      | (false, heap) => (.error .propertyStorageAllocationFailed, heap)
      | (true, heap) =>
        let storage : PropertyStorage :=
          { slots := snapshot.slots ++ [value]
            symbolKeys := snapshot.symbolKeys ++
              (key.symbolIdentity.map fun id => ⟨length - 1, id, id.value⟩).toList }
        match heap.allocate with
        | (false, heap) => (.error .heapAllocation, heap)
        | (true, heap) =>
          (.ok (), heap.replacePropertyStorage object shape (some storage))

/-! ## Reconfiguring -/

/-- Changes the kind and the flags of an own property, and its value if there is a new one. -/
def reconfigurePropertySlot (heap : PropertyHeap) (object : Nat) (key : PropertyKey)
    (kind : PropertyKind) (attributes : PropertyAttributes) (value : Option Value) :
    Except PropertyError Unit × PropertyHeap :=
  let snapshot := heap.objects object
  match heap.shapes.lookup snapshot.shape key,
      heap.shapes.transitionReconfigureKind snapshot.shape key kind attributes with
  | some property, some (.ok shape, shapes) =>
    let heap := { heap with shapes := shapes }
    match value with
    | none => (.ok (), heap.setObjectShape object shape)
    | some value =>
      match heap.updatePropertySlot object key property.slot value with
      | (.error error, heap) => (.error error, heap)
      | (.ok (), heap) => (.ok (), heap.setObjectShape object shape)
  | some _, some (.error error, shapes) => (.error (.shape error), { heap with shapes := shapes })
  | _, _ => (.error .panicked, heap)

/-! ## Removing -/

structure RetainedProperty where
  key : PropertyKey
  kind : PropertyKind
  attributes : PropertyAttributes
  value : Value

/-- The properties that stay, as the iterator lists them. -/
def retainedProperties (heap : PropertyHeap) (object : Nat) (removed : PropertyKey) :
    List OwnPropertyEntry → Option (List RetainedProperty)
  | [] => some []
  | entry :: rest =>
    if entry.key = removed then heap.retainedProperties object removed rest
    else
      let snapshot := heap.objects object
      match heap.shapes.lookup snapshot.shape entry.key with
      | none => none
      | some property =>
        match snapshot.slots[property.slot]?, heap.retainedProperties object removed rest with
        | some value, some retained =>
          some (⟨entry.key, property.kind, property.attributes, value⟩ :: retained)
        | _, _ => none

/-- Replays the retained properties from the empty shape. -/
def rebuildShape (shapes : ShapeTable) : List RetainedProperty → ShapeId →
    Except ShapeError ShapeId × ShapeTable
  | [], shape => (.ok shape, shapes)
  | property :: rest, shape =>
    match shapes.transitionAddKind shape property.key property.kind property.attributes with
    | (.error error, shapes) => (.error error, shapes)
    | (.ok shape, shapes) => rebuildShape shapes rest shape

/-- The compact vectors of the retained properties. -/
def compactPropertyStorage (retained : List RetainedProperty) : PropertyStorage :=
  { slots := retained.map RetainedProperty.value
    symbolKeys := retained.zipIdx.filterMap fun pair =>
      pair.1.key.symbolIdentity.map fun id =>
        ⟨pair.2, id,
          if pair.1.value = PropertyStorage.hole then PropertyStorage.hole else id.value⟩ }

/-- The second half of a removal: a new shape and a new storage for what stays. -/
def publishRetained (heap : PropertyHeap) (object : Nat) (retained : List RetainedProperty) :
    Except PropertyError Unit × PropertyHeap :=
  match rebuildShape heap.shapes retained ShapeId.empty with
  | (.error error, shapes) => (.error (.shape error), { heap with shapes := shapes })
  | (.ok shape, shapes) =>
    let heap := { heap with shapes := shapes }
    if retained.isEmpty then (.ok (), heap.replacePropertyStorage object shape none)
    else
      let storage := compactPropertyStorage retained
      match heap.reserve storage.slots.length with
      | (false, heap) => (.error .propertyStorageAllocationFailed, heap)
      | (true, heap) =>
        match heap.reserve storage.symbolKeys.length with
        | (false, heap) => (.error .propertyStorageAllocationFailed, heap)
        | (true, heap) =>
          match heap.allocate with
          | (false, heap) => (.error .heapAllocation, heap)
          | (true, heap) => (.ok (), heap.replacePropertyStorage object shape (some storage))

def removePropertySlot (heap : PropertyHeap) (object : Nat) (removed : PropertyKey) :
    Except PropertyError Unit × PropertyHeap :=
  let snapshot := heap.objects object
  match snapshot.storage with
  | none => (.error .panicked, heap)
  | some _ =>
    match heap.shapes.ownKeys snapshot.shape heap.allocator with
    | (.error error, allocator) => (.error (.shape error), { heap with allocator := allocator })
    | (.ok keys, allocator) =>
      let heap := { heap with allocator := allocator }
      match heap.reserve (keys.remaining - 1) with
      | (false, heap) => (.error .propertyStorageAllocationFailed, heap)
      | (true, heap) =>
        match heap.retainedProperties object removed keys.collect with
        | none => (.error .panicked, heap)
        | some retained => heap.publishRetained object retained

end PropertyHeap

end TachyonEngine.Vm
