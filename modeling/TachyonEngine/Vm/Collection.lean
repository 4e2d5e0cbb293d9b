import TachyonEngine.Lib.Capacity
import TachyonEngine.Vm.Numeric

/-!
# Ordered collections

The backing of a Map or a Set is a vector of entries of a fixed capacity. A deletion leaves a
tombstone, so the positions of the later entries stay as they are, and growth copies the positions
to a larger backing. An iterator and a `forEach` scan keep the position they go on from and read the
backing anew each time.

The heap is reduced to one collection and the cursors over it. Every request for memory may fail.
The comparison of keys, `same_value_zero`, is a parameter.
-/

namespace TachyonEngine.Vm

open Lib.Capacity Lib

/-! ## The backing -/

structure CollectionEntry where
  key : Value
  value : Value

structure OrderedCollection where
  entries : List (Option CollectionEntry)
  used : Nat
  liveLen : Nat

namespace OrderedCollection

def withCapacity (capacity : Nat) : OrderedCollection :=
  { entries := List.replicate capacity none, used := 0, liveLen := 0 }

def entryAt (collection : OrderedCollection) (index : Nat) : Option CollectionEntry :=
  (collection.entries[index]?).join

def updateAt (collection : OrderedCollection) (index : Nat) (value : Value) :
    Option OrderedCollection :=
  match collection.entries[index]? with
  | some (some entry) =>
    some
      { collection with
        entries := collection.entries.set index (some { entry with value := value }) }
  | _ => none

/-- `checked_add` of one to a 32-bit number. -/
def checkedSucc (n : Nat) : Option Nat := if n + 1 < 2 ^ 32 then some (n + 1) else none

/-- The entry is written before the counters are checked. -/
def append (collection : OrderedCollection) (key value : Value) : Bool × OrderedCollection :=
  if collection.used < collection.entries.length then
    let written :=
      { collection with entries := collection.entries.set collection.used (some ⟨key, value⟩) }
    match checkedSucc collection.used with
    | none => (false, written)
    | some used =>
      match checkedSucc collection.liveLen with
      | none => (false, { written with used := used })
      | some liveLen => (true, { written with used := used, liveLen := liveLen })
  else (false, collection)

def deleteAt (collection : OrderedCollection) (index : Nat) : Option OrderedCollection :=
  match collection.entries[index]? with
  | some (some _) =>
    some
      { collection with
        entries := collection.entries.set index none
        liveLen := collection.liveLen - 1 }
  | _ => none

def clear (collection : OrderedCollection) : OrderedCollection :=
  { collection with entries := collection.entries.map fun _ => none, liveLen := 0 }

/-- The positions in a larger backing. -/
def growCopy (collection : OrderedCollection) (capacity : Nat) : Option OrderedCollection :=
  if capacity < collection.used then none
  else
    some
      { collection with
        entries := collection.entries.take collection.used ++
          List.replicate (capacity - collection.used) none }

end OrderedCollection

def initialEntryCapacity : Nat := 4

/-- Doubles a capacity in checked 64-bit arithmetic. -/
def grownEntryCapacity (current : Nat) : Option Nat :=
  if current * 2 < 2 ^ 64 ∧ current < current * 2 then some (current * 2) else none

/-! ## Keys -/

def numericValue (value : Value) : Option F64 := (value.asI32.map f64From).or value.asF64

/-- `number == 0.0`. -/
def equalsZero (number : F64) : Bool :=
  number = Binary64.zero .positive || number = Binary64.zero .negative

/-- Every zero becomes the double `+0`. -/
def collectionKey (value : Option Value) : Value :=
  let value := value.getD .undefined
  if (numericValue value).any equalsZero then .fromF64 (Binary64.zero .positive) else value

/-! ## Cursors -/

inductive CollectionIterationKind where
  | key
  | value
  | keyAndValue

/-- What an iterator hands out. -/
inductive IteratedValue where
  | one (value : Value)
  | pair (key value : Value)
  deriving DecidableEq

def CollectionIterationKind.result (kind : CollectionIterationKind) (entry : CollectionEntry) :
    IteratedValue :=
  match kind with
  | .key => .one entry.key
  | .value => .one entry.value
  | .keyAndValue => .pair entry.key entry.value

/-- An iterator or a `forEach` scan; `attached` is false once it is exhausted. -/
structure CollectionCursor where
  attached : Bool
  nextIndex : Nat
  kind : Option CollectionIterationKind

inductive CollectionError where
  | collectionStorageAllocationFailed
  | heapAllocation
  | notObject

/-- A collection and the cursors over it. -/
structure CollectionHeap where
  storage : OrderedCollection
  cursors : Nat → Option CollectionCursor
  allocator : Allocator

namespace CollectionHeap

def start (capacity : Nat) (allocator : Allocator) : CollectionHeap :=
  { storage := .withCapacity capacity, cursors := fun _ => none, allocator := allocator }

def request (heap : CollectionHeap) : Bool × CollectionHeap :=
  let (granted, allocator) := heap.allocator.request
  (granted, { heap with allocator := allocator })

section Builtins

variable (same : Value → Value → Bool)

/-- Scans the positions for a live entry with the key. -/
def collectionFind (storage : OrderedCollection) (key : Value) : Option Nat :=
  (List.range storage.used).find? fun index =>
    match storage.entryAt index with
    | some entry => same entry.key key
    | none => false

/-- Makes room for one more entry. -/
def ensureCollectionCapacity (heap : CollectionHeap) :
    Except CollectionError Unit × CollectionHeap :=
  if heap.storage.used < heap.storage.entries.length then (.ok (), heap)
  else
    match grownEntryCapacity heap.storage.entries.length with
    | none => (.error .collectionStorageAllocationFailed, heap)
    | some capacity =>
      match heap.storage.growCopy capacity with
      | none => (.error .collectionStorageAllocationFailed, heap)
      | some replacement =>
        match heap.request with
        | (false, heap) => (.error .collectionStorageAllocationFailed, heap)
        | (true, heap) =>
          match heap.request with
          | (false, heap) => (.error .heapAllocation, heap)
          | (true, heap) => (.ok (), { heap with storage := replacement })

def collectionAppend (heap : CollectionHeap) (key value : Value) :
    Except CollectionError Unit × CollectionHeap :=
  match heap.storage.append key value with
  | (false, storage) =>
    (.error .collectionStorageAllocationFailed, { heap with storage := storage })
  | (true, storage) => (.ok (), { heap with storage := storage })

/-- The path of a key that is not there. -/
def insertEntry (heap : CollectionHeap) (key value : Value) :
    Except CollectionError Unit × CollectionHeap :=
  match heap.ensureCollectionCapacity with
  | (.error error, heap) => (.error error, heap)
  | (.ok (), heap) => heap.collectionAppend key value

def collectionUpdate (heap : CollectionHeap) (index : Nat) (value : Value) :
    Except CollectionError Unit × CollectionHeap :=
  match heap.storage.updateAt index value with
  | none => (.error .collectionStorageAllocationFailed, heap)
  | some storage => (.ok (), { heap with storage := storage })

def collectionDelete (heap : CollectionHeap) (index : Nat) :
    Except CollectionError Unit × CollectionHeap :=
  match heap.storage.deleteAt index with
  | none => (.error .collectionStorageAllocationFailed, heap)
  | some storage => (.ok (), { heap with storage := storage })

/-- An entry for a canonical key gets the value, or there is a new one. -/
def upsert (heap : CollectionHeap) (key value : Value) :
    Except CollectionError Unit × CollectionHeap :=
  match collectionFind same heap.storage key with
  | some index => heap.collectionUpdate index value
  | none => heap.insertEntry key value

def mapGet (heap : CollectionHeap) (argument : Option Value) : Value :=
  let key := collectionKey argument
  let value :=
    match collectionFind same heap.storage key with
    | some index => (heap.storage.entryAt index).map CollectionEntry.value
    | none => none
  value.getD .undefined

def mapGetOrInsert (heap : CollectionHeap) (argument default : Option Value) :
    Except CollectionError Value × CollectionHeap :=
  let key := collectionKey argument
  let default := default.getD .undefined
  match collectionFind same heap.storage key with
  | some index =>
    match heap.storage.entryAt index with
    | some entry => (.ok entry.value, heap)
    | none => (.error .collectionStorageAllocationFailed, heap)
  | none =>
    match heap.insertEntry key default with
    | (.error error, heap) => (.error error, heap)
    | (.ok (), heap) => (.ok default, heap)

def mapSet (heap : CollectionHeap) (argument value : Option Value) :
    Except CollectionError Unit × CollectionHeap :=
  heap.upsert same (collectionKey argument) (value.getD .undefined)

/-- The second half of `getOrInsertComputed`; the key was made canonical before the callback. -/
def resumeMapGetOrInsertComputed (heap : CollectionHeap) (argument : Option Value) (value : Value) :
    Except CollectionError Unit × CollectionHeap :=
  heap.upsert same (collectionKey argument) value

def setAdd (heap : CollectionHeap) (argument : Option Value) :
    Except CollectionError Unit × CollectionHeap :=
  let value := collectionKey argument
  match collectionFind same heap.storage value with
  | some _ => (.ok (), heap)
  | none => heap.insertEntry value value

/-- `has` of a Map and of a Set. -/
def collectionHas (heap : CollectionHeap) (argument : Option Value) : Bool :=
  (collectionFind same heap.storage (collectionKey argument)).isSome

/-- `delete` of a Map and of a Set. -/
def deleteEntry (heap : CollectionHeap) (argument : Option Value) :
    Except CollectionError Bool × CollectionHeap :=
  match collectionFind same heap.storage (collectionKey argument) with
  | none => (.ok false, heap)
  | some index =>
    match heap.collectionDelete index with
    | (.error error, heap) => (.error error, heap)
    | (.ok (), heap) => (.ok true, heap)

end Builtins

def mapHas := collectionHas
def setHas := collectionHas
def mapDelete := deleteEntry
def setDelete := deleteEntry

/-- `clear` of a Map and of a Set. -/
def collectionClear (heap : CollectionHeap) : CollectionHeap :=
  { heap with storage := heap.storage.clear }

/-- `size` of a Map and of a Set. -/
def collectionLen (heap : CollectionHeap) : Nat := heap.storage.liveLen

/-! ## Iteration -/

/-- The loop of an iterator and of a scan: the entry at the cursor, and the position behind it. The
count is the number of positions that are left. -/
def scanEntries (storage : OrderedCollection) : Nat → Nat → Option CollectionEntry × Nat
  | 0, index => (none, index)
  | count + 1, index =>
    match storage.entryAt index with
    | some entry => (some entry, index + 1)
    | none => scanEntries storage count (index + 1)

/-- A new iterator, or a new scan if there is no kind. -/
def createCursor (heap : CollectionHeap) (id : Nat) (kind : Option CollectionIterationKind) :
    Except CollectionError Unit × CollectionHeap :=
  match heap.request with
  | (false, heap) => (.error .heapAllocation, heap)
  | (true, heap) =>
    (.ok (),
      { heap with
        cursors := Function.update heap.cursors id
          (some { attached := true, nextIndex := 0, kind := kind }) })

/-- One step of a cursor; the entry is what it stands at. -/
def moveCursor (heap : CollectionHeap) (id : Nat) (cursor : CollectionCursor) :
    Option CollectionEntry × CollectionHeap :=
  if cursor.attached then
    let (entry, index) :=
      scanEntries heap.storage (heap.storage.used - cursor.nextIndex) cursor.nextIndex
    (entry,
      { heap with
        cursors := Function.update heap.cursors id
          (some { cursor with nextIndex := index, attached := entry.isSome }) })
  else (none, heap)

/-- `next` of an iterator. The cursor moves before the memory for the result is requested. -/
def collectionIteratorNext (heap : CollectionHeap) (id : Nat) :
    Except CollectionError (Option IteratedValue) × CollectionHeap :=
  match heap.cursors id with
  | some cursor =>
    match heap.moveCursor id cursor with
    | (entry, heap) =>
      match heap.request with
      | (false, heap) => (.error .heapAllocation, heap)
      | (true, heap) =>
        (.ok (entry.map (cursor.kind.getD .keyAndValue).result), heap)
  | none => (.error .notObject, heap)

/-- The arguments of a callback are the value and the key. -/
def advanceCollectionForEach (heap : CollectionHeap) (id : Nat) :
    Except CollectionError (Option IteratedValue) × CollectionHeap :=
  match heap.cursors id with
  | some cursor =>
    match heap.moveCursor id cursor with
    | (none, heap) => (.ok none, heap)
    | (some entry, heap) =>
      match heap.request with
      | (false, heap) => (.error .heapAllocation, heap)
      | (true, heap) => (.ok (some (.pair entry.key entry.value)), heap)
  | none => (.error .notObject, heap)

end CollectionHeap

end TachyonEngine.Vm
