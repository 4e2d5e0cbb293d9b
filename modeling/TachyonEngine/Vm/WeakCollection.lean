import TachyonEngine.Lib.MachineWord
import TachyonEngine.Lib.Probing
import TachyonEngine.Vm.Value

/-!
# The table of a weak collection

A WeakMap or a WeakSet keeps its ephemerons in a hash table of a fixed capacity, with twice as many
buckets. The collector clears keys; the table is indexed again whenever it is traced. The free
entries form a list through `nextFree`.

The indices of the entries are coded as 32-bit words, and only `encodeEntryIndex` checks that they
fit. A refusal of memory leaves everything as it was and is left out. A panic is `none`.
-/

namespace TachyonEngine.Vm

open Lib Lib.MachineWord
open Gc (RawHeapRef)

/-! ## Codes -/

structure Ephemeron where
  key : Option RawHeapRef
  value : Value
  deriving DecidableEq

namespace Ephemeron

def replaceValue (entry : Ephemeron) (value : Value) : Ephemeron := { entry with value := value }

def cleared : Ephemeron := { key := none, value := .undefined }

end Ephemeron

structure WeakCollection where
  entries : List (Option Ephemeron)
  buckets : List UInt32
  nextFree : List UInt32
  freeHead : UInt32
  deriving DecidableEq

def emptyBucket : UInt32 := 0

def tombstoneBucket : UInt32 := maxWord

/-- The conversion to a word and the addition wrap. -/
def encodeOptionalIndex : Option Nat → UInt32
  | none => emptyBucket
  | some index => UInt32.ofNat index + 1

def decodeOptionalIndex (encoded : UInt32) : Option Nat :=
  if encoded = emptyBucket then none else some (encoded.toNat - 1)

def encodeEntryIndex (index : Nat) : Option UInt32 :=
  (tryFromLength index).bind fun word => TachyonEngine.Lib.MachineWord.checkedAdd word 1

def decodeBucketIndex (encoded : UInt32) : Probing.Bucket :=
  if encoded = emptyBucket then .empty
  else if encoded = tombstoneBucket then .tombstone
  else .entry (encoded.toNat - 1)

/-! ## The hash -/

def weakKeyHashMultiplier1 : UInt32 := 0x7feb352d

def weakKeyHashMultiplier2 : UInt32 := 0x846ca68b

/-- The logical address as one word. -/
def addressOffset (key : RawHeapRef) : UInt32 :=
  UInt32.ofNat (key.spanId * 2 ^ 16 + key.spanOffset.get)

def weakKeyBucket (key : RawHeapRef) (capacity : Nat) : Nat :=
  let mixed := addressOffset key
  let mixed := mixed ^^^ mixed >>> 16
  let mixed := mixed * weakKeyHashMultiplier1
  let mixed := mixed ^^^ mixed >>> 15
  let mixed := mixed * weakKeyHashMultiplier2
  let mixed := mixed ^^^ mixed >>> 16
  mixed.toNat &&& (capacity - 1)

/-- The buckets that the loops of the source visit, in their order. -/
def weakKeyPath (key : RawHeapRef) (capacity : Nat) : List Nat :=
  (List.range capacity).map fun distance =>
    (weakKeyBucket key capacity + distance) &&& (capacity - 1)

namespace WeakCollection

/-! ## Operations -/

def isPowerOfTwo (capacity : Nat) : Bool := capacity = 2 ^ capacity.log2

def withCapacity (capacity : Nat) : Option WeakCollection :=
  if capacity ≠ 0 && !isPowerOfTwo capacity then none
  else if 2 ^ 64 ≤ capacity * 2 then none
  else
    some
      { entries := List.replicate capacity none
        buckets := List.replicate (capacity * 2) emptyBucket
        nextFree := (List.range capacity).map fun index =>
          encodeOptionalIndex (if index + 1 < capacity then some (index + 1) else none)
        freeHead := encodeOptionalIndex (if capacity ≠ 0 then some 0 else none) }

section Queries

variable (tbl : WeakCollection)

def capacity : Nat := tbl.entries.length

def entryAt (index : Nat) : Option Ephemeron := (tbl.entries[index]?).join

/-- The key of an entry that is neither unused nor cleared. -/
def liveKey (index : Nat) : Option RawHeapRef := (tbl.entryAt index).bind Ephemeron.key

def bucketAt (position : Nat) : Probing.Bucket :=
  decodeBucketIndex (tbl.buckets.getD position emptyBucket)

/-- The bucket and the entry of a key. `find_index` and `find_bucket` run the same loop. -/
def findEntry (key : RawHeapRef) : Option (Nat × Nat) :=
  Probing.find tbl.bucketAt (fun index => tbl.liveKey index = some key)
    (weakKeyPath key tbl.buckets.length)

def findIndex (key : RawHeapRef) : Option Nat := (tbl.findEntry key).map Prod.snd

def findBucket (key : RawHeapRef) : Option Nat := (tbl.findEntry key).map Prod.fst

def insertionBucket (key : RawHeapRef) : Option Nat :=
  Probing.insertion tbl.bucketAt none (weakKeyPath key tbl.buckets.length)

def insertionIndex (key : RawHeapRef) : Option Nat :=
  (tbl.insertionBucket key).bind fun _ => decodeOptionalIndex tbl.freeHead

end Queries

section Updates

variable (tbl : WeakCollection)

/-- The entry is taken from the free list before its code is checked. -/
def installAt (index : Nat) (entry : Ephemeron) : Bool × WeakCollection :=
  if tbl.entries.length ≤ index then (false, tbl)
  else if (tbl.liveKey index).isSome then (false, tbl)
  else if decodeOptionalIndex tbl.freeHead ≠ some index then (false, tbl)
  else
    match entry.key.bind tbl.insertionBucket with
    | none => (false, tbl)
    | some bucket =>
      let taken :=
        { tbl with
          freeHead := tbl.nextFree.getD index emptyBucket
          nextFree := tbl.nextFree.set index emptyBucket
          entries := tbl.entries.set index (some entry) }
      match encodeEntryIndex index with
      | none => (false, taken)
      | some code => (true, { taken with buckets := taken.buckets.set bucket code })

def updateAt (index : Nat) (value : Value) : Option WeakCollection :=
  (tbl.entryAt index).map fun entry =>
    { tbl with entries := tbl.entries.set index (some (entry.replaceValue value)) }

def deleteAt (index : Nat) : Option WeakCollection :=
  ((tbl.liveKey index).bind tbl.findBucket).map fun bucket =>
    { entries := tbl.entries.set index (some .cleared)
      buckets := tbl.buckets.set bucket tombstoneBucket
      nextFree := tbl.nextFree.set index tbl.freeHead
      freeHead := encodeOptionalIndex (some index) }

/-- The entries whose key the collector clears. -/
def clearKeys (cleared : Nat → Bool) : WeakCollection :=
  { tbl with
    entries := tbl.entries.mapIdx fun index entry =>
      if cleared index then entry.map fun _ => .cleared else entry }

/-- One round of `rebuild_index_in_place`. -/
def rebuildEntry (index : Nat) : Option WeakCollection :=
  match tbl.liveKey index with
  | none =>
    some
      { tbl with
        nextFree := tbl.nextFree.set index tbl.freeHead
        freeHead := encodeOptionalIndex (some index) }
  | some key =>
    let tbl := { tbl with nextFree := tbl.nextFree.set index emptyBucket }
    match tbl.insertionBucket key with
    | none => some tbl
    | some bucket =>
      (encodeEntryIndex index).map fun code =>
        { tbl with buckets := tbl.buckets.set bucket code }

/-- The entries are indexed anew from the last one to the first. -/
def rebuildIndexInPlace : Option WeakCollection :=
  (List.range tbl.entries.length).foldr (fun index rebuilt => rebuilt.bind (rebuildEntry · index))
    (some
      { tbl with
        buckets := tbl.buckets.map fun _ => emptyBucket
        freeHead := emptyBucket })

/-- One entry of a growing copy. -/
def copyEntry (entry : Option Ephemeron) : Option WeakCollection :=
  match entry.bind Ephemeron.key, entry with
  | some key, some entry =>
    (tbl.insertionIndex key).bind fun index =>
      match tbl.installAt index entry with
      | (true, grown) => some grown
      | (false, _) => none
  | _, _ => some tbl

def growCopy (capacity : Nat) : Option WeakCollection :=
  if capacity < tbl.capacity then none
  else
    (withCapacity capacity).bind fun grown =>
      tbl.entries.foldlM copyEntry grown

end Updates

/-! ## Steps -/

/-- What happens to a table. A new key goes where `insertionIndex` says, as its callers do it. -/
inductive Step : WeakCollection → WeakCollection → Prop where
  | install {tbl after : WeakCollection} (key : RawHeapRef) (value : Value) (index : Nat)
      (hab : tbl.findIndex key = none) (hi : tbl.insertionIndex key = some index)
      (hinstall : tbl.installAt index ⟨some key, value⟩ = (true, after)) : Step tbl after
  | update {tbl after : WeakCollection} (index : Nat) (value : Value)
      (hupdate : tbl.updateAt index value = some after) : Step tbl after
  | delete {tbl after : WeakCollection} (index : Nat)
      (hdelete : tbl.deleteAt index = some after) : Step tbl after
  | collect {tbl after : WeakCollection} (cleared : Nat → Bool)
      (hrebuild : (tbl.clearKeys cleared).rebuildIndexInPlace = some after) : Step tbl after
  | grow {tbl after : WeakCollection} (capacity : Nat)
      (hgrow : tbl.growCopy capacity = some after) : Step tbl after

end WeakCollection

end TachyonEngine.Vm
