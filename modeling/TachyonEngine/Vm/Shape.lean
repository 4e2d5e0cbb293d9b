import TachyonEngine.Vm.Fiber

/-!
# Shapes

A shape is one edge of a tree of property layouts: the property that was added or reconfigured last
and the shape it was done to. The table of shapes only grows, and an edge that exists is used again.
`lookup` and `own_keys` walk from a shape to the empty one; the walk has at most as many steps as
the identifier of the shape says, because the parent of a shape is an older one.
-/

namespace TachyonEngine.Vm

open Gc (RawHeapRef)
open Lib.Capacity

/-! ## Keys and attributes -/

abbrev AtomId := Nat

/-- A serial that is never used again and the reference of the Symbol. -/
structure SymbolId where
  serial : Nat
  reference : RawHeapRef
  deriving DecidableEq

def SymbolId.value (symbol : SymbolId) : Value := .heapRef symbol.reference

inductive PropertyKey where
  | atom (atom : AtomId)
  | symbol (symbol : SymbolId)
  | «private» (symbol : SymbolId)
  deriving DecidableEq

namespace PropertyKey

def isSymbol : PropertyKey → Bool
  | .symbol _ => true
  | _ => false

def isPrivate : PropertyKey → Bool
  | .«private» _ => true
  | _ => false

def symbolIdentity : PropertyKey → Option SymbolId
  | .atom _ => none
  | .symbol id => some id
  | .«private» id => some id

end PropertyKey

/-- The flags of a property, one bit each in the source. -/
structure PropertyAttributes where
  writable : Bool
  enumerable : Bool
  configurable : Bool
  virtualOrigin : Bool
  deriving DecidableEq

namespace PropertyAttributes

def data (writable enumerable configurable : Bool) : PropertyAttributes :=
  { writable, enumerable, configurable, virtualOrigin := false }

def accessor (enumerable configurable : Bool) : PropertyAttributes :=
  data false enumerable configurable

def defaultData : PropertyAttributes := data true true true

def withVirtualOrigin (attributes : PropertyAttributes) : PropertyAttributes :=
  { attributes with virtualOrigin := true }

end PropertyAttributes

inductive PropertyKind where
  | data
  | accessor
  deriving DecidableEq

/-! ## The table -/

abbrev ShapeId := Nat

/-- The shared empty shape. -/
def ShapeId.empty : ShapeId := 0

structure Shape where
  parent : Option ShapeId
  key : Option PropertyKey
  slot : Nat
  propertyCount : Nat
  kind : PropertyKind
  attributes : PropertyAttributes
  version : Nat

structure ShapeTransition where
  source : ShapeId
  key : PropertyKey
  kind : PropertyKind
  attributes : PropertyAttributes
  target : ShapeId

structure PropertyLookup where
  slot : Nat
  kind : PropertyKind
  attributes : PropertyAttributes
  deriving DecidableEq

inductive ShapeError where
  | limitExceeded (limit : Nat)
  | allocationFailed
  | idOverflow

structure ShapeTable where
  shapes : Stack Shape
  transitions : Stack ShapeTransition
  limit : Nat

namespace ShapeTable

def initialShapeCapacity : Nat := 32

def initialTransitionCapacity : Nat := 32

def shapeGrowthChunk : Nat := 64

def transitionGrowthChunk : Nat := 64

def rootShape : Shape :=
  { parent := none, key := none, slot := 0, propertyCount := 0, kind := .data,
    attributes := .defaultData, version := 0 }

/-- The table of the empty shape. -/
def new (limit : Nat) (forShapes forTransitions : Allocator) : Except ShapeError ShapeTable :=
  if limit = 0 then .error (.limitExceeded limit)
  else
    let shapes := (Stack.new forShapes).tryReserveExact (min limit initialShapeCapacity)
    if !shapes.1 then .error .allocationFailed
    else
      let transitions :=
        (Stack.new forTransitions).tryReserveExact (min (limit - 1) initialTransitionCapacity)
      if !transitions.1 then .error .allocationFailed
      else .ok { shapes := shapes.2.push rootShape, transitions := transitions.2, limit := limit }

def propertyCount (table : ShapeTable) (shape : ShapeId) : Nat :=
  match table.shapes.entries[shape]? with
  | some entry => entry.propertyCount
  | none => 0

/-- The shapes that a walk along the parents visits, the given one first. -/
def chainFrom (table : ShapeTable) : Nat → ShapeId → List Shape
  | 0, _ => []
  | steps + 1, shape =>
    if shape = ShapeId.empty then []
    else
      match table.shapes.entries[shape]? with
      | none => []
      | some entry =>
        entry :: match entry.parent with
          | none => []
          | some parent => chainFrom table steps parent

def chain (table : ShapeTable) (shape : ShapeId) : List Shape := table.chainFrom shape shape

def lookup (table : ShapeTable) (shape : ShapeId) (key : PropertyKey) : Option PropertyLookup :=
  ((table.chain shape).find? fun entry => entry.key = some key).map fun entry =>
    { slot := entry.slot, kind := entry.kind, attributes := entry.attributes }

/-! ## Transitions -/

/-- Reserves one chunk only when the next push would grow. -/
def reserveChunked {α : Type} (items : Stack α) (limit chunk : Nat) : Bool × Stack α :=
  if items.len < items.capacity then (true, items)
  else items.tryReserveExact (min (limit - items.len) chunk)

/-- Uses an edge again or appends one. -/
def transition (table : ShapeTable) (source : ShapeId) (key : PropertyKey) (slot count : Nat)
    (kind : PropertyKind) (attributes : PropertyAttributes) :
    Except ShapeError ShapeId × ShapeTable :=
  match table.transitions.entries.find? fun edge =>
      edge.source = source ∧ edge.key = key ∧ edge.kind = kind ∧ edge.attributes = attributes with
  | some edge => (.ok edge.target, table)
  | none =>
    if table.limit ≤ table.shapes.len then (.error (.limitExceeded table.limit), table)
    else
      let shapes := reserveChunked table.shapes table.limit shapeGrowthChunk
      let reserved := { table with shapes := shapes.2 }
      if !shapes.1 then (.error .allocationFailed, reserved)
      else
        let transitions := reserveChunked table.transitions (table.limit - 1) transitionGrowthChunk
        let reserved := { reserved with transitions := transitions.2 }
        if !transitions.1 then (.error .allocationFailed, reserved)
        else
          let id := table.shapes.len
          let version := (table.shapes.entries[source]?.map Shape.version).getD 0 + 1
          if 2 ^ 32 ≤ id ∨ 2 ^ 32 ≤ version then (.error .idOverflow, reserved)
          else
            (.ok id,
              { reserved with
                shapes := reserved.shapes.push
                  { parent := some source, key := some key, slot := slot, propertyCount := count,
                    kind := kind, attributes := attributes, version := version }
                transitions := reserved.transitions.push
                  { source := source, key := key, kind := kind, attributes := attributes,
                    target := id } })

def transitionAddKind (table : ShapeTable) (source : ShapeId) (key : PropertyKey)
    (kind : PropertyKind) (attributes : PropertyAttributes) :
    Except ShapeError ShapeId × ShapeTable :=
  let slot := table.propertyCount source
  if 2 ^ 32 ≤ slot + 1 then (.error .idOverflow, table)
  else table.transition source key slot (slot + 1) kind attributes

/-- Overlays the kind and the flags of an own property; without one the source panics. -/
def transitionReconfigureKind (table : ShapeTable) (source : ShapeId) (key : PropertyKey)
    (kind : PropertyKind) (attributes : PropertyAttributes) :
    Option (Except ShapeError ShapeId × ShapeTable) :=
  match table.lookup source key with
  | none => none
  | some current =>
    if current.kind = kind ∧ current.attributes = attributes then some (.ok source, table)
    else some (table.transition source key current.slot (table.propertyCount source) kind
      attributes)

end ShapeTable

/-! ## Own keys -/

structure OwnPropertyEntry where
  key : PropertyKey
  property : PropertyLookup

/-- An iterator over the properties of a shape: first the strings, then the symbols. -/
structure OwnPropertyKeys where
  slots : List (Option OwnPropertyEntry)
  index : Nat
  symbols : Bool
  remaining : Nat

namespace OwnPropertyKeys

/-- One pass from an index on: the next entry of the kind and the index behind it. -/
def scan (symbols : Bool) : List (Option OwnPropertyEntry) → Nat → Option OwnPropertyEntry × Nat
  | some entry :: rest, index =>
    if entry.key.isPrivate then scan symbols rest (index + 1)
    else if entry.key.isSymbol = symbols then (some entry, index + 1)
    else scan symbols rest (index + 1)
  | _, index => (none, index)

def nextEntry (keys : OwnPropertyKeys) : Option OwnPropertyEntry × OwnPropertyKeys :=
  match scan keys.symbols (keys.slots.drop keys.index) keys.index with
  | (some entry, index) =>
    (some entry, { keys with index := index, remaining := keys.remaining - 1 })
  | (none, index) =>
    if keys.symbols then (none, { keys with index := index })
    else
      match scan true keys.slots 0 with
      | (some entry, index) =>
        (some entry,
          { keys with index := index, symbols := true, remaining := keys.remaining - 1 })
      | (none, index) => (none, { keys with index := index, symbols := true })

/-- The entries of at most so many calls of `nextEntry`. -/
def take : Nat → OwnPropertyKeys → List OwnPropertyEntry
  | 0, _ => []
  | count + 1, keys =>
    match keys.nextEntry with
    | (some entry, next) => entry :: take count next
    | (none, _) => []

/-- All entries; each call passes a slot, and the slots are passed twice. -/
def collect (keys : OwnPropertyKeys) : List OwnPropertyEntry := keys.take
    (2 * keys.slots.length + 1)

end OwnPropertyKeys

namespace ShapeTable

/-- One shape of the walk of `ownKeys`: the newest entry of a slot stays. -/
def fillSlot (slots : List (Option OwnPropertyEntry)) (entry : Shape) :
    List (Option OwnPropertyEntry) :=
  match entry.key, slots[entry.slot]? with
  | some key, some none =>
    slots.set entry.slot (some
      { key := key
        property :=
          { slot := entry.slot, kind := entry.kind, attributes := entry.attributes } })
  | _, _ => slots

/-- The properties of a shape, unless the allocator refuses the vector for them. -/
def ownKeys (table : ShapeTable) (shape : ShapeId) (allocator : Allocator) :
    Except ShapeError OwnPropertyKeys × Allocator :=
  match allocator.request with
  | (false, allocator) => (.error .allocationFailed, allocator)
  | (true, allocator) =>
    let slots := (table.chain shape).foldl fillSlot
      (List.replicate (table.propertyCount shape) none)
    (.ok
      { slots := slots
        index := 0
        symbols := false
        remaining := (slots.filter fun slot => slot.any fun entry => !entry.key.isPrivate).length },
      allocator)

end ShapeTable

end TachyonEngine.Vm
