import TachyonEngine.Vm.ArrayIndex
import TachyonEngine.Vm.PropertyRemoval

/-!
# The order of the own keys

The own keys of an object are collected with a rank each and sorted by the rank. The sort is not
stable, so keys with equal ranks come in any order. The rank of a string is made with a bitwise "or"
of its place and of the number of virtual keys, three: four places share a rank.
-/

namespace TachyonEngine.Vm

open Lib.Capacity

/-! ## Ranks -/

def stringKeyRank : Nat := 2 ^ 62

def symbolKeyRank : Nat := 2 ^ 63

def virtualKeyCount : Nat := 3

/-- What the own keys of an object depend on besides its shape. Strings and typed arrays have at
most `2 ^ 32 - 1` elements, the dense part of an array has at most `2 ^ 20`. -/
inductive Receiver where
  | ordinary
  | function (hasPrototype : Bool)
  | stringWrapper (length : Nat) (fits : length < 2 ^ 32)
  | typedArray (length : Nat) (fits : length < 2 ^ 32)
  | array (elements : List Value) (fits : elements.length ≤ 2 ^ 20)

namespace Receiver

variable (atoms : AtomTable)

/-- The virtual keys of a function with their ordinals. -/
def virtualKeys : Receiver → List (Nat × PropertyKey)
  | .function hasPrototype =>
    [(0, .atom atoms.lengthAtom), (1, .atom atoms.nameAtom)] ++
      if hasPrototype then [(2, .atom atoms.prototypeAtom)] else []
  | _ => []

def stringLength : Receiver → Option Nat
  | .stringWrapper length _ => some length
  | _ => none

def typedArrayLength : Receiver → Option Nat
  | .typedArray length _ => some length
  | _ => none

/-- The indices that the dense part of an array holds. -/
def denseIndices : Receiver → List Nat
  | .array elements _ => (List.range elements.length).filter fun index =>
    elements.getD index PropertyStorage.hole ≠ PropertyStorage.hole
  | _ => []

end Receiver

structure RankedPropertyKey where
  key : PropertyKey
  property : Option PropertyLookup
  rank : Nat
  deriving DecidableEq

/-- The rank of a structural key. -/
def propertyKeyRank (atoms : AtomTable) (virtualKeys : List (Nat × PropertyKey)) (key : PropertyKey)
    (attributes : PropertyAttributes) (order : Nat) : Nat :=
  match key with
  | .atom _ =>
    match atoms.index key with
    | some index => index
    | none =>
      match attributes.virtualOrigin, virtualKeys.find? fun entry => entry.2 = key with
      | true, some (ordinal, _) => stringKeyRank ||| ordinal
      | _, _ => stringKeyRank ||| virtualKeyCount ||| order
  | _ => symbolKeyRank ||| order

namespace PropertyHeap

/-- Whether a slot holds a value and not the mark of a deletion. -/
def propertyIsPresent (heap : PropertyHeap) (object : Nat) (property : PropertyLookup) : Bool :=
  match (heap.objects object).slots[property.slot]? with
  | some value => value ≠ PropertyStorage.hole
  | none => false

variable (atoms : AtomTable)

/-- The keys that are not structural. -/
def exoticKeys (heap : PropertyHeap) (object : Nat) (receiver : Receiver) :
    List RankedPropertyKey :=
  (((receiver.virtualKeys atoms).filter fun entry =>
      (heap.shapes.lookup (heap.objects object).shape entry.2).isNone).map fun entry =>
    ⟨entry.2, none, stringKeyRank ||| entry.1⟩) ++
  (match receiver.stringLength with
    | none => []
    | some length =>
      ((List.range length).map fun index => ⟨atoms.indexKey index, none, index⟩) ++
        [⟨.atom atoms.lengthAtom, none, stringKeyRank ||| 1 <<< 32⟩]) ++
  (match receiver.typedArrayLength with
    | none => []
    | some length => (List.range length).map fun index => ⟨atoms.indexKey index, none, index⟩) ++
  receiver.denseIndices.map fun index => ⟨atoms.indexKey index, none, index⟩

/-- The structural keys that are present, each with its place in the list as the order. -/
def structuralKeys (heap : PropertyHeap) (object : Nat) (receiver : Receiver)
    (listed : List OwnPropertyEntry) : List RankedPropertyKey :=
  (listed.zipIdx.filter fun pair => heap.propertyIsPresent object pair.1.property).map fun pair =>
    ⟨pair.1.key, some pair.1.property,
      propertyKeyRank atoms (receiver.virtualKeys atoms) pair.1.key pair.1.property.attributes
        pair.2⟩

inductive OwnKeysError where
  | shape (error : ShapeError)
  | ownPropertyKeyAllocationFailed

/-- The keys with their ranks before they are sorted. -/
def rankedOwnPropertyKeys (heap : PropertyHeap) (object : Nat) (receiver : Receiver) :
    Except OwnKeysError (List RankedPropertyKey) × PropertyHeap :=
  match heap.shapes.ownKeys (heap.objects object).shape heap.allocator with
  | (.error error, allocator) => (.error (.shape error), { heap with allocator := allocator })
  | (.ok keys, allocator) =>
    let heap := { heap with allocator := allocator }
    let exotic := heap.exoticKeys atoms object receiver
    match heap.reserve (keys.remaining + exotic.length) with
    | (false, heap) => (.error .ownPropertyKeyAllocationFailed, heap)
    | (true, heap) => (.ok (exotic ++ heap.structuralKeys atoms object receiver keys.collect), heap)

end PropertyHeap

/-- What the sort may make of the keys: any order in which the ranks ascend. -/
def SortsTo (ranked sorted : List RankedPropertyKey) : Prop :=
  sorted.Perm ranked ∧ sorted.Pairwise fun left right => left.rank ≤ right.rank

end TachyonEngine.Vm
