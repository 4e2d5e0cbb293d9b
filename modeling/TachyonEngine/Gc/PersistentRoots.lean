import TachyonEngine.Gc.Layout
import TachyonEngine.Lib.ArenaChain
import TachyonEngine.Lib.Capacity
import TachyonEngine.Lib.HandleLog
import TachyonEngine.Lib.Surviving

/-!
# Persistent roots

A slab of long-lived roots. A released slot goes to the head of a free list and its generation is
increased, so that an old id does not resolve to what the slot holds next; a slot whose generation
cannot be increased is retired. The growth of the vector takes the answer of the allocator as a
parameter.
-/

namespace TachyonEngine.Gc

open Lib
open Lib.Capacity (growthTarget)

/-! ## The table -/

/-- `NonZeroU32`. -/
@[ext]
structure RootGeneration where
  value : Nat
  pos : 0 < value
  lt : value < 2 ^ 32

namespace RootGeneration

instance : DecidableEq RootGeneration := fun _ _ => decidable_of_iff' _ RootGeneration.ext_iff

/-- `NonZeroU32::MIN`. -/
def first : RootGeneration := ⟨1, Nat.one_pos, one_lt_word⟩

/-- `checked_add` of one. -/
def next (generation : RootGeneration) : Option RootGeneration :=
  if h : generation.value + 1 < 2 ^ 32 then some ⟨generation.value + 1, Nat.succ_pos _, h⟩ else none

end RootGeneration

/-- An isolate-relative root capability. -/
structure PersistentRootId where
  slot : Nat
  generation : RootGeneration

/-- The errors of the operations on the table. -/
inductive PersistentRootError where
  | entryLimitExceeded (limit : Nat)
  | allocationFailed
  | unknownSlot (slot : Nat)
  | staleGeneration (slot : Nat) (expected actual : RootGeneration)
  | vacantSlot (slot : Nat)
  | retiredSlot (slot : Nat)
  | typeMismatch (expected actual : GcTypeId)

inductive RootState where
  | occupied (reference : RawHeapRef) (typeId : GcTypeId)
  | free (next : Option Nat)
  | retired

structure RootEntry where
  generation : RootGeneration
  state : RootState

/-- The table, with the capacity that its vector has. -/
structure PersistentRoots where
  entries : List RootEntry
  capacity : Nat
  freeHead : Option Nat
  maxEntries : Nat
  initialCapacity : Nat
  growthCount : Nat
  peakLiveRoots : Nat
  liveRoots : Nat
  freeSlots : Nat
  retiredSlots : Nat

/-- An error that an operation returns, or a panic. -/
inductive RootsFailure where
  | error (error : PersistentRootError)
  | panic

abbrev RootsM := Attempt PersistentRoots RootsFailure

namespace RootState

def isOccupied : RootState → Bool
  | occupied _ _ => true
  | _ => false

def isFree : RootState → Bool
  | free _ => true
  | _ => false

def isRetired : RootState → Bool
  | retired => true
  | _ => false

/-- The next slot of the free list. -/
def nextFree : RootState → Option Nat
  | free next => next
  | _ => none

end RootState

/-- `INITIAL_PERSISTENT_ROOT_CAPACITY`. -/
def initialPersistentRootCapacity : Nat := 64

namespace PersistentRoots

def new (maxEntries : Nat) : PersistentRoots :=
  { entries := [], capacity := 0, freeHead := none, maxEntries := maxEntries, initialCapacity := 0
    growthCount := 0, peakLiveRoots := 0, liveRoots := 0, freeSlots := 0, retiredSlots := 0 }

/-- Where the allocator grants a growth step, the vector may get more room than it asked for. -/
def reserveEntry (grant : Option Nat) : RootsM Unit := do
  let roots ← get
  if roots.entries.length = roots.maxEntries then
    throw (.error (.entryLimitExceeded roots.maxEntries))
  else if roots.entries.length < roots.capacity then pure ()
  else
    let target := growthTarget initialPersistentRootCapacity roots.maxEntries roots.capacity
      roots.entries.length
    match grant with
    | none => throw (.error .allocationFailed)
    | some extra =>
      modify fun roots =>
        let capacity := target + extra
        if roots.initialCapacity = 0 then
          { roots with capacity := capacity, initialCapacity := capacity }
        else { roots with capacity := capacity, growthCount := roots.growthCount + 1 }

def recordInsert (roots : PersistentRoots) : PersistentRoots :=
  { roots with
    liveRoots := roots.liveRoots + 1
    peakLiveRoots := max roots.peakLiveRoots (roots.liveRoots + 1) }

/-- Reuses a free slot, or adds one. -/
def tryInsert (reference : RawHeapRef) (typeId : GcTypeId) (grant : Option Nat) :
    RootsM PersistentRootId := do
  let roots ← get
  match roots.freeHead with
  | some slot =>
    match roots.entries[slot]? with
    | some ⟨generation, .free next⟩ =>
      modify fun roots =>
        recordInsert
          { roots with
            freeHead := next
            freeSlots := roots.freeSlots - 1
            entries := roots.entries.set slot ⟨generation, .occupied reference typeId⟩ }
      pure ⟨slot, generation⟩
    -- an index out of bounds, or the `unreachable!` of a slot that is not free
    | _ => throw .panic
  | none =>
    reserveEntry grant
    let roots ← get
    let slot := roots.entries.length
    if 2 ^ 32 ≤ slot then throw .panic
    else
      modify fun roots =>
        recordInsert
          { roots with entries := roots.entries ++ [⟨.first, .occupied reference typeId⟩] }
      pure ⟨slot, .first⟩

/-- The entry of an id whose generation is the current one. -/
def entry (id : PersistentRootId) : RootsM RootEntry := do
  let roots ← get
  match roots.entries[id.slot]? with
  | none => throw (.error (.unknownSlot id.slot))
  | some entry =>
    if entry.generation ≠ id.generation then
      throw (.error (.staleGeneration id.slot entry.generation id.generation))
    else pure entry

def resolve (id : PersistentRootId) (expectedType : GcTypeId) : RootsM RawHeapRef := do
  let entry ← entry id
  match entry.state with
  | .occupied reference typeId =>
    if typeId = expectedType then pure reference
    else throw (.error (.typeMismatch expectedType typeId))
  | .free _ => throw (.error (.vacantSlot id.slot))
  | .retired => throw (.error (.retiredSlot id.slot))

def tryClone (id : PersistentRootId) (expectedType : GcTypeId) (grant : Option Nat) :
    RootsM PersistentRootId := do
  let reference ← resolve id expectedType
  tryInsert reference expectedType grant

/-- The entry and the counters of a slot behind the release of its current generation. -/
def retire (roots : PersistentRoots) (slot : Nat) (entry : RootEntry) : PersistentRoots :=
  let roots := { roots with liveRoots := roots.liveRoots - 1 }
  match entry.generation.next with
  | some generation =>
    { roots with
      entries := roots.entries.set slot ⟨generation, .free roots.freeHead⟩
      freeHead := some slot
      freeSlots := roots.freeSlots + 1 }
  | none =>
    { roots with
      entries := roots.entries.set slot { entry with state := .retired }
      retiredSlots := roots.retiredSlots + 1 }

def release (id : PersistentRootId) (expectedType : GcTypeId) : RootsM Unit := do
  let _ ← resolve id expectedType
  let roots ← get
  match roots.entries[id.slot]? with
  | some entry => modify fun roots => roots.retire id.slot entry
  | none => throw .panic

end PersistentRoots

/-! ## Histories -/

/-- A call of an operation, with the answer that its request for memory gets. -/
inductive RootAction where
  | tryInsert (reference : RawHeapRef) (typeId : GcTypeId) (grant : Option Nat)
  | tryClone (id : PersistentRootId) (expectedType : GcTypeId) (grant : Option Nat)
  | resolve (id : PersistentRootId) (expectedType : GcTypeId)
  | release (id : PersistentRootId) (expectedType : GcTypeId)

/-- An id is issued for a reference and its type. -/
abbrev RootLog := List (HandleEvent PersistentRootId (RawHeapRef × GcTypeId))

namespace RootAction

open PersistentRoots

/-- Performs an operation, and tells what it issued or released. -/
def run : RootAction → RootsM RootLog
  | tryInsert reference typeId grant => do
      let id ← PersistentRoots.tryInsert reference typeId grant
      pure [.issued id (reference, typeId)]
  | tryClone id expectedType grant => do
      -- a clone is an id for what its original resolves to
      let reference ← PersistentRoots.resolve id expectedType
      let clone ← PersistentRoots.tryClone id expectedType grant
      pure [.issued clone (reference, expectedType)]
  | resolve id expectedType => do
      let _ ← PersistentRoots.resolve id expectedType
      pure []
  | release id expectedType => do
      PersistentRoots.release id expectedType
      pure [.released id]

end RootAction

/-- The tables that sequences of operations lead to, with what was issued and released on the
way. -/
inductive RootsRun : PersistentRoots → RootLog → Prop
  | start (maxEntries : Nat) : RootsRun (.new maxEntries) []
  | returned {roots after : PersistentRoots} {log events : RootLog} (run : RootsRun roots log)
      {action : RootAction} (step : action.run.outcome roots = (.ok events, after)) :
      RootsRun after (log ++ events)
  | refused {roots after : PersistentRoots} {log : RootLog} (run : RootsRun roots log)
      {action : RootAction} {error : PersistentRootError}
      (step : action.run.outcome roots = (.error (.error error), after)) : RootsRun after log

end TachyonEngine.Gc
