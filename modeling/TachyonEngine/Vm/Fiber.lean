import TachyonEngine.Bytecode.Module
import TachyonEngine.Lib.Capacity
import TachyonEngine.Vm.Value

/-!
# Fibers

A fiber holds the explicit stacks of a JavaScript execution: the frames, the side stacks that
have one entry a frame, the sparse activation stacks, the register file, the active finalizers
and the completion stack. Stacks are lists in the order of the source's vectors, so the top is
the last entry.

Native trampolines are not looked into here; `ν` is their type.
-/

namespace TachyonEngine.Vm

open Bytecode
open Gc (RawHeapRef)
open Lib.Capacity

/-! ## Errors -/

/-- Why an operation of the interpreter failed. Errors of the functions that are parameters of
the model are `other`. -/
inductive ExecutionError where
  | missingCompletionRecord
  | missingEnvironment
  | environmentStorageAllocationFailed
  | invalidEnvironmentSlot (depth slot : Nat)
  | environmentBindingAlreadyInitialized (depth slot : Nat)
  | invalidReference (reference : RawHeapRef)
  | missingNativeContinuation
  | missingEntryFunction (function : FunctionId)
  | invalidCode (code : Nat)
  | invalidRegister (register : Nat)
  | boundArgumentCountOverflow
  | nonCallable (value : Value)
  | notObject (value : Value)
  | callStackLimit (limit : Nat)
  | registerWindowTooLarge (registerCount : Nat)
  | registerStackLimit (limit requested : Nat)
  | registerAllocationFailed
  | frameAllocationFailed
  | handlerAllocationFailed
  | completionStackLimit (limit requested : Nat)
  | completionAllocationFailed
  | realmLimit
  | uninitializedThis
  | invalidDerivedConstructorReturn (value : Value)
  | other (code : Nat)

/-! ## Growable stacks -/

/-- A vector with its capacity and the answers to its requests for memory. -/
structure Stack (α : Type) where
  entries : List α
  capacity : Nat
  allocator : Allocator

namespace Stack

variable {α : Type}

def new (allocator : Allocator) : Stack α :=
  { entries := [], capacity := 0, allocator := allocator }

def len (s : Stack α) : Nat := s.entries.length

/-- `try_reserve_exact`. -/
def tryReserveExact (s : Stack α) (additional : Nat) : Bool × Stack α :=
  if additional ≤ s.capacity - s.len then (true, s)
  else
    let (granted, allocator) := s.allocator.request
    if granted then (true, { s with capacity := s.len + additional, allocator := allocator })
    else (false, { s with allocator := allocator })

theorem tryReserveExact_entries (s : Stack α) (additional : Nat) :
    (s.tryReserveExact additional).2.entries = s.entries := by
  simp only [tryReserveExact]
  split
  · rfl
  · split <;> rfl

def push (s : Stack α) (entry : α) : Stack α := { s with entries := s.entries ++ [entry] }

def pop (s : Stack α) : Stack α := { s with entries := s.entries.dropLast }

def last (s : Stack α) : Option α := s.entries.getLast?

def truncate (s : Stack α) (len : Nat) : Stack α := { s with entries := s.entries.take len }

end Stack

/-! ## Completions -/

/-- The five completion kinds. -/
inductive CompletionKind where
  | normal
  | throw
  | return
  | break
  | continue
  deriving DecidableEq

structure CompletionRecord where
  kind : CompletionKind
  value : Option Value
  target : Option WordOffset
  targetEnvironmentDepth : Nat

namespace CompletionRecord

def normal (value : Option Value) : CompletionRecord :=
  { kind := .normal, value := value, target := none, targetEnvironmentDepth := 0 }

def throw (value : Value) : CompletionRecord :=
  { kind := .throw, value := some value, target := none, targetEnvironmentDepth := 0 }

def returnValue (value : Value) : CompletionRecord :=
  { kind := .return, value := some value, target := none, targetEnvironmentDepth := 0 }

def breakTarget (value : Option Value) (target : WordOffset) (targetEnvironmentDepth : Nat) :
    CompletionRecord :=
  { kind := .break, value := value, target := some target,
    targetEnvironmentDepth := targetEnvironmentDepth }

def continueTarget (value : Option Value) (target : WordOffset) (targetEnvironmentDepth : Nat) :
    CompletionRecord :=
  { kind := .continue, value := value, target := some target,
    targetEnvironmentDepth := targetEnvironmentDepth }

end CompletionRecord

/-- One slot of the shared completion and trampoline stack. -/
inductive CompletionEntry (ν : Type) where
  | language (record : CompletionRecord)
  | native (continuation : ν)

def CompletionEntry.isNative {ν : Type} : CompletionEntry ν → Bool
  | .language _ => false
  | .native _ => true

/-- The completion stack with its hard bound. -/
structure CompletionStack (ν : Type) where
  stack : Stack (CompletionEntry ν)
  limit : Nat

namespace CompletionStack

variable {ν : Type}

def entries (s : CompletionStack ν) : List (CompletionEntry ν) := s.stack.entries

def len (s : CompletionStack ν) : Nat := s.entries.length

/-- Reserves slots within the limit. -/
def reserve (s : CompletionStack ν) (additional : Nat) :
    Except ExecutionError Unit × CompletionStack ν :=
  let requested := s.len + additional
  if 2 ^ 32 ≤ requested then (.error (.completionStackLimit s.limit (2 ^ 32 - 1)), s)
  else if s.limit < requested then (.error (.completionStackLimit s.limit requested), s)
  else
    match s.stack.tryReserveExact additional with
    | (true, stack) => (.ok (), { s with stack := stack })
    | (false, stack) => (.error .completionAllocationFailed, { s with stack := stack })

theorem reserve_entries (s : CompletionStack ν) (additional : Nat) :
    (s.reserve additional).2.entries = s.entries := by
  have hes := s.stack.tryReserveExact_entries additional
  simp only [reserve]
  split
  · rfl
  · split
    · rfl
    · split
      next stack heq =>
        rw [heq] at hes
        exact hes
      next stack heq =>
        rw [heq] at hes
        exact hes

def pushEntry (s : CompletionStack ν) (entry : CompletionEntry ν) :
    Except ExecutionError Unit × CompletionStack ν :=
  match s.reserve 1 with
  | (.error e, s) => (.error e, s)
  | (.ok (), s) => (.ok (), { s with stack := s.stack.push entry })

/-- A push adds its entry on top or fails for want of room. -/
theorem pushEntry_cases (s : CompletionStack ν) (ent : CompletionEntry ν) :
    (∃ e post, s.pushEntry ent = (.error e, post) ∧ e ≠ .missingCompletionRecord) ∨
      ∃ post, s.pushEntry ent = (.ok (), post) ∧ post.entries = s.entries ++ [ent] := by
  have hes := s.reserve_entries 1
  have hfails : ∀ e post, s.reserve 1 = (.error e, post) → e ≠ .missingCompletionRecord := by
    intro e post h
    simp only [reserve] at h
    split at h
    · cases h
      exact nofun
    · split at h
      · cases h
        exact nofun
      · split at h
        · cases h
        · cases h
          exact nofun
  rw [pushEntry]
  rcases hrsv : s.reserve 1 with ⟨answer, post⟩
  rw [hrsv] at hes
  cases answer with
  | error e => exact .inl ⟨e, post, rfl, hfails e post hrsv⟩
  | ok u =>
    refine .inr ⟨_, rfl, ?_⟩
    rw [← hes]
    rfl

def pushRecord (s : CompletionStack ν) (record : CompletionRecord) :
    Except ExecutionError Unit × CompletionStack ν := s.pushEntry (.language record)

def pushNative (s : CompletionStack ν) (continuation : ν) :
    Except ExecutionError Unit × CompletionStack ν := s.pushEntry (.native continuation)

/-- Pops a trampoline when it is on top. -/
def popNative (s : CompletionStack ν) : Option (ν × CompletionStack ν) :=
  match s.stack.last with
  | some (.native continuation) => some (continuation, { s with stack := s.stack.pop })
  | _ => none

/-- The entries left when trampolines are dropped from the top, down to the frame's base. -/
def withoutNativeSuffix (frameCompletionBase : Nat) (entries : List (CompletionEntry ν)) :
    List (CompletionEntry ν) :=
  entries.take frameCompletionBase ++
    (entries.drop frameCompletionBase).rdropWhile CompletionEntry.isNative

/-- Drops abandoned trampolines without crossing a frame or a language record. -/
def discardNativeSuffix (s : CompletionStack ν) (frameCompletionBase : Nat) : CompletionStack ν :=
  { s with stack := { s.stack with
      entries := withoutNativeSuffix frameCompletionBase s.stack.entries } }

/-- Restores the newest saved completion without crossing the frame's base. -/
def restoreRecord (s : CompletionStack ν) (frameCompletionBase : Nat) :
    Option (CompletionRecord × CompletionStack ν) :=
  if s.len ≤ frameCompletionBase then none
  else
    match s.stack.last with
    | some (.language record) => some (record, { s with stack := s.stack.pop })
    | _ => none

def record (s : CompletionStack ν) (index : Nat) : Option CompletionRecord :=
  match s.entries[index]? with
  | some (.language record) => some record
  | _ => none

def truncate (s : CompletionStack ν) (len : Nat) : CompletionStack ν :=
  { s with stack := s.stack.truncate len }

end CompletionStack

/-! ## Frames -/

/-- One JavaScript activation. -/
structure Frame where
  code : Nat
  function : FunctionId
  pc : WordOffset
  base : Nat
  environment : Option RawHeapRef
  returnRegister : Option Nat
  returnContinuation : Bool
  thisValue : Value
  newTarget : Value
  receiverOrHomeObject : Option Value
  strictness : FunctionStrictness
  hasFinally : Bool
  argumentBase : Nat
  argumentPrefix : Option RawHeapRef
  argumentPrefixOffset : Nat
  argumentPrefixCount : Nat
  argumentCount : Nat
  handlerBase : Nat
  completionBase : Nat
  callSite : Option WordOffset

/-- The dynamic state of a handler of the table. -/
structure ActiveHandler where
  handlerIndex : Nat
  frameDepth : Nat
  environmentDepth : Nat

/-- Constructor state that ordinary calls do not pay for. -/
structure ClassActivation where
  frameDepth : Nat
  function : Value

structure Fiber (ν : Type) where
  frames : Stack Frame
  argumentObjects : List (Option Value)
  argumentSources : List (Option RawHeapRef)
  argumentCallees : List (Option Value)
  derivedActivations : Stack ClassActivation
  baseClassActivations : Stack ClassActivation
  lexicalEnvironments : List Nat
  evalVarEnvironments : List (Nat × RawHeapRef)
  registers : Stack Value
  handlers : Stack ActiveHandler
  completions : CompletionStack ν
  pendingException : Option Value

end TachyonEngine.Vm
