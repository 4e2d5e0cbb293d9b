import Mathlib.Data.List.Basic

/-!
# Vectors with a bounded, fallible growth policy

A vector that grows by an explicit capacity step and never past a fixed number of
entries. Whether the allocator grants a growth step is not known in advance, so
an `Allocator` is any answer sequence together with the number of requests made:
a statement about every allocator is a statement about every pattern of
allocation failures.
-/

namespace TachyonEngine.Lib.Capacity

universe u

variable {α : Type u}

/-- The answers of the allocator to the requests of one container. -/
structure Allocator where
  refuses : Nat → Bool
  requests : Nat

namespace Allocator

/-- An allocator that never fails. -/
def granting : Allocator :=
  { refuses := fun _ => false, requests := 0 }

/-- Makes one request and tells whether it was granted. -/
def request (a : Allocator) : Bool × Allocator :=
  (!a.refuses a.requests, { a with requests := a.requests + 1 })

end Allocator

/-- Why an entry could not be added. -/
inductive CapacityError where
  | entryLimitExceeded (limit : Nat)
  | allocationFailed

/-- The centralized growth step: a first hint, then half as much again, capped and
large enough for one more entry. -/
def growthTarget (hint maxEntries capacity length : Nat) : Nat :=
  max (min (if capacity = 0 then hint else (capacity * 3 + 1) / 2) maxEntries) (length + 1)

/-- Entries within a limit, the capacity reserved for them, and the allocator
behind it. -/
structure BoundedVec (α : Type u) where
  entries : List α
  maxEntries : Nat
  capacity : Nat
  allocator : Allocator

namespace BoundedVec

/-- An empty vector without reserved capacity. -/
def new (maxEntries : Nat) (allocator : Allocator) : BoundedVec α :=
  { entries := [], maxEntries := maxEntries, capacity := 0, allocator := allocator }

/-- Forgets the entries and keeps the capacity. -/
def clear (v : BoundedVec α) : BoundedVec α :=
  { v with entries := [] }

/-- Makes room for one more entry, or says why there is none. -/
def tryReserveOne (hint : Nat) (v : BoundedVec α) : Except CapacityError Unit × BoundedVec α :=
  if v.entries.length = v.maxEntries then (.error (.entryLimitExceeded v.maxEntries), v)
  else if v.entries.length < v.capacity then (.ok (), v)
  else
    match v.allocator.request with
    | (true, allocator) =>
      (.ok (),
        { v with
          capacity := growthTarget hint v.maxEntries v.capacity v.entries.length
          allocator := allocator })
    | (false, allocator) => (.error .allocationFailed, { v with allocator := allocator })

/-- Adds an entry behind the others. -/
def tryPush (hint : Nat) (v : BoundedVec α) (entry : α) :
    Except CapacityError Unit × BoundedVec α :=
  match v.tryReserveOne hint with
  | (.error e, v) => (.error e, v)
  | (.ok (), v) => (.ok (), { v with entries := v.entries ++ [entry] })

@[simp] theorem entries_tryReserveOne (hint : Nat) (v : BoundedVec α) :
    (v.tryReserveOne hint).2.entries = v.entries := by
  unfold tryReserveOne Allocator.request
  cases v.allocator.refuses v.allocator.requests <;> split <;> try rfl
  all_goals split <;> rfl

/-- A push adds its entry or leaves the entries as they were. -/
theorem tryPush_cases (hint : Nat) (v : BoundedVec α) (ent : α) :
    ((v.tryPush hint ent).1 = .ok () ∧ (v.tryPush hint ent).2.entries = v.entries ++ [ent]) ∨
      ∃ e, (v.tryPush hint ent).1 = .error e ∧ (v.tryPush hint ent).2.entries = v.entries := by
  have hes := entries_tryReserveOne hint v
  unfold tryPush
  rcases hr : v.tryReserveOne hint with ⟨e | ⟨⟩, v'⟩
  · rw [hr] at hes
    exact Or.inr ⟨e, rfl, hes⟩
  · rw [hr] at hes
    left
    exact ⟨rfl, by simp [← hes]⟩

end BoundedVec

end TachyonEngine.Lib.Capacity
