import TachyonEngine.Vm.PropertyInvariants

/-!
# Runs of property operations

A run starts with a fresh object and performs the operations in any order. Each of them gets its own
answers to the requests for memory, and returns or fails. The callers hand over no hole.
-/

namespace TachyonEngine.Vm

open PropertyObject

open Lib Lib.Attempt
open Relation (ReflTransGen)

/-- An operation on one object with its arguments. -/
inductive PropertyOperation where
  | define (key : PropertyKey) (descriptor : PropertyDescriptor)
  | set (key : PropertyKey) (value : Value)
  | delete (key : PropertyKey)
  | setLength (value : Value)
  | setLengthCanonical (descriptor : PropertyDescriptor) (newLength : UInt32)
  | preventExtensions

namespace PropertyOperation

/-- The values come from the language. -/
def Proper : PropertyOperation → Prop
  | .define _ descriptor => descriptor.Proper
  | .set _ value => value ≠ PropertyStorage.hole
  | .setLength value => value ≠ PropertyStorage.hole
  | _ => True

instance (operation : PropertyOperation) : Decidable operation.Proper :=
  match operation with
  | .define _ descriptor => inferInstanceAs (Decidable descriptor.Proper)
  | .set _ value => inferInstanceAs (Decidable (value ≠ PropertyStorage.hole))
  | .setLength value => inferInstanceAs (Decidable (value ≠ PropertyStorage.hole))
  | .delete _ => inferInstanceAs (Decidable True)
  | .setLengthCanonical _ _ => inferInstanceAs (Decidable True)
  | .preventExtensions => inferInstanceAs (Decidable True)

def run (host : PropertyHost) (memory : MemoryRequest → Bool) : PropertyOperation → ObjectM Unit
  | .define key descriptor => PropertyObject.defineProperty host memory key descriptor
  | .set key value => PropertyObject.setOwnDataProperty host memory key value
  | .delete key => do
      let _ ← PropertyObject.deleteOwnDataProperty host memory key
      pure ()
  | .setLength value => PropertyObject.setArrayLengthValue host memory value
  | .setLengthCanonical descriptor newLength =>
    PropertyObject.arraySetLengthDescriptorCanonical host memory descriptor newLength.toNat
  | .preventExtensions => modify fun obj => { obj with isExtensible := false }

theorem run_changes {host : PropertyHost} {mem : MemoryRequest → Bool}
    {operation : PropertyOperation} (hproper : operation.Proper) :
    PropertyObject.OnlyChanges host (operation.run host mem) := by
  intro obj h
  cases operation with
  | define key desc => exact changes_define key hproper obj h
  | set key val => exact changes_set key hproper obj h
  | delete key =>
    refine changesAt_bind (changesAt_delete h key) ?_
    exact fun _ obj h => changesAt_pure h ()
  | setLength val => exact changes_setLengthValue hproper obj h
  | setLengthCanonical desc newLength =>
    exact changes_setLengthCanonical newLength.toNat desc obj h
  | preventExtensions =>
    exact ⟨.single .preventExtensions, PropertyObject.Change.wellFormed h .preventExtensions⟩

end PropertyOperation

namespace PropertyObject

/-! ## Fresh objects -/

def newOrdinary (registers : Nat → Value) : PropertyObject :=
  { exotic := .ordinary, properties := [], isExtensible := true, registers := registers }

/-- An Array has its length from the start. -/
def newArray (host : PropertyHost) (registers : Nat → Value) : PropertyObject :=
  { exotic := .array none
    properties := [⟨host.lengthKey, .data true false false, .data (.fromI32 0)⟩]
    isExtensible := true
    registers := registers }

/-- A new ordinary object or a new Array. -/
inductive Fresh (host : PropertyHost) : PropertyObject → Prop where
  | ordinary (registers : Nat → Value) : Fresh host (newOrdinary registers)
  | array (registers : Nat → Value) : Fresh host (newArray host registers)

variable {host : PropertyHost} {obj pre post : PropertyObject}

theorem Fresh.wellFormed (h : Fresh host obj) : obj.WellFormed host := by
  cases h with
  | ordinary registers =>
    refine ⟨List.nodup_nil, fun _ h => (nomatch h), ?_, fun _ h => (nomatch h),
      fun _ h => (nomatch h)⟩
    intro key val hd
    rfl
  | array registers =>
    refine ⟨List.nodup_singleton _, fun _ h => (nomatch h), ?_, ?_, fun _ h => (nomatch h)⟩
    · intro key val hd
      obtain ⟨idx, -, hv⟩ := Option.bind_eq_some_iff.mp hd
      cases hv
    · intro prop hm
      rw [List.mem_singleton.mp hm]
      exact (by decide : Value.fromI32 0 ≠ PropertyStorage.hole)

/-- One operation, with the memory it gets. -/
inductive Step (host : PropertyHost) (obj : PropertyObject) : PropertyObject → Prop where
  | perform (memory : MemoryRequest → Bool) (operation : PropertyOperation)
      (proper : operation.Proper) : Step host obj ((operation.run host memory).final obj)

/-- A run of operations. -/
abbrev Run (host : PropertyHost) : PropertyObject → PropertyObject → Prop :=
  ReflTransGen (Step host)

theorem Step.changes (h : obj.WellFormed host) (hstep : Step host obj post) :
    Changes host obj post := by
  cases hstep with
  | perform mem operation proper =>
    exact (KeepsAt.final (PropertyOperation.run_changes proper obj h)).1

theorem Run.changes (h : obj.WellFormed host) (hrun : Run host obj post) :
    Changes host obj post := by
  induction hrun with
  | refl => exact .refl
  | tail _ hstep ih => exact ih.trans (hstep.changes (ih.wellFormed h))

/-- From any state of a run on, the properties that are not configurable keep what they have, and an
object that is not extensible gains no key. -/
theorem essential_invariants (start : PropertyObject) (hfr : Fresh host start)
    (hb : Run host start pre) (ha : Run host pre post) :
    Respects host pre post := by
  have hval := (hb.changes hfr.wellFormed).wellFormed hfr.wellFormed
  exact (ha.changes hval).respects hval

end PropertyObject

/-! ## An example -/

/-- A heap of plain objects. -/
def PropertyHost.sample : PropertyHost :=
  { atoms := AtomTable.sample, cell := fun _ => .object, parseNumberCodeUnits := fun _ => f64NaN }

namespace PropertyObject

/-- A name that is defined as a constant. -/
def sampleConstant : PropertyOperation :=
  .define (.atom 4) (.data ⟨some (.fromI32 7), some false, some true, some false⟩)

/-- A constant stays what it is while it is assigned to and deleted. -/
theorem essential_invariants_constant : ∃ pre post,
    Run .sample (newArray .sample fun _ => .undefined) pre ∧ Run .sample pre post ∧
      pre.ownProperty .sample (.atom 4) =
        some ⟨.atom 4, .data false true false, .data (.fromI32 7)⟩ ∧
      Respects .sample pre post := by
  refine ⟨_, _, .single (.perform (fun _ => true) sampleConstant (by decide)),
    .head (.perform (fun _ => true) (.set (.atom 4) (.fromI32 8)) (by decide))
      (.single (.perform (fun _ => true) (.delete (.atom 4)) trivial)), by decide, ?_⟩
  exact essential_invariants _ (.array fun _ => .undefined)
    (.single (.perform (fun _ => true) sampleConstant (by decide)))
    (.head (.perform (fun _ => true) (.set (.atom 4) (.fromI32 8)) (by decide))
      (.single (.perform (fun _ => true) (.delete (.atom 4)) trivial)))

end PropertyObject

end TachyonEngine.Vm
