import TachyonEngine.Vm.MappedArguments

/-!
# Activations with mapped arguments

`materialize_arguments_object` fills a new arguments object from the call. From then on the function
works on the object and on its parameters. A run keeps a record of the keys that were no writable
data property in some state since the creation; the source keeps no such record.
-/

namespace TachyonEngine.Vm

open Lib Lib.Attempt
open Relation (ReflTransGen)

/-! ## Creation -/

/-- A call of a sloppy function with simple parameters. -/
structure ArgumentsSite (host : PropertyHost) where
  parameterCount : Nat
  registers : Nat → Value
  arguments : List Value
  calleeAtom : AtomId
  callee : Option Value
  iterator : Option (SymbolId × Value)
  small : arguments.length < 2 ^ 32
  index_calleeAtom : host.atoms.index (.atom calleeAtom) = none
  proper_registers : ∀ index, registers index ≠ PropertyStorage.hole
  proper_arguments : ∀ argument ∈ arguments, argument ≠ PropertyStorage.hole
  proper_callee : callee ≠ some PropertyStorage.hole
  proper_iterator : ∀ symbol, iterator ≠ some (symbol, PropertyStorage.hole)

namespace ArgumentsSite

variable {host : PropertyHost} (mem : MemoryRequest → Bool) (site : ArgumentsSite host)

/-- The arguments object after its allocation. -/
def fresh : PropertyObject :=
  { exotic := .arguments site.parameterCount
    properties := []
    isExtensible := true
    registers := site.registers }

/-- The values of the indices: a parameter has its register. -/
def values : List Value := site.arguments.mapIdx fun index argument =>
    if index < site.parameterCount then site.registers index else argument

/-- Stores the values from an index on. -/
def storeArguments (host : PropertyHost) (mem : MemoryRequest → Bool) :
    Nat → List Value → ObjectM Unit
  | _, [] => pure ()
  | index, value :: rest => do
      PropertyObject.setOwnDataProperty host mem (host.atoms.indexKey index) value
      storeArguments host mem (index + 1) rest

/-- A property that is not enumerable. -/
def defineHidden (host : PropertyHost) (mem : MemoryRequest → Bool) (key : PropertyKey)
    (value : Value) : ObjectM Unit :=
  PropertyObject.defineProperty host mem key (.data ⟨some value, some true, some false, some true⟩)

def defineCallee : ObjectM Unit :=
  match site.callee with
  | some callee => defineHidden host mem (.atom site.calleeAtom) callee
  | none => pure ()

def defineIterator : ObjectM Unit :=
  match site.iterator with
  | some (symbol, values) => defineHidden host mem (.symbol symbol) values
  | none => pure ()

def materializeArgumentsObject : ObjectM Unit := do
  storeArguments host mem 0 site.values
  defineHidden host mem host.lengthKey (safeIntegerValue site.arguments.length)
  site.defineCallee mem
  site.defineIterator mem

end ArgumentsSite

namespace PropertyObject

variable {host : PropertyHost} {mem : MemoryRequest → Bool} {obj post : PropertyObject}
  {key : PropertyKey} {desc : PropertyDescriptor} {operation : ArgumentsOperation}
  {cnt stored : Nat}

/-- An arguments object whose first indices are stored. -/
structure Holds (host : PropertyHost) (cnt : Nat) (obj : PropertyObject) (stored : Nat) : Prop where
  wellFormed : obj.WellFormed host
  exotic : obj.exotic = .arguments cnt
  lost : ∀ key index, host.arrayPropertyIndex key = some index → (key ∈ obj.Lost ↔ stored ≤ index)
  missing : ∀ key index, host.arrayPropertyIndex key = some index → stored ≤ index →
    obj.lookup key = none

/-- The operations keep an arguments object well-formed. -/
theorem arguments_changes (hproper : operation.Proper) :
    OnlyChanges host (operation.run host mem) := by
  intro obj h
  cases operation with
  | define key desc => exact changes_define key hproper obj h
  | set key val => exact changes_set key hproper obj h
  | delete key =>
    refine changesAt_bind (changesAt_delete h key) ?_
    exact fun _ obj h => changesAt_pure h ()
  | preventExtensions =>
    exact ⟨.single .preventExtensions, Change.wellFormed h .preventExtensions⟩
  | assignParameter idx val =>
    have hch : Change host obj
        { obj with registers := Function.update obj.registers idx val } :=
      change_register h hproper
    exact ⟨.single hch, hch.wellFormed h⟩

theorem ends_run_wellFormed (h : obj.WellFormed host) (hex : obj.exotic = .arguments cnt)
    (hproper : operation.Proper) : Ends (operation.run host mem)
      (fun _ post => Returned host mem obj operation post ∧ post.WellFormed host)
      (fun _ post => (∃ key, operation.target = some key ∧ Synced host obj key post) ∧
        post.WellFormed host) obj := by
  have hret : Ends (operation.run host mem) _ _ obj := ends_run h hex hproper
  have hchanges : ChangesAt host (operation.run host mem) obj := arguments_changes hproper obj h
  simp only [KeepsAt, Ends] at hret hchanges ⊢
  split at hret
  next heq =>
    rw [heq] at hchanges
    exact ⟨hret, hchanges.2⟩
  next heq =>
    rw [heq] at hchanges
    exact ⟨hret, hchanges.2⟩

variable {val : Value}

/-- One operation, with the memory it gets. The second component records the keys that were no
writable data property in some state. -/
inductive ArgumentsStep (host : PropertyHost)
    (allowed : (MemoryRequest → Bool) → PropertyObject → ArgumentsOperation → Prop) :
    PropertyObject × Set PropertyKey → PropertyObject × Set PropertyKey → Prop where
  | perform {obj : PropertyObject} {unmapped : Set PropertyKey} (mem : MemoryRequest → Bool)
      (operation : ArgumentsOperation) (proper : operation.Proper)
      (permitted : allowed mem obj operation) :
      ArgumentsStep host allowed (obj, unmapped)
        ((operation.run host mem).final obj, unmapped ∪ ((operation.run host mem).final obj).Lost)

/-- The step revives nothing. -/
def Unrevived (host : PropertyHost) (mem : MemoryRequest → Bool) (obj : PropertyObject)
    (operation : ArgumentsOperation) : Prop :=
  ¬ Revives host mem obj operation

/-- The record agrees with the properties. -/
structure Tracks (host : PropertyHost) (cnt : Nat) (state : PropertyObject × Set PropertyKey) :
    Prop where
  wellFormed : state.1.WellFormed host
  exotic : state.1.exotic = .arguments cnt
  agrees : ∀ key index, host.arrayPropertyIndex key = some index → index < cnt →
    (key ∈ state.2 ↔ key ∈ state.1.Lost)

variable {st next : PropertyObject × Set PropertyKey}

theorem Tracks.step (h : Tracks host cnt st) (hstep : ArgumentsStep host (Unrevived host) st next) :
    Tracks host cnt next := by
  cases hstep with
  | @perform obj unmapped mem operation proper permitted =>
    have hkept : ∀ post, Returned host mem obj operation post ∨
        (∃ key, operation.target = some key ∧ Synced host obj key post) →
        post.exotic = .arguments cnt ∧
          ∀ key idx, host.arrayPropertyIndex key = some idx → idx < cnt →
            key ∈ obj.Lost → key ∈ post.Lost := by
      rintro post (hret | ⟨tgt, -, hfl⟩)
      · refine ⟨(hret.exotic_eq h.wellFormed h.exotic).trans h.exotic, ?_⟩
        intro key idx hi hsm hlost
        apply hret.lost h.wellFormed h.exotic permitted ?_ ?_ hlost
        · rw [(AtomTable.eq_indexKey hi).1]
          rfl
        · rw [mappedArgumentFrame_of_arguments h.exotic hi hsm]
          rfl
      · refine ⟨hfl.exotic_eq.trans h.exotic, ?_⟩
        intro key idx _ _ hlost
        exact (mem_lost_congr (hfl.lookup_eq key)).mpr hlost
    have hends : Ends (operation.run host mem)
        (fun _ post => Tracks host cnt (post, unmapped ∪ post.Lost))
        (fun _ post => Tracks host cnt (post, unmapped ∪ post.Lost)) obj := by
      have htracks : ∀ post, post.WellFormed host → (Returned host mem obj operation post ∨
            ∃ key, operation.target = some key ∧ Synced host obj key post) →
          Tracks host cnt (post, unmapped ∪ post.Lost) := by
        intro post hval hcases
        obtain ⟨hex, hlost⟩ := hkept post hcases
        refine ⟨hval, hex, ?_⟩
        intro key idx hi hsm
        constructor
        · rintro (hb | hnow)
          · exact hlost key idx hi hsm ((h.agrees key idx hi hsm).mp hb)
          · exact hnow
        · exact .inr
      refine (ends_run_wellFormed h.wellFormed h.exotic proper).imp ?_ ?_
      · rintro _ post ⟨hret, hval⟩
        exact htracks post hval (.inl hret)
      · rintro _ post ⟨hfl, hval⟩
        exact htracks post hval (.inr hfl)
    let tracks (post : PropertyObject) : Prop := Tracks host cnt (post, unmapped ∪ post.Lost)
    exact hends.final

theorem Tracks.run (h : Tracks host cnt st) (hrun : ReflTransGen (ArgumentsStep host (Unrevived
    host)) st next) : Tracks host cnt next := by
  induction hrun with
  | refl => exact h
  | tail _ hstep ih => exact ih.step hstep

/-- A call with the argument 7 of a function with one parameter. -/
def sampleSite : ArgumentsSite .sample where
  parameterCount := 1
  registers := fun _ => .fromI32 7
  arguments := [.fromI32 7]
  calleeAtom := 4
  callee := none
  iterator := none
  small := by decide
  index_calleeAtom := by decide
  proper_registers := fun _ => by decide
  proper_arguments := by decide
  proper_callee := by decide
  proper_iterator := fun _ h => nomatch h

/-- The arguments object of the call. -/
def sampleArguments : PropertyObject :=
  (sampleSite.materializeArgumentsObject fun _ => true).final sampleSite.fresh

end PropertyObject

end TachyonEngine.Vm
