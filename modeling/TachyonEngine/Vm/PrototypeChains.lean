import TachyonEngine.Lib.Loop
import TachyonEngine.Vm.PropertyStorage

/-!
# Prototype chains

The lookups of properties follow prototype links without a bound of their own, and a Proxy ends the
walk. `ordinary_set_prototype_of` looks for the object in the chain of its new prototype before it
writes the link. So the links between objects that are not Proxies never close a cycle, and each of
the walks comes to an end.
-/

namespace TachyonEngine.Vm

open Gc (RawHeapRef)
open Lib.Loop

/-- What the setter tells apart: the payloads that take a link, which are ordinary objects,
functions, Arrays, iterator helpers and the Intl objects, the namespaces, and all others. -/
inductive ObjectReceiver where
  | linked
  | moduleNamespace
  | other
  deriving DecidableEq

/-- What a reference leads to: an object with an ordinary part, a Proxy, or a cell that is no
object. -/
inductive PrototypeCell where
  | object (receiver : ObjectReceiver) (ordinary : OrdinaryObject)
  | proxy
  | primitive

/-- The link of a cell; a cell without one counts as the end of a chain. -/
def PrototypeCell.prototype : PrototypeCell → Value
  | .object _ ordinary => ordinary.prototype
  | _ => .fromImmediate .null

inductive PrototypeError where
  | notObject (val : Value)
  | unsupportedAccessorDescriptor

structure PrototypeHeap where
  cells : RawHeapRef → Option PrototypeCell

namespace PrototypeHeap

def cellOf (heap : PrototypeHeap) (val : Value) : Option PrototypeCell :=
  val.asHeapRef.bind heap.cells

def isObjectValue (heap : PrototypeHeap) (val : Value) : Bool :=
  match heap.cellOf val with
  | some (.object _ _) => true
  | some .proxy => true
  | _ => false

def isProxyValue (heap : PrototypeHeap) (val : Value) : Bool :=
  match heap.cellOf val with
  | some .proxy => true
  | _ => false

/-- The receiver and its ordinary part, or the value itself: a Proxy has no such part. -/
def objectSnapshot (heap : PrototypeHeap) (val : Value) :
    Except Value (ObjectReceiver × OrdinaryObject) :=
  match heap.cellOf val with
  | some (.object receiver ordinary) => .ok (receiver, ordinary)
  | _ => .error val

/-- One round of the search for the target: whether it has been found. -/
def searchStep (heap : PrototypeHeap) (tgt candidate : Value) :
    Progress Value (Except PrototypeError Bool) :=
  if heap.isObjectValue candidate then
    if candidate = tgt then .finished (.ok true)
    else if heap.isProxyValue candidate then .finished (.ok false)
    else
      match heap.objectSnapshot candidate with
      | .error val => .finished (.error (.notObject val))
      | .ok (_, snapshot) => .running snapshot.prototype
  else .finished (.ok false)

/-- The heap with another cell at the reference that a value holds. -/
def withCell (heap : PrototypeHeap) (val : Value) (cell : PrototypeCell) : PrototypeHeap :=
  { cells := fun reference =>
      if val = .heapRef reference then some cell else heap.cells reference }

/-- OrdinarySetPrototypeOf with at most so many rounds of the search; `none` when these do not
do. -/
def ordinarySetPrototypeOf (heap : PrototypeHeap) (rounds : Nat) (objectPrototype : Option Value)
    (tgt prototype : Value) : Option (Except PrototypeError Bool × PrototypeHeap) :=
  if prototype.asImmediate ≠ some .null ∧ heap.isObjectValue prototype = false then
    some (.error (.notObject prototype), heap)
  else
    match heap.objectSnapshot tgt with
    | .error val => some (.error (.notObject val), heap)
    | .ok (receiver, snapshot) =>
      if snapshot.prototype = prototype then some (.ok true, heap)
      else if objectPrototype = some tgt then some (.ok false, heap)
      else if !snapshot.isExtensible then some (.ok false, heap)
      else
        (run (heap.searchStep tgt) rounds prototype).map fun
          | .error error => (.error error, heap)
          | .ok true => (.ok false, heap)
          | .ok false =>
            match receiver with
            | .linked =>
              (.ok true, heap.withCell tgt (.object .linked { snapshot with prototype :=
                prototype }))
            | .moduleNamespace => (.ok false, heap)
            | .other => (.error .unsupportedAccessorDescriptor, heap)

section Lookup

variable {ε ρ : Type} (heap : PrototypeHeap) (notObject : Value → ε) (top : ρ)
  (dense : Value → Except ε (Option ρ)) (stored : Value → ObjectReceiver → OrdinaryObject →
    Except ε (Option ρ))

/-- The end of a round: the object has no answer, so the lookup goes on with its prototype. -/
def ascend (snapshot : OrdinaryObject) : Progress Value (Except ε ρ) :=
  if snapshot.prototype.asImmediate = some .null then .finished (.ok top)
  else if heap.isObjectValue snapshot.prototype = false then
    .finished (.error (notObject snapshot.prototype))
  else .running snapshot.prototype

/-- One object of `resolve_property_read_until_proxy`. What the object answers by its elements and
by its stored and virtual properties is given by `dense` and `stored`. -/
def readStep (proxy : Value → ρ) (cur : Value) : Progress Value (Except ε ρ) :=
  if heap.isProxyValue cur then .finished (.ok (proxy cur))
  else
    match dense cur, heap.objectSnapshot cur with
    | .error error, _ => .finished (.error error)
    | .ok (some read), _ => .finished (.ok read)
    | .ok none, .error val => .finished (.error (notObject val))
    | .ok none, .ok (receiver, snapshot) =>
      match stored cur receiver snapshot with
      | .error error => .finished (.error error)
      | .ok (some read) => .finished (.ok read)
      | .ok none => heap.ascend notObject top snapshot

/-- One object of `resolve_property_write_until_proxy`. The write takes the ordinary part first, and
a module namespace refuses every write. -/
def writeStep (proxy : Value → ρ) (refused : ρ) (cur : Value) : Progress Value (Except ε ρ) :=
  match heap.objectSnapshot cur with
  | .error val =>
    if heap.isProxyValue cur then .finished (.ok (proxy cur))
    else .finished (.error (notObject val))
  | .ok (receiver, snapshot) =>
    if receiver = .moduleNamespace then .finished (.ok refused)
    else
      match dense cur with
      | .error error => .finished (.error error)
      | .ok (some write) => .finished (.ok write)
      | .ok none =>
        match stored cur receiver snapshot with
        | .error error => .finished (.error error)
        | .ok (some write) => .finished (.ok write)
        | .ok none => heap.ascend notObject top snapshot

end Lookup

/-! ## Runs -/

/-- A heap grows by cells whose prototype exists or is null, and its links are set by
`ordinary_set_prototype_of`, whatever the answer. -/
inductive Step : PrototypeHeap → PrototypeHeap → Prop where
  | allocate {heap : PrototypeHeap} {reference : RawHeapRef} {cell : PrototypeCell}
      (hfr : heap.cells reference = none)
      (hprototype : cell.prototype = .fromImmediate .null ∨
        heap.isObjectValue cell.prototype = true) :
      Step heap (heap.withCell (.heapRef reference) cell)
  | setPrototype {heap heap' : PrototypeHeap} {rounds : Nat} {objectPrototype : Option Value}
      {tgt prototype : Value} {result : Except PrototypeError Bool}
      (h : heap.ordinarySetPrototypeOf rounds objectPrototype tgt prototype =
        some (result, heap')) :
      Step heap heap'

/-- The second value is the prototype of the first, which is an object and no Proxy. -/
def Climbs (heap : PrototypeHeap) (cur next : Value) : Prop :=
  ∃ receiver ordinary, heap.cellOf cur = some (.object receiver ordinary) ∧
    ordinary.prototype = next

/-- Prototypes exist, and no chain goes on for ever. -/
structure ChainsEnd (heap : PrototypeHeap) : Prop where
  exists_prototype : ∀ {cur next}, heap.Climbs cur next →
    next = .fromImmediate .null ∨ (heap.cellOf next).isSome
  wellFounded : WellFounded fun next cur => heap.Climbs cur next

/-! ## Links -/

/-- A vertex with one link, to where no path leads back to it, closes no cycle. -/
theorem wellFounded_redirect {α : Type} {link link' : α → α → Prop} {tgt goal : α}
    (hwell : WellFounded fun next cur => link cur next) (hother : ∀ cur next, link' cur next →
      cur ≠ tgt ∧ link cur next ∨ cur = tgt ∧ next = goal)
    (hfree : ¬ Relation.ReflTransGen link goal tgt) :
    WellFounded fun next cur => link' cur next := by
  have hpast : ∀ cur, ¬ Relation.ReflTransGen link cur tgt →
      Acc (fun next cur => link' cur next) cur := by
    intro cur
    -- what does not lead to the target keeps its links
    induction cur using hwell.induction with
    | h cur ih =>
      intro hpath
      refine ⟨cur, fun next hn => ?_⟩
      rcases hother cur next hn with ⟨-, hlink⟩ | ⟨rfl, -⟩
      · exact ih next hlink fun hrest => hpath (.head hlink hrest)
      · exact absurd .refl hpath
  refine ⟨fun cur => ?_⟩
  induction cur using hwell.induction with
  | h cur ih =>
    refine ⟨cur, fun next hn => ?_⟩
    rcases hother cur next hn with ⟨-, hlink⟩ | ⟨-, rfl⟩
    · exact ih next hlink
    · exact hpast next hfree

variable {heap heap' : PrototypeHeap} {tgt cur next prototype val : Value}

theorem isSome_of_isObjectValue (h : heap.isObjectValue val = true) : (heap.cellOf val).isSome := by
  rw [isObjectValue] at h
  split at h <;> simp_all

theorem Climbs.isObjectValue (h : heap.Climbs cur next) : heap.isObjectValue cur = true := by
  obtain ⟨receiver, ordinary, hcell, -⟩ := h
  rw [PrototypeHeap.isObjectValue, hcell]

variable {receiver : ObjectReceiver} {snapshot : OrdinaryObject}

theorem climbs_of_snapshot (h : heap.objectSnapshot cur = .ok (receiver, snapshot)) :
    heap.Climbs cur snapshot.prototype := by
  rw [objectSnapshot] at h
  split at h
  next hcell =>
    cases h
    exact ⟨_, _, hcell, rfl⟩
  · cases h

/-- A search whose start leads to the target finds it. -/
theorem returns_search (hobject : heap.isObjectValue tgt = true)
    (hpath : Relation.ReflTransGen heap.Climbs prototype tgt) :
    Returns (heap.searchStep tgt) prototype (.ok true) := by
  induction hpath using Relation.ReflTransGen.head_induction_on with
  | refl => exact .done (by rw [searchStep, if_pos hobject, if_pos rfl])
  | @head cur next hclimbs _ ih =>
    by_cases heq : cur = tgt
    · exact .done (by rw [searchStep, if_pos hclimbs.isObjectValue, if_pos heq])
    · obtain ⟨receiver, ordinary, hcell, rfl⟩ := hclimbs
      refine .round ?_ ih
      simp only [searchStep, PrototypeHeap.isObjectValue, isProxyValue, objectSnapshot, hcell,
        if_neg heq,
        if_true, Bool.false_eq_true, if_false]

variable {ref : RawHeapRef} {cell : PrototypeCell}

theorem cellOf_withCell (val : Value) :
    (heap.withCell (.heapRef ref) cell).cellOf val =
      if val = .heapRef ref then some cell else heap.cellOf val := by
  cases val with
  | heapRef other => simp [cellOf, withCell, Value.asHeapRef, eq_comm]
  | _ => simp [cellOf, Value.asHeapRef]

/-- A cell is written whose prototype exists and does not lead to it. -/
theorem ChainsEnd.withCell (h : heap.ChainsEnd) (hcell : cell.prototype = .fromImmediate .null ∨
    (heap.cellOf cell.prototype).isSome) (hfree : ¬ Relation.ReflTransGen heap.Climbs cell.prototype
    (.heapRef ref)) : (heap.withCell (.heapRef ref) cell).ChainsEnd := by
  have hother : ∀ cur next, (heap.withCell (.heapRef ref) cell).Climbs cur next →
      cur ≠ .heapRef ref ∧ heap.Climbs cur next ∨ cur = .heapRef ref ∧ next = cell.prototype := by
    rintro cur next ⟨receiver, ordinary, hlink, rfl⟩
    rw [cellOf_withCell] at hlink
    split_ifs at hlink with heq
    · cases hlink
      exact .inr ⟨heq, rfl⟩
    · exact .inl ⟨heq, _, _, hlink, rfl⟩
  have hcells : ∀ val, (heap.cellOf val).isSome →
      ((heap.withCell (.heapRef ref) cell).cellOf val).isSome := by
    intro val hv
    rw [cellOf_withCell]
    split
    · rfl
    · exact hv
  refine ⟨fun {cur next} hclimbs => ?_, wellFounded_redirect h.wellFounded hother hfree⟩
  rcases hother cur next hclimbs with ⟨-, hb⟩ | ⟨-, rfl⟩
  · exact (h.exists_prototype hb).imp_right (hcells _)
  · exact hcell.imp_right (hcells _)

/-- Setting a prototype leaves the heap alone, or it writes the link after a search that has not
found the object. -/
theorem ordinarySetPrototypeOf_cases {rounds : Nat} {objectPrototype : Option Value}
    {res : Except PrototypeError Bool}
    (h : heap.ordinarySetPrototypeOf rounds objectPrototype tgt prototype = some (res, heap')) :
    heap' = heap ∨ (prototype.asImmediate = some .null ∨ heap.isObjectValue prototype = true) ∧
      ∃ snapshot : OrdinaryObject, heap.Climbs tgt snapshot.prototype ∧
        Returns (heap.searchStep tgt) prototype (.ok false) ∧
        heap' = heap.withCell tgt (.object .linked { snapshot with prototype := prototype }) := by
  simp only [ordinarySetPrototypeOf] at h
  split at h
  · simp_all
  next hobject =>
    split at h
    · simp_all
    next receiver snapshot hsnapshot =>
      iterate 3
        split at h
        · simp_all
      obtain ⟨found, hrun, h⟩ := Option.map_eq_some_iff.mp h
      split at h
      · simp_all
      · simp_all
      · cases receiver with
        | moduleNamespace | other => simp_all
        | linked =>
          cases h
          refine .inr ⟨?_, snapshot, climbs_of_snapshot hsnapshot, returns_of_run hrun, rfl⟩
          by_contra hnot
          rw [not_or, Bool.not_eq_true] at hnot
          exact hobject hnot

theorem ChainsEnd.step (h : heap.ChainsEnd) (hstep : Step heap heap') : heap'.ChainsEnd := by
  cases hstep with
  | @allocate ref cell hfr hprototype =>
    have hcell := hprototype.imp_right isSome_of_isObjectValue
    refine h.withCell hcell fun hpath => ?_
    -- a link to the fresh reference would be a prototype that does not exist
    have hl : (.heapRef ref : Value) = .fromImmediate .null ∨
        (heap.cellOf (.heapRef ref)).isSome := by
      rcases hpath.cases_tail with heq | ⟨cur, -, hclimbs⟩
      · exact heq ▸ hcell
      · exact h.exists_prototype hclimbs
    rcases hl with heq | hsome
    · cases heq
    · rw [cellOf, Value.asHeapRef, Option.bind_some, hfr] at hsome
      cases hsome
  | setPrototype hset =>
    rcases ordinarySetPrototypeOf_cases hset with rfl | ⟨hexists, snapshot, hclimbs, hsearch, rfl⟩
    · exact h
    next tgt prototype _ =>
      have ht := hclimbs.isObjectValue
      cases tgt with
      | heapRef ref =>
        refine h.withCell ?_ fun hpath => ?_
        · refine hexists.imp (fun hnull => ?_) isSome_of_isObjectValue
          cases prototype <;> cases hnull
          rfl
        · cases hsearch.unique (returns_search ht hpath)
      | _ => cases ht

variable {ρ : Type}

/-- A walk that goes on to the prototypes only comes to an end. -/
theorem ChainsEnd.returns (h : heap.ChainsEnd) {step : Value → Progress Value ρ} (hstep : ∀ cur
    next, step cur = .running next → heap.Climbs cur next) (cur : Value) :
    ∃ res, Returns step cur res := by
  induction cur using h.wellFounded.induction with
  | h cur ih =>
    cases hprogress : step cur with
    | finished res => exact ⟨res, .done hprogress⟩
    | running next =>
      obtain ⟨res, hrest⟩ := ih next (hstep cur next hprogress)
      exact ⟨res, .round hprogress hrest⟩

theorem climbs_of_ascend {ε : Type} {notObject : Value → ε} {top : ρ} (hsnapshot :
    heap.objectSnapshot cur = .ok (receiver, snapshot)) (h : heap.ascend notObject top
    snapshot = .running next) : heap.Climbs cur next := by
  rw [ascend] at h
  split at h
  · cases h
  · split_ifs at h
    cases h
    exact climbs_of_snapshot hsnapshot

/-- Every heap that allocations and changes of prototypes build has no cycle of prototypes, and the
search of the setter and both lookups end in it, whatever the objects on the way answer. -/
theorem prototypes_stay_acyclic {ε ρ : Type}
    (hrun : Relation.ReflTransGen Step { cells := fun _ => none } heap) :
    (∀ val, ¬ Relation.TransGen heap.Climbs val val) ∧
    (∀ objectPrototype tgt prototype, ∃ rounds,
      (heap.ordinarySetPrototypeOf rounds objectPrototype tgt prototype).isSome) ∧
    (∀ (notObject : Value → ε) (top : ρ) dense stored proxy cur, ∃ res,
      Returns (heap.readStep notObject top dense stored proxy) cur res) ∧
    ∀ (notObject : Value → ε) (top : ρ) dense stored proxy refused cur, ∃ res,
      Returns (heap.writeStep notObject top dense stored proxy refused) cur res := by
  have hends : heap.ChainsEnd := by
    induction hrun with
    | refl =>
      have hn : ∀ cur next, ¬ Climbs { cells := fun _ => none } cur next := by
        rintro cur next ⟨_, _, hcell, -⟩
        cases cur <;> cases hcell
      exact ⟨fun hclimbs => absurd hclimbs (hn _ _),
        ⟨fun cur => ⟨cur, fun next hclimbs => absurd hclimbs (hn _ _)⟩⟩⟩
    | tail _ hstep ih => exact ih.step hstep
  refine ⟨fun val hcycle => ?_, fun objectPrototype tgt prototype => ?_,
    fun notObject top dense stored proxy cur => ?_,
    fun notObject top dense stored proxy refused cur => ?_⟩
  · have := hends.wellFounded.transGen
    exact this.irrefl.irrefl val (Relation.transGen_swap.mp hcycle)
  · have hsearches : ∃ found, Returns (heap.searchStep tgt) prototype found := by
      refine hends.returns (fun cur next h => ?_) prototype
      rw [searchStep] at h
      repeat' split at h
      all_goals cases h
      exact climbs_of_snapshot ‹_›
    obtain ⟨found, hsearch⟩ := hsearches
    obtain ⟨rounds, hrounds⟩ := hsearch.exists_run
    refine ⟨rounds, ?_⟩
    rw [ordinarySetPrototypeOf, hrounds]
    repeat' split
    all_goals rfl
  · refine hends.returns (fun cur next h => ?_) cur
    rw [readStep] at h
    repeat' split at h
    all_goals first | exact climbs_of_ascend ‹_› h | cases h
  · refine hends.returns (fun cur next h => ?_) cur
    rw [writeStep] at h
    repeat' split at h
    all_goals first | exact climbs_of_ascend ‹_› h | cases h

/-- An object without a prototype at a first reference. -/
def firstObject : Value := .heapRef ⟨1, Gc.firstOffset⟩

def oneObject : PrototypeHeap := withCell { cells := fun _ => none } firstObject
    (.object .linked (OrdinaryObject.new (.fromImmediate .null)))

/-- It does not become its own prototype. -/
theorem prototypes_stay_acyclic_oneObject : ¬ ∃ val, Relation.TransGen oneObject.Climbs val val :=
  not_exists.mpr (prototypes_stay_acyclic (ε := Unit) (ρ := Unit)
    (.tail (.single (.allocate rfl (.inl rfl)))
      (.setPrototype (show oneObject.ordinarySetPrototypeOf 1 none firstObject firstObject =
        some (.ok false, oneObject) from rfl)))).1

end PrototypeHeap

end TachyonEngine.Vm
