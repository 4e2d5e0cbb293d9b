import TachyonEngine.Vm.Promise

/-!
# Promises without their links

`Promises` says what the records of the engine stand for: of each promise its state, its result and
the reactions that wait for it, in order, and the jobs of the queue. The operations on the linked
records are operations on these lists.
-/

namespace TachyonEngine.Vm

open PromiseReaction Option

open Gc (RawHeapRef)
open Lib Lib.Attempt

/-! ## The lists -/

/-- A reaction without its link. -/
structure PromiseBinding where
  handler : Value
  capability : Value

def PromiseReaction.binding (reaction : PromiseReaction) : PromiseBinding :=
  ⟨reaction.handler, reaction.capability⟩

def PromiseBinding.job (argument : Value) (rejected : Bool) (binding : PromiseBinding) :
    PromiseJob :=
  .reaction binding.handler binding.capability argument rejected

/-- A promise and the two lists of reactions that wait for it. -/
structure PromiseView where
  state : PromiseState
  result : Value
  waiting : Bool → List PromiseBinding

structure Promises where
  promises : RawHeapRef → Option PromiseView
  jobs : List PromiseJob

namespace Promises

def set (all : Promises) (ref : RawHeapRef) (view : PromiseView) : Promises :=
  { all with promises := fun other => if other = ref then some view else all.promises other }

def create (all : Promises) (ref : RawHeapRef) (state : PromiseState) (result : Value) : Promises :=
  all.set ref ⟨state, result, fun _ => []⟩

def push (all : Promises) (added : List PromiseJob) :
    Promises := { all with jobs := all.jobs ++ added }

/-- A pending promise is settled, and the reactions of one of its lists become jobs. -/
def settle (all : Promises) (ref : RawHeapRef) (state : PromiseState) (result : Value) : Promises :=
  match all.promises ref with
  | none => all
  | some view =>
    if view.state = .pending then
      (all.set ref ⟨state, result, fun _ => []⟩).push
        ((view.waiting (state = .rejected)).map (PromiseBinding.job result (state = .rejected)))
    else all

def append (all : Promises) (ref : RawHeapRef) (rejected : Bool) (binding : PromiseBinding) :
    Promises :=
  match all.promises ref with
  | none => all
  | some view =>
    all.set ref
      { view with
        waiting := fun side =>
          if side = rejected then view.waiting side ++ [binding] else view.waiting side }

end Promises

/-! ## The lists of an engine -/

namespace PromiseEngine

/-- The reactions from a node on. -/
def reactionsFrom (engine : PromiseEngine) (start : Option Nat) : List PromiseBinding :=
  ((followChain PromiseReaction.next engine.reactions engine.reactions.length start).getD []).map
    PromiseReaction.binding

def viewOf (engine : PromiseEngine) (obj : PromiseObject) : PromiseView :=
  ⟨obj.state, obj.result, fun rejected => engine.reactionsFrom (obj.list rejected).1⟩

def view (engine : PromiseEngine) : Promises :=
  { promises := fun ref => (engine.promises ref).map engine.viewOf
    jobs := engine.queue.jobs }

/-- The nodes of each list are linked, and no two lists share one. -/
structure Linked (engine : PromiseEngine) (nodes : RawHeapRef → Bool → List Nat) : Prop where
  chained : ∀ {ref obj}, engine.promises ref = some obj → ∀ rejected,
    Chained PromiseReaction.next engine.reactions (obj.list rejected).1 (obj.list rejected).2
      (nodes ref rejected)
  settled : ∀ {ref obj}, engine.promises ref = some obj → obj.state ≠ .pending →
    ∀ rejected, nodes ref rejected = []
  absent : ∀ {ref}, engine.promises ref = none → ∀ rejected, nodes ref rejected = []
  apart : ∀ {ref other rejected side index}, index ∈ nodes ref rejected →
    index ∈ nodes other side → ref = other ∧ rejected = side

def WellLinked (engine : PromiseEngine) : Prop := ∃ nodes, engine.Linked nodes

section Views

variable {engine : PromiseEngine} {nodes : RawHeapRef → Bool → List Nat} {ref : RawHeapRef}
  {obj : PromiseObject}

theorem reactionsFrom_eq {head tail : Option Nat} {indices : List Nat}
    (h : Chained next engine.reactions head tail indices) :
    engine.reactionsFrom head = (contents engine.reactions indices).map binding := by
  rw [reactionsFrom, h.links.followChain_eq h.links.length_le, getD_some]

theorem Linked.waiting_eq (h : engine.Linked nodes) (hf : engine.promises ref = some obj)
    (rejected : Bool) : (engine.viewOf obj).waiting rejected =
      (contents engine.reactions (nodes ref rejected)).map binding :=
  reactionsFrom_eq (h.chained hf rejected)

theorem view_promises (hf : engine.promises ref = some obj) :
    engine.view.promises ref = some (engine.viewOf obj) := by
  simp only [view, hf, map_some]

theorem view_absent (hf : engine.promises ref = none) : engine.view.promises ref = none := by
  simp only [view, hf, map_none]

variable {post : PromiseEngine}

/-- The links do not speak of the queue and of the pairs. -/
theorem Linked.of_same (h : engine.Linked nodes) (hpromises : post.promises = engine.promises)
    (hreactions : post.reactions = engine.reactions) : post.Linked nodes where
  chained := by
    intro ref obj hf rejected
    rw [hreactions]
    rw [hpromises] at hf
    exact h.chained hf rejected
  settled := by
    intro ref obj hf
    rw [hpromises] at hf
    exact h.settled hf
  absent := by
    intro ref hf
    rw [hpromises] at hf
    exact h.absent hf
  apart := h.apart

theorem WellLinked.of_same (h : engine.WellLinked) (hpromises : post.promises = engine.promises)
    (hreactions : post.reactions = engine.reactions) : post.WellLinked := by
  obtain ⟨nodes, hlk⟩ := h
  exact ⟨nodes, hlk.of_same hpromises hreactions⟩

/-- The lists of an engine are those of another one with the same records. -/
theorem view_of_same (hpromises : post.promises = engine.promises) (hreactions : post.reactions =
    engine.reactions) : post.view = { engine.view with jobs := post.queue.jobs } := by
  have hview : ∀ obj, post.viewOf obj = engine.viewOf obj := by
    intro obj
    simp only [viewOf, reactionsFrom, hreactions]
  simp only [view, hpromises]
  congr 1
  funext ref
  congr 1
  funext obj
  exact hview obj

theorem view_modifyQueue (engine : PromiseEngine) (change : PromiseJobQueue → PromiseJobQueue) :
    (engine.modifyQueue change).view = { engine.view with jobs := (change engine.queue).jobs } :=
  view_of_same rfl rfl

/-- A promise whose lists are empty is put in place of a record. -/
theorem Linked.setEmpty (h : engine.Linked nodes)
    (hempty : ∀ rejected, obj.list rejected = (none, none)) :
    (engine.setPromise ref obj).Linked
      (fun other rejected => if other = ref then [] else nodes other rejected) where
  chained := by
    intro other obj' hf rejected
    simp only [setPromise] at hf ⊢
    split_ifs at hf with heq
    · rw [← some.inj hf, hempty, if_pos heq]
      exact .empty
    · rw [if_neg heq]
      exact h.chained hf rejected
  settled := by
    intro other obj' hf hst rejected
    simp only [setPromise] at hf ⊢
    split at hf
    · next heq => rw [if_pos heq]
    next hne =>
      rw [if_neg hne]
      exact h.settled hf hst rejected
  absent := by
    intro other hf rejected
    simp only [setPromise] at hf ⊢
    split_ifs at hf with hne
    rw [if_neg hne]
    exact h.absent hf rejected
  apart := by
    intro ref' other rejected side idx hi ho
    split at hi
    · exact absurd hi List.not_mem_nil
    · split at ho
      · exact absurd ho List.not_mem_nil
      · exact h.apart hi ho

theorem view_setEmpty (hempty : ∀ rejected, obj.list rejected = (none, none)) :
    (engine.setPromise ref obj).view = engine.view.set ref ⟨obj.state, obj.result,
    fun _ => []⟩ := by
  simp only [view, setPromise]
  congr 1
  funext other
  split
  · simp only [map_some, viewOf, hempty, reactionsFrom]
    congr 2
    funext rejected
    cases engine.reactions.length <;> rfl
  · rfl

end Views

/-! ## Operations -/

/-- What an operation leaves: linked records with these lists, and the same pairs. -/
structure Becomes (engine : PromiseEngine) (all : Promises) (after : PromiseEngine) : Prop where
  linked : after.WellLinked
  view : after.view = all
  cells : after.cells = engine.cells

section Operations

variable {engine : PromiseEngine}

theorem WellLinked.becomes (h : engine.WellLinked) : engine.Becomes engine.view engine :=
    ⟨h, rfl, rfl⟩

theorem Becomes.trans {middle post : PromiseEngine} {all final : Promises}
    (h : engine.Becomes all middle) (hn : middle.Becomes final post) : engine.Becomes final post :=
  ⟨hn.linked, hn.view, hn.cells.trans h.cells⟩

theorem ends_promiseSnapshot (val : Value) : Ends (promiseSnapshot val)
      (fun found post => post = engine ∧ val.asHeapRef = some found.1 ∧
        engine.promises found.1 = some found.2)
      (fun e post => post = engine ∧ val.asHeapRef.bind engine.promises = none ∧
        e = .notObject val) engine := by
  rw [promiseSnapshot, ends_bind, ends_get]
  cases href : val.asHeapRef with
  | none => exact ⟨rfl, rfl, rfl⟩
  | some ref =>
    simp only
    cases hf : engine.promises ref with
    | none => exact ⟨rfl, hf, rfl⟩
    | some obj => exact ⟨rfl, rfl, hf⟩

/-- The queue gets the reactions of a chain. -/
theorem ends_enqueue {start : Option Nat} {tail : Option Nat} {indices : List Nat}
    (h : Chained next engine.reactions start tail indices) (argument : Value) (rejected : Bool) :
    Ends (enqueuePromiseReactionList start argument rejected)
      (fun _ post => post = engine.modifyQueue fun queue =>
        { queue with
          jobs := queue.jobs ++ (engine.reactionsFrom start).map (PromiseBinding.job argument rejected) })
      (fun _ _ => False) engine := by
  have hfollow := h.links.followChain_eq h.links.length_le
  rw [enqueuePromiseReactionList, ends_bind, ends_get]
  rw [reactionsFrom, hfollow, List.map_map]
  rfl

theorem ends_enqueue_none (argument : Value) (rejected : Bool) :
    Ends (enqueuePromiseReactionList none argument rejected) (fun _ post => post = engine)
      (fun _ _ => False) engine := by
  refine (ends_enqueue .empty argument rejected).imp ?_ (fun _ _ hfalse => hfalse.elim)
  intro _ post ha
  have hn : engine.reactionsFrom none = [] := by
    simp only [reactionsFrom]
    cases engine.reactions.length <;> rfl
  rw [ha, hn]
  simp [modifyQueue]

/-- Settling a promise settles it in the lists. -/
theorem ends_settlePromise (h : engine.WellLinked) (promise : Value) (st : PromiseState) (res : Value) :
    Ends (settlePromise promise st res) (fun _ post => ∃ ref, promise.asHeapRef = some ref ∧
        (engine.promises ref).isSome ∧ engine.Becomes (engine.view.settle ref st res) post)
      (fun _ post => post = engine ∧ promise.asHeapRef.bind engine.promises = none) engine := by
  rw [settlePromise, ends_bind]
  refine (ends_promiseSnapshot promise).imp ?_ (fun _ _ ⟨ha, hn, _⟩ => ⟨ha, hn⟩)
  rintro ⟨ref, obj⟩ middle ⟨hmid, href, hf⟩
  have hview := view_promises hf
  simp only [hmid]
  split
  next hset =>
    refine (ends_enqueue_none res _).imp ?_ (fun _ _ hfalse => hfalse.elim)
    intro _ post ha
    refine ⟨ref, href, by rw [hf]; rfl, ?_⟩
    have hall : engine.view.settle ref st res = engine.view := by
      simp only [Promises.settle, hview]
      rw [if_neg (show ¬ (engine.viewOf obj).state = .pending from hset)]
    rw [hall, ha]
    exact h.becomes
  next hpend =>
    rw [Decidable.not_not] at hpend
    rw [ends_bind, ends_modify]
    obtain ⟨nodes, hlk⟩ := h
    have hlist : (if st = .rejected then obj.rejectHead else obj.fulfillHead) =
        (obj.list (decide (st = .rejected))).1 := by
      by_cases hst : st = .rejected
      · simp [PromiseObject.list, hst]
      · simp [PromiseObject.list, hst]
    rw [hlist]
    have hchained : Chained next
        (engine.setPromise ref (.mk st res none none none none)).reactions
        (obj.list (decide (st = .rejected))).1 (obj.list (decide (st = .rejected))).2
        (nodes ref (decide (st = .rejected))) := hlk.chained hf _
    refine (ends_enqueue hchained res _).imp ?_ (fun _ _ hfalse => hfalse.elim)
    intro _ post ha
    rw [ha]
    refine ⟨ref, href, by rw [hf]; rfl, ?_⟩
    have hempty : ∀ rejected, (PromiseObject.mk st res none none none none).list rejected =
        (none, none) := by
      intro rejected
      cases rejected <;> rfl
    refine ⟨⟨_, (hlk.setEmpty hempty).of_same rfl rfl⟩, ?_, rfl⟩
    rw [view_modifyQueue, view_setEmpty hempty]
    simp only [Promises.settle, hview]
    rw [if_pos (show (engine.viewOf obj).state = .pending from hpend)]
    rfl

variable {ref : RawHeapRef} {obj : PromiseObject}

/-- A new promise is pending or settled with nothing that waits for it. -/
theorem becomes_create (h : engine.WellLinked) (st : PromiseState) (res : Value) :
    engine.Becomes (engine.view.create ref st res)
      (engine.setPromise ref (.mk st res none none none none)) := by
  have hempty : ∀ rejected, (PromiseObject.mk st res none none none none).list rejected =
      (none, none) := by
    intro rejected
    cases rejected <;> rfl
  obtain ⟨nodes, hlk⟩ := h
  exact ⟨⟨_, hlk.setEmpty hempty⟩, view_setEmpty hempty, rfl⟩

theorem PromiseObject.list_setList (obj : PromiseObject) (rejected side : Bool)
    (head tail : Option Nat) :
    (obj.setList rejected head tail).list side = if side = rejected then
    (head, tail) else obj.list side := by
  cases rejected <;> cases side <;> rfl

theorem binding_setNext (reaction : PromiseReaction) (link : Option Nat) :
    (reaction.setNext link).binding = reaction.binding := rfl

/-- A reaction that is linked behind the last one of a list. -/
theorem becomes_append (h : engine.WellLinked) (hf : engine.promises ref = some obj) (hpend :
    obj.state = .pending) (rejected : Bool) {reaction : PromiseReaction} (hn : reaction.next = none)
    :
    engine.Becomes (engine.view.append ref rejected reaction.binding) ({ engine with
          reactions := linkBehind setNext engine.reactions (obj.list rejected).2 reaction
          : PromiseEngine }.setPromise ref
        (obj.setList rejected
          (if (obj.list rejected).1.isNone then some engine.reactions.length else
            (obj.list rejected).1)
          (some engine.reactions.length))) := by
  obtain ⟨nodes, hlk⟩ := h
  have hset : ∀ (reaction : PromiseReaction) link, (reaction.setNext link).next = link :=
    fun _ _ => rfl
  have hchain := hlk.chained hf rejected
  have hlong := hchain.linkBehind hset hn
  generalize (if (obj.list rejected).1.isNone then some engine.reactions.length
    else (obj.list rejected).1) = head at hlong ⊢
  -- the other lists keep their nodes
  have hfr : ∀ {other obj'}, engine.promises other = some obj' → ∀ side,
      (other, side) ≠ (ref, rejected) →
      Chained next
        (linkBehind setNext engine.reactions (obj.list rejected).2 reaction)
        (obj'.list side).1 (obj'.list side).2 (nodes other side) ∧
      contents (linkBehind setNext engine.reactions (obj.list rejected).2 reaction)
        (nodes other side) = contents engine.reactions (nodes other side) := by
    intro other obj' ho side hne
    apply (hlk.chained ho side).frame_linkBehind
    intro last hl hm
    have hl' : last ∈ nodes ref rejected := by
      rw [hchain.tail_eq] at hl
      exact List.mem_of_getLast? hl
    obtain ⟨rfl, rfl⟩ := hlk.apart hm hl'
    exact hne rfl
  have hlt : ∀ {other side idx}, idx ∈ nodes other side → idx < engine.reactions.length := by
    intro other side idx hi
    cases ho : engine.promises other with
    | none =>
      rw [hlk.absent ho] at hi
      exact absurd hi List.not_mem_nil
    | some obj' => exact (hlk.chained ho side).links.lt_length idx hi
  have ha : ({ engine with
        reactions := linkBehind setNext engine.reactions (obj.list rejected).2 reaction
        : PromiseEngine }.setPromise ref
      (obj.setList rejected head (some engine.reactions.length))).Linked
      (fun other side => if other = ref ∧
        side = rejected then nodes other side ++ [engine.reactions.length]
        else nodes other side) := by
    constructor
    · intro other obj' ho side
      simp only [setPromise] at ho ⊢
      split_ifs at ho with heq
      · rw [← some.inj ho, PromiseObject.list_setList, heq]
        by_cases hside : side = rejected
        · rw [if_pos hside, if_pos ⟨rfl, hside⟩, hside]
          exact hlong
        · rw [if_neg hside, if_neg fun hboth => hside hboth.2]
          exact (hfr hf side fun hs => hside (congrArg Prod.snd hs)).1
      · rw [if_neg fun hboth => heq hboth.1]
        exact (hfr ho side fun hs => heq (congrArg Prod.fst hs)).1
    · intro other obj' ho hst side
      simp only [setPromise] at ho
      split_ifs at ho with hne
      · rw [← some.inj ho] at hst
        refine absurd ?_ hst
        rw [← hpend]
        cases rejected <;> rfl
      · rw [if_neg fun hboth => hne hboth.1]
        exact hlk.settled ho hst side
    · intro other ho side
      simp only [setPromise] at ho
      split_ifs at ho with hne
      rw [if_neg fun hboth => hne hboth.1]
      exact hlk.absent ho side
    · intro other other' side side' idx hi hi'
      split_ifs at hi with hs
      · split at hi'
        · next hs' => exact ⟨hs.1.trans hs'.1.symm, hs.2.trans hs'.2.symm⟩
        · rcases List.mem_append.mp hi with hi | hi
          · exact hlk.apart hi hi'
          · have := hlt hi'
            rw [List.mem_singleton.mp hi] at this
            exact absurd this (lt_irrefl _)
      · split at hi'
        · rcases List.mem_append.mp hi' with hi' | hi'
          · exact hlk.apart hi hi'
          · have := hlt hi
            rw [List.mem_singleton.mp hi'] at this
            exact absurd this (lt_irrefl _)
        · exact hlk.apart hi hi'
  refine ⟨⟨_, ha⟩, ?_, rfl⟩
  have hview := view_promises hf
  simp only [Promises.append, hview]
  simp only [view]
  congr 1
  funext other
  by_cases heq : other = ref
  · rw [if_pos heq, heq]
    have hnew : ({ engine with
          reactions := linkBehind setNext engine.reactions (obj.list rejected).2 reaction
          : PromiseEngine }.setPromise ref
        (obj.setList rejected head (some engine.reactions.length))).promises ref =
        some (obj.setList rejected head (some engine.reactions.length)) := if_pos rfl
    rw [hnew, map_some]
    congr 1
    have hwait := ha.waiting_eq hnew
    rw [viewOf]
    congr 1
    · cases rejected <;> rfl
    · cases rejected <;> rfl
    · funext side
      refine (hwait side).trans ?_
      by_cases hside : side = rejected
      · rw [if_pos hside, if_pos ⟨rfl, hside⟩, hside, hlk.waiting_eq hf]
        exact hchain.map_contents_linkBehind binding_setNext
      · rw [if_neg hside, if_neg fun hboth => hside hboth.2, hlk.waiting_eq hf]
        exact congrArg _ (hfr hf side fun hs => hside (congrArg Prod.snd hs)).2
  · simp only [setPromise, if_neg heq]
    cases ho : engine.promises other with
    | none => rfl
    | some obj' =>
      rw [map_some]
      congr 1
      rw [viewOf]
      congr 1
      funext side
      obtain ⟨hchained, hcont⟩ := hfr ho side fun hs => heq (congrArg Prod.fst hs)
      rw [reactionsFrom_eq hchained, reactionsFrom_eq (hlk.chained ho side), hcont]

end Operations

end PromiseEngine

end TachyonEngine.Vm
