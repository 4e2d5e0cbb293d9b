import Mathlib

/-!
# Lists linked through an arena

Nodes that are never freed stand in one list, the arena, and each names the next one of its chain.
`Links arena start nodes` says that from `start` the nodes are met one after the other up to the
end. A chain is kept by what happens to other nodes, and a new node behind its last one makes it
longer.
-/

namespace TachyonEngine.Lib

open List

variable {ν : Type} {next : ν → Option Nat} {arena : List ν}

/-- The nodes of a chain, in order. -/
inductive Links (next : ν → Option Nat) (arena : List ν) : Option Nat → List Nat → Prop
  | done : Links next arena none []
  | node {index : Nat} {nodes : List Nat} {node : ν} (found : arena[index]? = some node)
      (rest : Links next arena (next node) nodes) : Links next arena (some index) (index :: nodes)

/-- Follows a chain, for at most as many nodes as there is fuel. -/
def followChain (next : ν → Option Nat) (arena : List ν) : Nat → Option Nat → Option (List ν)
  | _, none => some []
  | 0, some _ => none
  | fuel + 1, some index =>
    match arena[index]? with
    | none => none
    | some node => (followChain next arena fuel (next node)).map (node :: ·)

/-- The contents of nodes. -/
def contents (arena : List ν) (nodes : List Nat) : List ν := nodes.filterMap (arena[·]?)

namespace Links

variable {start : Option Nat} {nodes : List Nat}

section

variable (h : Links next arena start nodes)

include h

theorem lt_length : ∀ idx ∈ nodes, idx < arena.length := by
  induction h with
  | done => simp
  | node found rest ih =>
    intro other ho
    rcases mem_cons.mp ho with rfl | ho
    · exact (List.getElem?_eq_some_iff.mp found).1
    · exact ih other ho

theorem unique {others : List Nat} (hos : Links next arena start others) : nodes = others := by
  induction h generalizing others with
  | done =>
    cases hos
    rfl
  | node found rest ih =>
    cases hos with
    | node found' rest' =>
      rw [found] at found'
      cases found'
      rw [ih rest']

/-- From each node of a chain the rest of the chain is linked. -/
theorem suffix {front back : List Nat} {idx : Nat} (hsplit : nodes = front ++ idx :: back) :
    Links next arena (some idx) (idx :: back) := by
  induction h generalizing front with
  | done =>
    cases front with
    | nil | cons _ _ => cases hsplit
  | @node first rest node found hrest ih =>
    cases front with
    | nil =>
      injection hsplit with hfirst hback
      rw [← hfirst, ← hback]
      exact .node found hrest
    | cons _ front =>
      injection hsplit with _ hback
      exact ih hback

/-- A chain that ends meets no node twice. -/
theorem nodup : nodes.Nodup := by
  induction h with
  | done => exact nodup_nil
  | @node idx rest node found hrest ih =>
    refine nodup_cons.mpr ⟨?_, ih⟩
    intro hm
    obtain ⟨front, back, hsplit⟩ := append_of_mem hm
    have hshort := hrest.suffix hsplit
    have hlong : Links next arena (some idx) (idx :: rest) := .node found hrest
    have heq := hlong.unique hshort
    have hlen := congrArg length heq
    rw [hsplit] at hlen
    simp only [length_cons, length_append] at hlen
    omega

theorem length_le : nodes.length ≤ arena.length := by
  have hsub : nodes ⊆ range arena.length := fun idx hi =>
    mem_range.mpr (h.lt_length idx hi)
  have hle := (h.nodup.subperm hsub).length_le
  rwa [length_range] at hle

/-- Enough fuel meets the whole chain. -/
theorem followChain_eq {fuel : Nat} (hfuel : nodes.length ≤ fuel) :
    followChain next arena fuel start = some (contents arena nodes) := by
  induction h generalizing fuel with
  | done => cases fuel <;> rfl
  | node found rest ih =>
    cases fuel with
    | zero => simp at hfuel
    | succ fuel =>
      rw [followChain]
      simp only [found]
      rw [ih (by simpa using hfuel)]
      simp only [contents, filterMap_cons, found, Option.map_some]

/-- A chain stays where its nodes stay. -/
theorem frame {post : List ν} (hs : ∀ idx ∈ nodes, post[idx]? = arena[idx]?) :
    Links next post start nodes := by
  induction h with
  | done => exact .done
  | node found rest ih =>
    refine .node ?_ (ih fun idx hi => hs idx (mem_cons_of_mem _ hi))
    rw [hs _ mem_cons_self]
    exact found

end

end Links

/-! ## Lists with a first and a last node -/

/-- A chain with its first and its last node. -/
structure Chained (next : ν → Option Nat) (arena : List ν) (head tail : Option Nat)
    (nodes : List Nat) :
    Prop where
  links : Links next arena head nodes
  tail_eq : tail = nodes.getLast?

/-- The arena with a new node behind the last node of a chain. -/
def linkBehind (setNext : ν → Option Nat → ν) (arena : List ν) (tail : Option Nat) (node : ν) :
    List ν :=
  match tail with
  | none => arena ++ [node]
  | some last => (arena ++ [node]).modify last fun before => setNext before (some arena.length)

/-- A view that does not show the change of an element. -/
theorem map_modify_of_eq {β : Type} {view : ν → β} {change : ν → ν}
    (hv : ∀ node, view (change node) = view node) (nodes : List ν) (idx : Nat) :
    (nodes.modify idx change).map view = nodes.map view := by
  apply ext_getElem?
  intro other
  rw [getElem?_map, getElem?_map, getElem?_modify]
  cases nodes[other]? with
  | none => rfl
  | some found =>
    by_cases h : idx = other
    · simp [h, hv]
    · simp [h]

/-- The values of the arena with a new node. -/
theorem map_linkBehind {β : Type} {val : ν → β} {setNext : ν → Option Nat → ν}
    (hv : ∀ node link, val (setNext node link) = val node) (arena : List ν) (tail : Option Nat)
    (node : ν) : (linkBehind setNext arena tail node).map val = arena.map val ++ [val node] := by
  cases tail with
  | none => simp [linkBehind]
  | some last =>
    simp only [linkBehind]
    rw [map_modify_of_eq fun node => hv node _, map_append, map_singleton]

namespace Chained

variable {head tail : Option Nat} {nodes : List Nat} {setNext : ν → Option Nat → ν} {node : ν}

theorem empty : Chained next arena none none [] := ⟨.done, rfl⟩

/-- What is linked behind one chain does not change the other nodes. -/
theorem getElem_linkBehind {idx : Nat} (hlt : idx < arena.length)
    (hne : tail ≠ some idx) : (linkBehind setNext arena tail node)[idx]? = arena[idx]? := by
  simp only [Lib.linkBehind]
  split
  · rw [List.getElem?_append_left hlt]
  next last =>
    have hne' : last ≠ idx := fun h => hne (by rw [h])
    rw [getElem?_modify_ne _ _ hne', List.getElem?_append_left hlt]

/-- A new node makes a chain longer by this node. -/
theorem linkBehind (hset : ∀ node link, next (setNext node link) = link) (hn : next node = none)
    (h : Chained next arena head tail nodes) :
    Chained next (Lib.linkBehind setNext arena tail node)
      (if head.isNone then some arena.length else head) (some arena.length)
      (nodes ++ [arena.length]) := by
  obtain ⟨hlinks, rfl⟩ := h
  refine ⟨?_, by simp⟩
  have hnew : Links next (Lib.linkBehind setNext arena nodes.getLast? node) (some arena.length)
      [arena.length] := by
    have hf : (Lib.linkBehind setNext arena nodes.getLast? node)[arena.length]? = some node := by
      simp only [Lib.linkBehind]
      split
      · simp
      next last hl =>
        have hlt := hlinks.lt_length last (mem_of_getLast? hl)
        rw [getElem?_modify_ne _ _ (by omega)]
        simp
    refine .node hf ?_
    rw [hn]
    exact .done
  -- the chain up to its last node, by its links
  have hall : ∀ {start : Option Nat} {rest : List Nat}, Links next arena start rest →
      (∀ idx ∈ rest, nodes.getLast? = some idx → rest.getLast? = some idx) →
      (∀ idx ∈ rest, rest.getLast? = some idx → nodes.getLast? = some idx) →
      Links next (Lib.linkBehind setNext arena nodes.getLast? node)
        (if start.isNone then some arena.length else start) (rest ++ [arena.length]) := by
    intro start rest hrest
    induction hrest with
    | done => exact fun _ _ => hnew
    | @node idx rest found hf hlk ih =>
      intro honly hl
      have hlt : idx < arena.length := (List.getElem?_eq_some_iff.mp hf).1
      cases hcase : rest with
      | nil =>
        rw [hcase] at hl
        have htail : nodes.getLast? = some idx := hl idx (by simp) (by simp)
        have hlk' : (Lib.linkBehind setNext arena nodes.getLast? node)[idx]? =
            some (setNext found (some arena.length)) := by
          rw [htail]
          simp only [Lib.linkBehind]
          rw [getElem?_modify_eq, List.getElem?_append_left hlt, hf]
          rfl
        refine .node hlk' ?_
        rw [hset]
        exact hnew
      | cons second others =>
        have hne : nodes.getLast? ≠ some idx := by
          intro htail
          have hend := honly idx mem_cons_self htail
          have hdup := (Links.node hf hlk).nodup
          rw [hcase] at hend hdup
          exact (nodup_cons.mp hdup).1 (mem_of_getLast? hend)
        have hlast_eq : (idx :: rest).getLast? = rest.getLast? := by
          rw [hcase, getLast?_cons_cons]
        have hkept : (Lib.linkBehind setNext arena nodes.getLast? node)[idx]? = some found := by
          rw [getElem_linkBehind hlt hne]
          exact hf
        refine .node hkept ?_
        -- the chain behind the first node is not empty
        have hst : (next found).isNone = false := by
          cases hlink : next found with
          | none =>
            rw [hlink, hcase] at hlk
            cases hlk
          | some _ => rfl
        have hih := ih (fun other ho hend => by
            rw [← hlast_eq]
            exact honly other (mem_cons_of_mem _ ho) hend)
          (fun other ho hend => hl other (mem_cons_of_mem _ ho) (by
            rw [hlast_eq]
            exact hend))
        rw [hst, hcase] at hih
        simpa using hih
  exact hall hlinks (fun _ _ h => h) (fun _ _ h => h)

/-- The values of a chain behind which a node was linked. -/
theorem map_contents_linkBehind {β : Type} {val : ν → β}
    (hv : ∀ node link, val (setNext node link) = val node)
    (h : Chained next arena head tail nodes) :
    (contents (Lib.linkBehind setNext arena tail node) (nodes ++ [arena.length])).map val =
      (contents arena nodes).map val ++ [val node] := by
  have hold : ∀ idx < arena.length,
      ((Lib.linkBehind setNext arena tail node)[idx]?).map val = (arena[idx]?).map val := by
    intro idx hlt
    by_cases htail : tail = some idx
    · rw [htail]
      simp only [Lib.linkBehind]
      rw [getElem?_modify_eq, List.getElem?_append_left hlt]
      cases arena[idx]? with
      | none => rfl
      | some old => exact congrArg some (hv old (some arena.length))
    · rw [getElem_linkBehind hlt htail]
  have hnew : (Lib.linkBehind setNext arena tail node)[arena.length]? = some node := by
    rw [h.tail_eq]
    simp only [Lib.linkBehind]
    split
    · simp
    next last hl =>
      have hlt := h.links.lt_length last (mem_of_getLast? hl)
      rw [getElem?_modify_ne _ _ (by omega)]
      simp
  have hmap : ∀ (post : List ν) (indices : List Nat), (contents post indices).map val =
      indices.filterMap fun idx => (post[idx]?).map val :=
    fun post indices => map_filterMap ..
  rw [hmap, hmap, filterMap_append]
  congr 1
  · apply filterMap_congr
    intro idx hi
    exact hold idx (h.links.lt_length idx hi)
  · simp [hnew]

/-- A chain is not changed by what is linked behind another one. -/
theorem frame_linkBehind {other : Option Nat} (h : Chained next arena head tail nodes)
    (ho : ∀ last, other = some last → last ∉ nodes) :
    Chained next (Lib.linkBehind setNext arena other node) head tail nodes ∧
      contents (Lib.linkBehind setNext arena other node) nodes = contents arena nodes := by
  have hs : ∀ idx ∈ nodes, (Lib.linkBehind setNext arena other node)[idx]? = arena[idx]? := by
    intro idx hi
    apply getElem_linkBehind (h.links.lt_length idx hi)
    intro heq
    exact ho idx heq hi
  exact ⟨⟨h.links.frame hs, h.tail_eq⟩, filterMap_congr hs⟩

end Chained

end TachyonEngine.Lib
