import Mathlib.Data.List.DropRight

/-!
# Half-open intervals and stacks of nested ones

An interval is given by its ends. A stack of intervals, each properly inside the one below it, is
what nested scopes look like from one point of a program. Dropping scopes from the top until one
satisfies a test keeps exactly the ones that satisfy it when the test passes from an inner scope to
the outer ones (`mem_rdropWhile_iff`).
-/

namespace TachyonEngine.Lib

universe u

structure Interval where
  lo : Nat
  hi : Nat
  deriving DecidableEq

namespace Interval

def Contains (i : Interval) (x : Nat) : Prop := i.lo ≤ x ∧ x < i.hi

instance (i : Interval) (x : Nat) : Decidable (i.Contains x) := inferInstanceAs (Decidable (_ ∧ _))

def Within (inner outer : Interval) : Prop := outer.lo ≤ inner.lo ∧ inner.hi ≤ outer.hi

instance (inner outer : Interval) : Decidable (inner.Within outer) :=
  inferInstanceAs (Decidable (_ ∧ _))

/-- Properly inside. -/
def Inside (inner outer : Interval) : Prop := inner.Within outer ∧ inner ≠ outer

instance (inner outer : Interval) : Decidable (inner.Inside outer) :=
  inferInstanceAs (Decidable (_ ∧ _))

def Disjoint (left right : Interval) : Prop := left.hi ≤ right.lo ∨ right.hi ≤ left.lo

instance (left right : Interval) : Decidable (left.Disjoint right) :=
  inferInstanceAs (Decidable (_ ∨ _))

variable {i j k : Interval} {x : Nat}

theorem Within.contains (h : i.Within j) (hx : i.Contains x) : j.Contains x :=
  ⟨le_trans h.1 hx.1, lt_of_lt_of_le hx.2 h.2⟩

theorem Within.refl (i : Interval) : i.Within i := ⟨le_refl _, le_refl _⟩

theorem Within.trans (h : i.Within j) (h' : j.Within k) : i.Within k :=
  ⟨le_trans h'.1 h.1, le_trans h.2 h'.2⟩

theorem Within.antisymm (h : i.Within j) (h' : j.Within i) : i = j := by
  cases i
  cases j
  simp only [Within] at h h'
  simp only [mk.injEq]
  omega

theorem Inside.trans_within (h : i.Inside j) (h' : j.Within k) : i.Inside k := by
  refine ⟨h.1.trans h', ?_⟩
  rintro rfl
  exact h.2 (h.1.antisymm h')

theorem Disjoint.not_contains (h : i.Disjoint j) (hx : i.Contains x) : ¬j.Contains x := by
  intro hj
  simp only [Disjoint, Contains] at h hx hj
  omega

end Interval

/-- Dropping from the top keeps what passes the test, when the test passes outwards. -/
theorem mem_rdropWhile_iff {α : Type u} {test : α → Bool} {scopes : List α}
    (houter : scopes.Pairwise fun outer inner => test inner = true → test outer = true)
    {scope : α} :
    scope ∈ scopes.rdropWhile (fun s => !test s) ↔ scope ∈ scopes ∧ test scope = true := by
  induction scopes using List.reverseRecOn with
  | nil => simp
  | append_singleton rest top ih =>
    obtain ⟨hrest, -, htop⟩ := List.pairwise_append.mp houter
    by_cases hpass : test top = true
    · rw [List.rdropWhile_concat_neg _ _ _ (by simp [hpass])]
      constructor
      · intro hm
        refine ⟨hm, ?_⟩
        rcases List.mem_append.mp hm with hm | hm
        · exact htop scope hm top (List.mem_singleton.mpr rfl) hpass
        · obtain rfl := List.mem_singleton.mp hm
          exact hpass
      · rintro ⟨hm, -⟩
        exact hm
    · rw [List.rdropWhile_concat_pos _ _ _ (by simp [hpass]), ih hrest]
      constructor
      · rintro ⟨hm, hscope⟩
        exact ⟨List.mem_append.mpr (.inl hm), hscope⟩
      · rintro ⟨hm, hscope⟩
        rcases List.mem_append.mp hm with hm | hm
        · exact ⟨hm, hscope⟩
        · obtain rfl := List.mem_singleton.mp hm
          exact absurd hscope hpass

end TachyonEngine.Lib
