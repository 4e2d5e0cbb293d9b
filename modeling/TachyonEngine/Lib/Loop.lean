import Mathlib.Order.WellFounded

/-!
# Loops

A loop is a step function that goes on with a state or finishes with a result. Nothing bounds the
number of rounds: `Returns` says that a loop finishes, and `run` computes with a number of rounds
given beforehand. A measure that every round lowers makes a loop return.
-/

namespace TachyonEngine.Lib.Loop

universe u v

variable {σ : Type u} {ρ : Type v}

/-- What one round comes to. -/
inductive Progress (σ : Type u) (ρ : Type v) where
  | running (st : σ)
  | finished (res : ρ)

variable {step : σ → Progress σ ρ} {st st' : σ} {res res' : ρ}

variable (step) in
/-- The loop finishes with the result. -/
inductive Returns : σ → ρ → Prop where
  | done {st : σ} {res : ρ} (hstep : step st = .finished res) : Returns st res
  | round {st next : σ} {res : ρ} (hstep : step st = .running next)
      (hrest : Returns next res) : Returns st res

variable (step) in
/-- A later state of the loop. -/
abbrev Reaches : σ → σ → Prop := Relation.ReflTransGen fun st next => step st = .running next

variable (step) in
/-- At most so many rounds. -/
def run : Nat → σ → Option ρ
  | 0, _ => none
  | rounds + 1, st =>
    match step st with
    | .finished res => some res
    | .running next => run rounds next

theorem Returns.of_reaches (hreaches : Reaches step st st') (h : Returns step st' res) :
    Returns step st res := by
  induction hreaches using Relation.ReflTransGen.head_induction_on with
  | refl => exact h
  | head hstep _ ih => exact .round hstep ih

/-- A loop has one result. -/
theorem Returns.unique (h : Returns step st res) (h' : Returns step st res') : res = res' := by
  induction h with
  | done hstep =>
    cases h' with
    | done hstep' =>
      rw [hstep] at hstep'
      exact Progress.finished.inj hstep'
    | round hstep' _ =>
      rw [hstep] at hstep'
      cases hstep'
  | round hstep _ ih =>
    cases h' with
    | done hstep' =>
      rw [hstep] at hstep'
      cases hstep'
    | round hstep' hrest' =>
      rw [hstep] at hstep'
      cases hstep'
      exact ih hrest'

theorem returns_of_run {rounds : Nat} (h : run step rounds st = some res) :
    Returns step st res := by
  induction rounds generalizing st with
  | zero => cases h
  | succ rounds ih =>
    rw [run] at h
    split at h
    next finished hstep =>
      cases h
      exact .done hstep
    next next hstep =>
      exact .round hstep (ih h)

theorem Returns.exists_run (h : Returns step st res) : ∃ rounds, run step rounds st = some res := by
  induction h with
  | done hstep => exact ⟨1, by rw [run, hstep]⟩
  | round hstep _ ih =>
    obtain ⟨rounds, hrun⟩ := ih
    exact ⟨rounds + 1, by rw [run, hstep]; exact hrun⟩

section Complete

variable {α : Type*} [WellFoundedRelation α]

/-- The result of a loop whose rounds lower a rank. -/
def complete (step : σ → Progress σ ρ) (rank : σ → α) (hrank : ∀ st next, step st = .running next →
      WellFoundedRelation.rel (rank next) (rank st)) (st : σ) : ρ :=
  match _hstep : step st with
  | .finished res => res
  | .running next => complete step rank hrank next
termination_by rank st
decreasing_by exact hrank _ _ ‹step st = _›

theorem returns_complete {rank : σ → α} (hrank : ∀ st next, step st = .running next →
      WellFoundedRelation.rel (rank next) (rank st)) (st : σ) :
    Returns step st (complete step rank hrank st) := by
  induction st using complete.induct step rank hrank with
  | case1 st res hstep =>
    rw [complete]
    split
    next other ho =>
      exact .done ho
    next next hn =>
      rw [hstep] at hn
      cases hn
  | case2 st next hstep ih =>
    rw [complete]
    split
    next res hres =>
      rw [hstep] at hres
      cases hres
    next other ho =>
      rw [hstep] at ho
      cases ho
      exact .round hstep ih

end Complete

end TachyonEngine.Lib.Loop
