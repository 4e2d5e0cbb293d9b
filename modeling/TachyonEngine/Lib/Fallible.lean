/-!
# Computations that fail

`Meets fails holds` says of a computation that its result, if it has one, satisfies `holds` and that
its error, if it ends in one, satisfies `fails`. A specification of a function is a statement of
this form, and `Meets.bind` composes them. `Delivers fails holds` is the same for a computation that
also passes a state on and keeps an invariant of it; `Yields holds` is this with nothing said of its
errors and of the state.
-/

namespace TachyonEngine.Lib

universe u v w

variable {ε : Type u} {α : Type v} {β : Type v}

def Meets {ε : Type u} {α : Type w} (fails : ε → Prop) (holds : α → Prop) : Except ε α → Prop
  | .error e => fails e
  | .ok a => holds a

namespace Meets

variable {fails : ε → Prop} {holds : α → Prop} {next : β → Prop} {first : Except ε α}

section

variable (h : Meets fails holds first)

include h

theorem bind {rest : α → Except ε β} (hrest : ∀ a, holds a → Meets fails next (rest a)) :
    Meets fails next (first >>= rest) := by
  cases first with
  | error e => exact h
  | ok a => exact hrest a h

theorem imp {weaker : α → Prop} (himp : ∀ a, holds a → weaker a) : Meets fails weaker first := by
  cases first with
  | error e => exact h
  | ok a => exact himp a h

theorem imp_error {weaker : ε → Prop} (himp : ∀ e, fails e → weaker e) :
    Meets weaker holds first := by
  cases first with
  | error e => exact himp e h
  | ok a => exact h

theorem of_ok {a : α} (ha : first = .ok a) : holds a := by
  rw [ha] at h
  exact h

end

end Meets

/-- Every result of a computation with a state satisfies `holds`. -/
def Yields {ε : Type u} {σ : Type v} {α : Type v} (holds : α → Prop)
    (run : StateT σ (Except ε) α) : Prop :=
  ∀ state, Meets (fun _ => True) (fun result => holds result.1) (run state)

namespace Yields

variable {σ : Type v} {holds : α → Prop} {next : β → Prop} {first : StateT σ (Except ε) α}

theorem pure {a : α} (h : holds a) : Yields holds (Pure.pure a : StateT σ (Except ε) α) :=
  fun _ => h

theorem throw (e : ε) : Yields holds (MonadExcept.throw e : StateT σ (Except ε) α) :=
  fun _ => trivial

theorem bind {rest : α → StateT σ (Except ε) β} (h : Yields holds first)
    (hrest : ∀ a, holds a → Yields next (rest a)) : Yields next (first >>= rest) :=
  fun st => Meets.bind (h st) fun res hres => hrest res.1 hres res.2

theorem of_ok (h : Yields holds first) {st st' : σ} {a : α}
    (ha : first st = .ok (a, st')) : holds a := (h st).of_ok ha

end Yields

/-- From a state that satisfies `keeps`, every result of a computation satisfies `holds`, every
error `fails`, and the state passed on `keeps` again. -/
def Delivers {ε : Type u} {σ : Type v} {α : Type v} (keeps : σ → Prop) (fails : ε → Prop)
    (holds : α → Prop) (run : StateT σ (Except ε) α) : Prop :=
  ∀ state, keeps state → Meets fails (fun result => holds result.1 ∧ keeps result.2) (run state)

namespace Delivers

variable {σ : Type v} {keeps : σ → Prop} {fails : ε → Prop} {holds : α → Prop} {next : β → Prop}
  {first : StateT σ (Except ε) α}

theorem pure {a : α} (h : holds a) :
    Delivers keeps fails holds (Pure.pure a : StateT σ (Except ε) α) :=
  fun _ hst => ⟨h, hst⟩

theorem throw {e : ε} (h : fails e) :
    Delivers keeps fails holds (MonadExcept.throw e : StateT σ (Except ε) α) :=
  fun _ _ => h

theorem bind {rest : α → StateT σ (Except ε) β} (h : Delivers keeps fails holds first)
    (hrest : ∀ a, holds a → Delivers keeps fails next (rest a)) :
    Delivers keeps fails next (first >>= rest) :=
  fun st hst => Meets.bind (h st hst) fun res hres => hrest res.1 hres.1 res.2 hres.2

section

variable (h : Delivers keeps fails holds first)

include h

theorem imp {weaker : α → Prop} (himp : ∀ a, holds a → weaker a) :
    Delivers keeps fails weaker first :=
  fun st hst => (h st hst).imp fun _ hres => ⟨himp _ hres.1, hres.2⟩

theorem imp_error {weaker : ε → Prop} (himp : ∀ e, fails e → weaker e) :
    Delivers keeps weaker holds first :=
  fun st hst => (h st hst).imp_error himp

/-- What is known of the errors and of the results, and what else is known of the results. -/
theorem and_yields {also : α → Prop} (hy : Yields also first) :
    Delivers keeps fails (fun a => holds a ∧ also a) first := by
  intro st hst
  have hf := h st hst
  have hh := hy st
  cases hrun : first st with
  | error e =>
    rw [hrun] at hf
    exact hf
  | ok res =>
    rw [hrun] at hf hh
    exact ⟨⟨hf.1, hh⟩, hf.2⟩

end

/-- What is known of the results and what is known of the errors. -/
theorem of_yields (hfails : Delivers keeps fails (fun _ => True) first)
    (hholds : Yields holds first) : Delivers keeps fails holds first :=
  (hfails.and_yields hholds).imp fun _ hboth => hboth.2

end Delivers

end TachyonEngine.Lib
