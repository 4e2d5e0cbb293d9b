/-!
# Failures that keep the state

A computation of this kind changes a state and may fail, and a failure leaves the state as it was
when the failure happened. Nothing is rolled back, so a specification has to speak of the states
that failures leave as well. `Ends returns fails` does so for one start state, and the lemmas on it
run a computation step by step. `Keeps valid relates` is the special case of a relation between the
state before and the state after, however the computation ends.
-/

namespace TachyonEngine.Lib

/-- A computation that may fail after it has changed the state. -/
abbrev Attempt (σ ε α : Type) := ExceptT ε (StateM σ) α

variable {σ ε α β : Type}

namespace Attempt

/-- How a computation ends, and the state it leaves. -/
def outcome (run : Attempt σ ε α) (st : σ) : Except ε α × σ := StateT.run (ExceptT.run run) st

/-- The state a computation leaves. -/
def final (run : Attempt σ ε α) (st : σ) : σ := (run.outcome st).2

/-- The outcome satisfies one of two conditions, depending on how it came about. -/
def Ends (run : Attempt σ ε α) (returns : α → σ → Prop) (fails : ε → σ → Prop) (st : σ) : Prop :=
  match run.outcome st with
  | (.ok a, st') => returns a st'
  | (.error e, st') => fails e st'

section Rules

variable {returns : α → σ → Prop} {fails : ε → σ → Prop} {st : σ}

@[simp]
theorem ends_pure (a : α) :
    Ends (pure a : Attempt σ ε α) returns fails st ↔ returns a st := Iff.rfl

@[simp]
theorem ends_throw (e : ε) :
    Ends (throw e : Attempt σ ε α) returns fails st ↔ fails e st := Iff.rfl

@[simp]
theorem ends_get {returns : σ → σ → Prop} :
    Ends (get : Attempt σ ε σ) returns fails st ↔ returns st st := Iff.rfl

@[simp]
theorem ends_modify {returns : PUnit → σ → Prop} (f : σ → σ) :
    Ends (modify f : Attempt σ ε PUnit) returns fails st ↔ returns ⟨⟩ (f st) := Iff.rfl

@[simp]
theorem ends_bind {returns : β → σ → Prop} (first : Attempt σ ε α) (rest : α → Attempt σ ε β) :
    Ends (first >>= rest) returns fails st ↔
      Ends first (fun a => Ends (rest a) returns fails) fails st := by
  have hbind : outcome (first >>= rest) st =
      match first.outcome st with
      | (.ok a, st') => (rest a).outcome st'
      | (.error e, st') => (.error e, st') := by
    show (StateT.run (ExceptT.run (first >>= rest)) st) = _
    simp only [outcome]
    show (match (StateT.run (ExceptT.run first) st : Except ε α × σ) with
      | p => StateT.run (match p.1 with
          | .ok x => ExceptT.run (rest x)
          | .error e => pure (.error e)) p.2) = _
    rcases StateT.run (ExceptT.run first) st with ⟨_ | a, st'⟩
    · rfl
    · rfl
  simp only [Ends, hbind]
  rcases first.outcome st with ⟨_ | a, st'⟩
  · rfl
  · rfl

variable {returns' : α → σ → Prop} {fails' : ε → σ → Prop} {run : Attempt σ ε α}

theorem Ends.imp (h : run.Ends returns fails st) (hret : ∀ a st', returns a st' → returns' a st')
    (hfails : ∀ e st', fails e st' → fails' e st') : run.Ends returns' fails' st := by
  simp only [Ends] at h ⊢
  split at h
  · exact hret _ _ h
  · exact hfails _ _ h

theorem Ends.and (h : run.Ends returns fails st) (h' : run.Ends returns' fails' st) :
    run.Ends (fun a st' => returns a st' ∧ returns' a st')
      (fun e st' => fails e st' ∧ fails' e st') st := by
  simp only [Ends] at h h' ⊢
  generalize run.outcome st = res at h h' ⊢
  rcases res with ⟨_ | a, st'⟩
  · exact ⟨h, h'⟩
  · exact ⟨h, h'⟩

/-- What holds of both kinds of outcomes holds of the final state. -/
theorem Ends.final {holds : σ → Prop} (h : run.Ends (fun _ => holds) (fun _ => holds) st) :
    holds (run.final st) := by
  simp only [Ends] at h
  simp only [Attempt.final]
  split at h
  next heq =>
    rw [heq]
    exact h
  next heq =>
    rw [heq]
    exact h

end Rules

section Keeps

variable {valid : σ → Prop} {relates : σ → σ → Prop} {st : σ}

/-- However the computation ends, the state stays valid and the relation holds of the states before
and after. -/
def KeepsAt (valid : σ → Prop) (relates : σ → σ → Prop) (run : Attempt σ ε α) (st : σ) : Prop :=
  run.Ends (fun _ after => relates st after ∧ valid after)
    (fun _ after => relates st after ∧ valid after) st

/-- `KeepsAt` from every valid state. -/
def Keeps (valid : σ → Prop) (relates : σ → σ → Prop) (run : Attempt σ ε α) : Prop :=
  ∀ st, valid st → run.KeepsAt valid relates st

variable {run : Attempt σ ε α}

/-- `KeepsAt` from a relation that keeps the states valid. -/
theorem KeepsAt.of_ends {returns : α → σ → Prop} {fails : ε → σ → Prop} (hval : ∀ post, relates st
    post → valid post) (h : run.Ends returns fails st) (hret : ∀ a post, returns a post → relates st
    post) (hfails : ∀ e post, fails e post → relates st post) : run.KeepsAt valid relates st := by
  refine h.imp ?_ ?_
  · intro a post ha
    exact ⟨hret a post ha, hval post (hret a post ha)⟩
  · intro e post ha
    exact ⟨hfails e post ha, hval post (hfails e post ha)⟩

theorem KeepsAt.bind (htrans : ∀ a b c, relates a b → relates b c → relates a c)
    {first : Attempt σ ε α} {rest : α → Attempt σ ε β} (hfirst : first.KeepsAt valid relates st)
    (hrest : ∀ a, (rest a).Keeps valid relates) : (first >>= rest).KeepsAt valid relates st := by
  rw [KeepsAt, ends_bind]
  refine hfirst.imp ?_ (fun _ _ h => h)
  rintro a middle ⟨hmid, hval⟩
  refine (hrest a middle hval).imp ?_ ?_
  · rintro b post ⟨ha, hval⟩
    exact ⟨htrans _ _ _ hmid ha, hval⟩
  · rintro e post ⟨ha, hval⟩
    exact ⟨htrans _ _ _ hmid ha, hval⟩

theorem KeepsAt.final (h : run.KeepsAt valid relates st) :
    relates st (run.final st) ∧ valid (run.final st) :=
  Ends.final h

end Keeps

section Failures

variable {allowed : ε → Prop}

/-- Whatever the state, a failure is one of the allowed ones. -/
def FailsOnly (allowed : ε → Prop) (run : Attempt σ ε α) : Prop :=
  ∀ st, run.Ends (fun _ _ => True) (fun e _ => allowed e) st

theorem failsOnly_pure (a : α) : FailsOnly allowed (pure a : Attempt σ ε α) := fun _ => trivial

theorem failsOnly_throw {e : ε} (h : allowed e) : FailsOnly allowed (throw e : Attempt σ ε α) :=
  fun _ => h

theorem failsOnly_get : FailsOnly allowed (get : Attempt σ ε σ) := fun _ => trivial

theorem failsOnly_modify (f : σ → σ) : FailsOnly allowed (modify f : Attempt σ ε PUnit) :=
  fun _ => trivial

theorem FailsOnly.bind {first : Attempt σ ε α} {rest : α → Attempt σ ε β}
    (hfirst : first.FailsOnly allowed) (hrest : ∀ a, (rest a).FailsOnly allowed) :
    (first >>= rest).FailsOnly allowed := by
  intro st
  rw [ends_bind]
  exact (hfirst st).imp (fun a middle _ => hrest a middle) (fun _ _ h => h)

end Failures

end Attempt

end TachyonEngine.Lib
