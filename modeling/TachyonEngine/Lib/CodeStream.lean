import Mathlib.Data.List.Basic

/-!
# Self-delimiting code streams

A code stream of `len` cells is read by a partial decoder: at an offset it
yields an instruction, whose width gives the offset of the next one. `walk` is
the loop that every pass over such a stream runs, with a state of its own;
`Trace` lists the instructions a walk visits. A successful walk is a fold of its
body over the trace (`walk_eq_foldlM`), traces are unique (`Trace.unique`), and
inside a trace every instruction but the last is followed by another one
(`Trace.next_mem`).
-/

namespace TachyonEngine.Lib.CodeStream

open List

universe u v w

variable {ι : Type u} {ε : Type v} {σ : Type w}

/-- One pass over the stream: decode at the offset, run the body on the state,
continue behind the instruction. The fuel bounds the number of instructions;
`stuck` reports that it ran out inside the stream. -/
def walk (len : Nat) (decode : Nat → Except ε ι) (width : ι → Nat) (stuck : ε)
    (body : σ → Nat → ι → Except ε σ) : Nat → Nat → σ → Except ε σ
  | 0, off, st => if off < len then .error stuck else .ok st
  | fuel + 1, off, st =>
    if off < len then
      match decode off with
      | .error e => .error e
      | .ok instr =>
        match body st off instr with
        | .error e => .error e
        | .ok st' =>
          walk len decode width stuck body fuel (off + width instr) st'
    else .ok st

/-- The instructions from an offset to the end of the stream, with their
offsets. The decoder is the partial function that forgets its errors. -/
inductive Trace (len : Nat) (decode : Nat → Option ι) (width : ι → Nat) :
    Nat → List (Nat × ι) → Prop where
  | done {off : Nat} (hend : len ≤ off) : Trace len decode width off []
  | step {off : Nat} {instr : ι} {rest : List (Nat × ι)} (hin : off < len)
      (hdec : decode off = some instr)
      (hrest : Trace len decode width (off + width instr) rest) :
      Trace len decode width off ((off, instr) :: rest)

/-- A decoder without its error values. -/
def forgetErrors (decode : Nat → Except ε ι) (off : Nat) : Option ι := (decode off).toOption

variable {off : Nat}

variable {decode : Nat → Except ε ι} {instr : ι}

theorem forgetErrors_eq_some : forgetErrors decode off = some instr ↔ decode off = .ok instr := by
  unfold forgetErrors
  cases decode off with
  | error e | ok i => simp [Except.toOption]

/-- A body run over a list of visited instructions. -/
def foldBody (body : σ → Nat → ι → Except ε σ) : List (Nat × ι) → σ → Except ε σ
  | [], st => .ok st
  | (off, instr) :: rest, st =>
    match body st off instr with
    | .error e => .error e
    | .ok st' => foldBody body rest st'

variable {body : σ → Nat → ι → Except ε σ} {st : σ}

variable {len : Nat} {width : ι → Nat} {stuck : ε} {fuel : Nat} {res : σ}

/-- A successful walk visits a trace and folds its body over it. -/
theorem walk_eq_foldBody (h : walk len decode width stuck body fuel off st = .ok res) :
    ∃ trace, Trace len (forgetErrors decode) width off trace ∧
      foldBody body trace st = .ok res := by
  induction fuel generalizing off st with
  | zero =>
    simp only [walk] at h
    split_ifs at h with hend
    exact ⟨[], .done (Nat.le_of_not_lt hend), h⟩
  | succ fuel ih =>
    simp only [walk] at h
    split_ifs at h with hin
    · cases hd : decode off with
      | error e => rw [hd] at h; cases h
      | ok instr =>
        rw [hd] at h
        simp only at h
        cases hb : body st off instr with
        | error e => rw [hb] at h; cases h
        | ok st' =>
          rw [hb] at h
          obtain ⟨rest, hrest, hfold⟩ := ih h
          refine ⟨(off, instr) :: rest, .step hin (forgetErrors_eq_some.mpr hd) hrest, ?_⟩
          simp only [foldBody, hb]
          exact hfold
    · exact ⟨[], .done (Nat.le_of_not_lt hin), h⟩

/-- A walk fails with the error of its decoder or of its body, or because it is stuck. -/
theorem walk_error {err : ε} (h : walk len decode width stuck body fuel off st = .error err) :
    err = stuck ∨ (∃ place, decode place = .error err) ∨
      ∃ pre place instr, body pre place instr = .error err := by
  induction fuel generalizing off st with
  | zero =>
    simp only [walk] at h
    split at h
    · cases h
      exact .inl rfl
    · cases h
  | succ fuel ih =>
    simp only [walk] at h
    split at h
    · split at h
      · cases h
        exact .inr (.inl ⟨_, ‹_›⟩)
      · split at h
        · cases h
          exact .inr (.inr ⟨_, _, _, ‹_›⟩)
        · exact ih h
    · cases h

/-- A fold that succeeds has run its body over every visited instruction. -/
theorem foldBody_mem {instructions : List (Nat × ι)} (h : foldBody body instructions st = .ok res)
    (hmem : (off, instr) ∈ instructions) : ∃ pre post, body pre off instr = .ok post := by
  induction instructions generalizing st with
  | nil => cases hmem
  | cons ent rest ih =>
    simp only [foldBody] at h
    split at h
    · cases h
    next hhead =>
      rcases mem_cons.mp hmem with heq | hrest
      · cases heq
        exact ⟨_, _, hhead⟩
      · exact ih h hrest

namespace Trace

variable {len : Nat} {decode : Nat → Option ι} {width : ι → Nat}

variable {off : Nat}

/-- A stream has one trace from an offset. -/
theorem unique {t₁ t₂ : List (Nat × ι)} (h₁ : Trace len decode width off t₁)
    (h₂ : Trace len decode width off t₂) : t₁ = t₂ := by
  induction h₁ generalizing t₂ with
  | done hend =>
    cases h₂ with
    | done _ => rfl
    | step hin _ _ => exact absurd hin (Nat.not_lt.mpr hend)
  | step hin hdec _ ih =>
    cases h₂ with
    | done hend => exact absurd hin (Nat.not_lt.mpr hend)
    | step _ hdec' hrest' =>
      rw [hdec] at hdec'
      cases hdec'
      rw [ih hrest']

variable {start : Nat} {trace : List (Nat × ι)} {instr : ι}

section

variable (h : Trace len decode width start trace)

include h

section

variable (hmem : (off, instr) ∈ trace)

include hmem

/-- Every visited instruction is decoded at its offset, inside the stream. -/
theorem mem_facts : off < len ∧ decode off = some instr := by
  induction h with
  | done _ => cases hmem
  | step hin hdec _ ih =>
    rcases mem_cons.mp hmem with heq | hrest
    · cases heq
      exact ⟨hin, hdec⟩
    · exact ih hrest

omit hmem in
/-- A trace that begins inside the stream visits its first offset. -/
theorem start_mem (hin : start < len) : ∃ instr, (start, instr) ∈ trace := by
  cases h with
  | done hend => exact absurd hin (Nat.not_lt.mpr hend)
  | step _ _ _ => exact ⟨_, mem_cons_self⟩

/-- Behind a visited instruction stands another one, or it is the last. -/
theorem next_mem : (∃ next, (off + width instr, next) ∈ trace) ∨
      trace.getLast? = some (off, instr) := by
  induction h with
  | done _ => cases hmem
  | step hin hdec hrest ih =>
    rcases mem_cons.mp hmem with heq | hrest'
    · cases heq
      cases hrest with
      | done _ => exact .inr rfl
      | step _ _ _ => exact .inl ⟨_, mem_cons_of_mem _ mem_cons_self⟩
    · rcases ih hrest' with ⟨next, hn⟩ | hl
      · exact .inl ⟨next, mem_cons_of_mem _ hn⟩
      · refine .inr ?_
        rw [getLast?_cons, hl]
        rfl

/-- A trace starts at its offset. -/
theorem start_le : start ≤ off := by
  induction h with
  | done _ => cases hmem
  | step hin hdec _ ih =>
    rcases mem_cons.mp hmem with heq | hrest
    · cases heq
      exact Nat.le_refl _
    · exact Nat.le_trans (Nat.le_add_right _ _) (ih hrest)

/-- A visited instruction is not empty: behind an empty one the same trace would begin again. -/
theorem width_pos : 0 < width instr := by
  induction h with
  | done _ => cases hmem
  | @step start first rest hin hdec hrest ih =>
    rcases mem_cons.mp hmem with heq | hmem
    · cases heq
      apply Nat.pos_of_ne_zero
      intro hz
      rw [hz] at hrest
      have hs := congrArg length (hrest.unique (.step hin hdec (by rwa [hz])))
      simp only [length_cons] at hs
      omega
    · exact ih hmem

end

/-- The instructions of a trace stand in the order of their offsets. -/
theorem increasing : trace.Pairwise fun earlier later => earlier.1 < later.1 := by
  induction h with
  | done _ => exact .nil
  | step hin hdec hrest ih =>
    refine .cons ?_ ih
    rintro ⟨later, instr⟩ hlat
    have hpos := (Trace.step hin hdec hrest).width_pos mem_cons_self
    have hle := hrest.start_le hlat
    show _ < later
    omega

/-- Visited instructions do not overlap. -/
theorem disjoint {lower upper : Nat} {first second : ι} (hlower : (lower, first) ∈ trace)
    (hupper : (upper, second) ∈ trace) (hlt : lower < upper) : lower + width first ≤ upper := by
  induction h with
  | done _ => cases hlower
  | step hin hdec hrest ih =>
    rcases mem_cons.mp hlower with heq | hlowerRest
    · cases heq
      rcases mem_cons.mp hupper with heq | hupperRest
      · cases heq
        exact absurd hlt (Nat.lt_irrefl _)
      · exact hrest.start_le hupperRest
    · rcases mem_cons.mp hupper with heq | hupperRest
      · cases heq
        have hle := hrest.start_le hlowerRest
        omega
      · exact ih hlowerRest hupperRest

end

end Trace

end TachyonEngine.Lib.CodeStream
