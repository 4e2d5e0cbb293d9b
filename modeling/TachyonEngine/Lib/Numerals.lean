import Mathlib.Data.Nat.Digits.Lemmas

/-!
# Numerals

The digits of a number, the highest first. Without a zero in front there is one list of digits for
each number (`IsNumeral.eq_numeral`).
-/

namespace TachyonEngine.Lib

open List

variable {radix number : Nat} {digits : List Nat}

/-- The number that digits stand for, the highest first. -/
def digitsNumber (radix : Nat) (digits : List Nat) : Nat :=
  digits.foldl (fun number digit => number * radix + digit) 0

theorem digitsNumber_eq (radix : Nat) (digits : List Nat) :
    digitsNumber radix digits = Nat.ofDigits radix digits.reverse := by
  rw [Nat.ofDigits_eq_foldr, foldr_reverse, digitsNumber]
  congr 1
  funext number digit
  rw [Nat.cast_id, add_comm, mul_comm]

theorem digitsNumber_cons_zero (radix : Nat) (digits : List Nat) :
    digitsNumber radix (0 :: digits) = digitsNumber radix digits := by
  rw [digitsNumber, foldl_cons, Nat.zero_mul]
  rfl

theorem digitsNumber_append (radix : Nat) (left right : List Nat) :
    digitsNumber radix (left ++ right) =
      digitsNumber radix left * radix ^ right.length + digitsNumber radix right := by
  simp only [digitsNumber_eq, reverse_append, Nat.ofDigits_append, length_reverse]
  ring

/-- Digits of a number without a zero in front. -/
structure IsNumeral (radix number : Nat) (digits : List Nat) : Prop where
  nonempty : digits ≠ []
  digit_lt : ∀ digit ∈ digits, digit < radix
  leading : digits.head? = some 0 → digits = [0]
  denotes : digitsNumber radix digits = number

/-- The digits that repeated division gives. -/
def numeral (radix number : Nat) : List Nat :=
  if number = 0 then [0] else (Nat.digits radix number).reverse

theorem isNumeral_numeral (hradix : 1 < radix) (number : Nat) :
    IsNumeral radix number (numeral radix number) := by
  rw [numeral]
  split_ifs with hz
  · rw [hz]
    exact ⟨nofun, by simpa using Nat.zero_lt_of_lt hradix, fun _ => rfl,
      digitsNumber_cons_zero radix []⟩
  · have hne : Nat.digits radix number ≠ [] := Nat.digits_ne_nil_iff_ne_zero.mpr hz
    refine ⟨fun hnil => hne (reverse_eq_nil_iff.mp hnil), ?_, ?_, ?_⟩
    · intro digit hm
      exact Nat.digits_lt_base hradix (mem_reverse.mp hm)
    · intro hhead
      rw [head?_reverse, getLast?_eq_some_getLast hne] at hhead
      exact absurd (Option.some.inj hhead) (Nat.getLast_digit_ne_zero radix hz)
    · rw [digitsNumber_eq, reverse_reverse, Nat.ofDigits_digits]

/-- A number has one numeral. -/
theorem IsNumeral.eq_numeral (hradix : 1 < radix) (h : IsNumeral radix number digits) :
    digits = numeral radix number := by
  have hdenotes := h.denotes
  by_cases hhead : digits.head? = some 0
  · rw [h.leading hhead] at hdenotes ⊢
    rw [← hdenotes, digitsNumber_cons_zero]
    rfl
  · have hdg : Nat.digits radix (Nat.ofDigits radix digits.reverse) = digits.reverse := by
      refine Nat.digits_ofDigits radix hradix _ ?_ ?_
      · intro digit hm
        exact h.digit_lt digit (mem_reverse.mp hm)
      · intro hne hl
        apply hhead
        rw [← hl, ← getLast?_eq_some_getLast hne, getLast?_reverse]
    rw [← digitsNumber_eq, hdenotes] at hdg
    have hz : number ≠ 0 := by
      rintro rfl
      rw [Nat.digits_zero] at hdg
      exact h.nonempty (reverse_eq_nil_iff.mp hdg.symm)
    rw [numeral, if_neg hz, hdg, reverse_reverse]

end TachyonEngine.Lib
