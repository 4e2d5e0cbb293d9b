import TachyonEngine.Vm.BigIntArithmetic
import TachyonEngine.Vm.ExactSum

/-!
# One addition to the exact accumulator

The words in use stand for a signed integer. An addition of a significand changes this integer by
the significand at its place, as long as the sum has a place in thirty-four words.
-/

namespace TachyonEngine.Vm

open Lib List Option
open BigIntValue (signed)

/-! ## Carries -/

/-- The number of a sign bit. -/
def ofSign (negative : Bool) : UInt64 := if negative then 1 else 0

theorem toNat_ofSign (neg : Bool) : (ofSign neg).toNat = neg.toNat := by
  cases neg <;> rfl

/-- The words of a negative operand are those of the magnitude, each taken from the largest word. -/
theorem toNat_xor_sign (word : UInt64) (neg : Bool) : ((word ^^^ (0 - ofSign neg)).toNat : Int) =
      signed neg word.toNat + neg.toNat * (2 ^ 64 - 1) := by
  have hlt := word.toNat_lt
  cases neg with
  | false => simp [ofSign, signed]
  | true =>
    have hnot : word ^^^ (0 - ofSign true) = ~~~word := by
      rw [show (0 - ofSign true : UInt64) = -1 by decide, UInt64.xor_neg_one]
    rw [hnot, signed, if_pos rfl, UInt64.toNat_not]
    simp only [Bool.toNat_true, UInt64.size]
    omega

theorem addWithCarry_spec (left right carry : UInt64) (hcarry : carry.toNat ≤ 1) :
    (addWithCarry left right carry).1.toNat + 2 ^ 64 * (addWithCarry left right carry).2.toNat =
        left.toNat + right.toNat + carry.toNat ∧ (addWithCarry left right carry).2.toNat ≤ 1 := by
  have hl := left.toNat_lt
  have hr := right.toNat_lt
  simp only [addWithCarry, UInt64.toNat_add]
  split
  · rw [UInt64.toNat_one]
    omega
  · rw [UInt64.toNat_zero]
    omega

/-- The carry behind the higher words, which an addition that ends early has left at the sign. -/
def carryOf (negative : Bool) (carry : Option UInt64) : Int := (carry.getD (ofSign negative)).toNat

variable {carry : UInt64}

theorem propagateSign_spec (neg : Bool) (limbs : List UInt64) (hcarry : carry.toNat ≤ 1) :
    let higher := propagateSign (ofSign neg) (0 - ofSign neg) limbs carry
    (limbsValue higher.1 : Int) + 2 ^ (64 * limbs.length) * carryOf neg higher.2 =
        limbsValue limbs + carry.toNat + neg.toNat * (2 ^ (64 * limbs.length) - 1) ∧
      higher.1.length = limbs.length ∧ 0 ≤ carryOf neg higher.2 ∧ carryOf neg higher.2 ≤ 1 := by
  induction limbs generalizing carry with
  | nil =>
    simp only [propagateSign, carryOf, getD_some]
    refine ⟨by simp, trivial, by omega, by omega⟩
  | cons limb rest ih =>
    simp only [propagateSign]
    split_ifs with heq
    · have hsign := toNat_ofSign neg
      refine ⟨?_, rfl, ?_⟩
      · simp only [carryOf, getD_none]
        rw [heq, hsign]
        ring
      · simp only [carryOf, getD_none, hsign]
        cases neg <;> simp
    · have hsum := addWithCarry_spec limb (0 - ofSign neg) carry hcarry
      obtain ⟨hv, hlen, hbounds⟩ := ih hsum.2
      refine ⟨?_, by rw [length_cons, hlen, length_cons], hbounds⟩
      have hword := toNat_xor_sign 0 neg
      rw [UInt64.zero_xor, UInt64.toNat_zero] at hword
      have hfirst : ((addWithCarry limb (0 - ofSign neg) carry).1.toNat : Int) +
          2 ^ 64 * ((addWithCarry limb (0 - ofSign neg) carry).2.toNat : Int) =
            limb.toNat + (0 - ofSign neg).toNat + carry.toNat := by
        exact_mod_cast hsum.1
      have hpow : (2 : Int) ^ (64 * (limb :: rest).length) = 2 ^ 64 * 2 ^ (64 * rest.length) := by
        rw [length_cons, ← pow_add]
        congr 1
        omega
      rw [hpow]
      simp only [limbsValue_cons]
      push_cast
      rw [hword, show signed neg 0 = 0 by cases neg <;> rfl] at hfirst
      linear_combination hfirst + 2 ^ 64 * hv

/-- An addition that ends early leaves the highest word. -/
theorem propagateSign_none {neg operandSign : UInt64} {limbs : List UInt64} (h : (propagateSign neg
    operandSign limbs carry).2 = none) :
    limbs ≠ [] ∧ (propagateSign neg operandSign limbs carry).1.getLast? = limbs.getLast? := by
  induction limbs generalizing carry with
  | nil => cases h
  | cons limb rest ih =>
    refine ⟨nofun, ?_⟩
    simp only [propagateSign] at h ⊢
    split at h
    · next heq => rw [if_pos heq]
    next hne =>
      rw [if_neg hne]
      obtain ⟨hrest, hl⟩ := ih h
      show (_ :: _).getLast? = (_ :: _).getLast?
      rw [getLast?_cons, getLast?_cons, hl, getLast?_eq_some_getLast hrest]
      rfl

/-! ## The words of the operand -/

variable {shift : Nat}

/-- The low word of a shifted significand. -/
theorem toNat_lowWord (significand : UInt64) (hshift : shift < 64) :
    (significand <<< UInt64.ofNat shift).toNat = significand.toNat * 2 ^ shift % 2 ^ 64 := by
  have hmod : shift % 2 ^ 64 % 64 = shift := by omega
  rw [UInt64.toNat_shiftLeft, UInt64.toNat_ofNat', hmod, Nat.shiftLeft_eq]

/-- The high word of a shifted significand. -/
theorem toNat_highWord (significand : UInt64) (hpos : 0 < shift) (hshift : shift < 64) :
    (significand >>> UInt64.ofNat (64 - shift)).toNat = significand.toNat * 2 ^ shift / 2 ^ 64 := by
  have hmod : (64 - shift) % 2 ^ 64 % 64 = 64 - shift := by omega
  have hsplit : 2 ^ 64 = 2 ^ (64 - shift) * 2 ^ shift := by
    rw [← pow_add]
    congr 1
    omega
  rw [UInt64.toNat_shiftRight, UInt64.toNat_ofNat', hmod, Nat.shiftRight_eq_div_pow, hsplit,
    Nat.mul_div_mul_right _ _ (Nat.two_pow_pos shift)]

/-- A significand of 53 bits has one word below a shift of twelve. -/
theorem toNat_onlyWord {significand : UInt64} (hsig : significand.toNat < 2 ^ 53) (hshift : shift <
    12) : (significand <<< UInt64.ofNat shift).toNat = significand.toNat * 2 ^ shift := by
  rw [toNat_lowWord significand (by omega), Nat.mod_eq_of_lt]
  calc significand.toNat * 2 ^ shift < 2 ^ 53 * 2 ^ shift :=
        mul_lt_mul_of_pos_right hsig (Nat.two_pow_pos shift)
    _ = 2 ^ (53 + shift) := (pow_add 2 53 shift).symm
    _ ≤ 2 ^ 64 := Nat.pow_le_pow_right (by decide) (by omega)

theorem signed_words (neg : Bool) (n : Nat) :
    signed neg (n % 2 ^ 64) + 2 ^ 64 * signed neg (n / 2 ^ 64) = signed neg n := by
  have hdecompose := Nat.mod_add_div n (2 ^ 64)
  generalize n % 2 ^ 64 = low at *
  cases neg with
  | false =>
    simp only [signed, Bool.false_eq_true, if_false]
    omega
  | true =>
    simp only [signed, if_true]
    omega

/-- What an addition makes of the words from its position on. -/
structure WordsAdded (negative : Bool) (before : List UInt64) (operand : Int) (after : List UInt64)
    (carry : Option UInt64) : Prop where
  length : after.length = before.length
  value : (limbsValue after : Int) + 2 ^ (64 * before.length) * carryOf negative carry =
    limbsValue before + operand + negative.toNat * 2 ^ (64 * before.length)
  nonneg : 0 ≤ carryOf negative carry
  le_one : carryOf negative carry ≤ 1
  last : carry = none → after.getLast? = before.getLast?

namespace ExactSumAccumulator

variable {significand : UInt64} {shift : Nat}

theorem addWords_oneWord (neg : Bool) (fill : UInt64) (hsig : significand.toNat < 2 ^ 53) (hshift :
    shift < 12) (limb : UInt64) (high : List UInt64) (pos : Nat) :
    ∃ post carry, addWords (ofSign neg) (0 - ofSign neg) fill significand shift
        (limb :: high) pos = some (post, carry) ∧
      WordsAdded neg (limb :: high) (signed neg (significand.toNat * 2 ^ shift)) post carry := by
  have hsign := toNat_ofSign neg
  have hfirst := addWithCarry_spec limb
    ((significand <<< UInt64.ofNat shift) ^^^ (0 - ofSign neg)) (ofSign neg)
    (by cases neg <;> decide)
  rw [addWords, if_neg (by omega)]
  generalize addWithCarry limb ((significand <<< UInt64.ofNat shift) ^^^ (0 - ofSign neg))
    (ofSign neg) = first at *
  obtain ⟨hv, hlen, hbounds⟩ := propagateSign_spec neg high hfirst.2
  refine ⟨_, _, rfl, by rw [length_cons, hlen, length_cons], ?_, hbounds.1, hbounds.2, ?_⟩
  · have hword := toNat_xor_sign (significand <<< UInt64.ofNat shift) neg
    rw [toNat_onlyWord hsig hshift] at hword
    have hsum : (first.1.toNat : Int) + 2 ^ 64 * first.2.toNat =
        limb.toNat + ((significand <<< UInt64.ofNat shift) ^^^ (0 - ofSign neg)).toNat +
          neg.toNat := by
      rw [← hsign]
      exact_mod_cast hfirst.1
    have hpow : (2 : Int) ^ (64 * (limb :: high).length) = 2 ^ 64 * 2 ^ (64 * high.length) := by
      rw [length_cons, ← pow_add]
      congr 1
      omega
    rw [hpow]
    simp only [limbsValue_cons]
    push_cast
    rw [hword] at hsum
    linear_combination hsum + 2 ^ 64 * hv
  · intro hn
    obtain ⟨hne, hl⟩ := propagateSign_none hn
    rw [getLast?_cons, getLast?_cons, hl, getLast?_eq_some_getLast hne]
    rfl

variable {pos : Nat}

theorem addWords_twoWords (neg : Bool) (fill : UInt64) (significand : UInt64) (hlow : 12 ≤ shift)
    (hshift : shift < 64) (limb : UInt64) {high : List UInt64} {next : UInt64} {rest : List UInt64}
    (hnx : nextWord fill pos high = some (next, rest)) :
    ∃ post carry, addWords (ofSign neg) (0 - ofSign neg) fill significand shift
        (limb :: high) pos = some (post, carry) ∧
      WordsAdded neg (limb :: next :: rest) (signed neg (significand.toNat * 2 ^ shift))
        post carry := by
  have hsign := toNat_ofSign neg
  have hfirst := addWithCarry_spec limb
    ((significand <<< UInt64.ofNat shift) ^^^ (0 - ofSign neg)) (ofSign neg)
    (by cases neg <;> decide)
  rw [addWords, if_pos hlow, hnx]
  simp only
  generalize addWithCarry limb ((significand <<< UInt64.ofNat shift) ^^^ (0 - ofSign neg))
    (ofSign neg) = first at *
  have hsec := addWithCarry_spec next
    ((significand >>> UInt64.ofNat (64 - shift)) ^^^ (0 - ofSign neg)) first.2 hfirst.2
  generalize addWithCarry next ((significand >>> UInt64.ofNat (64 - shift)) ^^^ (0 - ofSign neg))
    first.2 = second at *
  obtain ⟨hv, hlen, hbounds⟩ := propagateSign_spec neg rest hsec.2
  refine ⟨_, _, rfl, by simp only [length_cons, hlen], ?_, hbounds.1, hbounds.2, ?_⟩
  · have hword := toNat_xor_sign (significand <<< UInt64.ofNat shift) neg
    have hword' := toNat_xor_sign (significand >>> UInt64.ofNat (64 - shift)) neg
    rw [toNat_lowWord significand hshift] at hword
    rw [toNat_highWord significand (by omega) hshift] at hword'
    have hwords := signed_words neg (significand.toNat * 2 ^ shift)
    have hsum : (first.1.toNat : Int) + 2 ^ 64 * first.2.toNat =
        limb.toNat + ((significand <<< UInt64.ofNat shift) ^^^ (0 - ofSign neg)).toNat +
          neg.toNat := by
      rw [← hsign]
      exact_mod_cast hfirst.1
    have hsum' : (second.1.toNat : Int) + 2 ^ 64 * second.2.toNat =
        next.toNat + ((significand >>> UInt64.ofNat (64 - shift)) ^^^ (0 - ofSign neg)).toNat +
          first.2.toNat := by
      exact_mod_cast hsec.1
    have hpow : (2 : Int) ^ (64 * (limb :: next :: rest).length) =
        2 ^ 64 * (2 ^ 64 * 2 ^ (64 * rest.length)) := by
      rw [length_cons, length_cons, ← pow_add, ← pow_add]
      congr 1
      omega
    rw [hpow]
    simp only [limbsValue_cons]
    push_cast
    rw [hword] at hsum
    rw [hword'] at hsum'
    linear_combination hsum + 2 ^ 64 * hsum' + 2 ^ 64 * 2 ^ 64 * hv + hwords
  · intro hn
    obtain ⟨hne, hl⟩ := propagateSign_none hn
    simp only [getLast?_cons, hl, getLast?_eq_some_getLast hne]
    rfl

/-! ## Signs -/

section Signs

variable {limbs : List UInt64}

theorem signBit_append (limbs : List UInt64) (word : UInt64) :
    signBit (limbs ++ [word]) = word >>> 63 := by
  rw [signBit, getLast?_concat, getD_some]

theorem signedWord_eq (word : UInt64) :
    signedWord word = word.toNat - 2 ^ 64 * ((word >>> 63).toNat : Int) := by
  have hlt := word.toNat_lt
  have hshift : (word >>> 63).toNat = word.toNat / 2 ^ 63 := by
    rw [UInt64.toNat_shiftRight, Nat.shiftRight_eq_div_pow]
    rfl
  rw [hshift, signedWord]
  split
  · omega
  · omega

theorem signBit_cases (limbs : List UInt64) : signBit limbs = 0 ∨ signBit limbs = 1 := by
  rw [signBit]
  generalize limbs.getLast?.getD 0 = word
  have hle := shiftRight_le_one word
  have hcases : (word >>> 63).toNat = 0 ∨ (word >>> 63).toNat = 1 := by omega
  rcases hcases with h | h
  · exact .inl (UInt64.toNat_inj.mp h)
  · exact .inr (UInt64.toNat_inj.mp h)

/-- The words in two's complement are their number, less the range when the sign is set. -/
theorem signedValue_signBit (hne : limbs ≠ []) :
    signedValue limbs = limbsValue limbs - 2 ^ (64 * limbs.length) * ((signBit limbs).toNat :
    Int) := by
  rcases eq_nil_or_concat limbs with rfl | ⟨rest, word, rfl⟩
  · exact absurd rfl hne
  · have hpow : (2 : Int) ^ (64 * (rest ++ [word]).length) = 2 ^ (64 * rest.length) * 2 ^ 64 := by
      rw [length_append, ← pow_add]
      congr 1
    rw [concat_eq_append, signedValue_append_word, signBit_append, signedWord_eq, hpow,
      limbsValue_append, limbBase_pow, limbsValue_cons, limbsValue_nil]
    push_cast
    ring

/-- The word that continues the sign. -/
theorem signedWord_fill (limbs : List UInt64) :
    signedWord (0 - signBit limbs) = -((signBit limbs).toNat : Int) ∧
      (0 - signBit limbs) >>> 63 = signBit limbs := by
  rcases signBit_cases limbs with h | h
  · rw [h]
    decide
  · rw [h]
    decide

/-- Words that continue the sign leave the number. -/
theorem signedValue_extended (hne : limbs ≠ []) (cnt : Nat) :
    signedValue (limbs ++ List.replicate cnt (0 - signBit limbs)) = signedValue limbs ∧
      signBit (limbs ++ List.replicate cnt (0 - signBit limbs)) = signBit limbs := by
  induction cnt with
  | zero => simp
  | succ cnt ih =>
    obtain ⟨hv, hsign⟩ := ih
    have hne' : limbs ++ replicate cnt (0 - signBit limbs) ≠ [] := by simp [hne]
    obtain ⟨hfill, hbit⟩ := signedWord_fill limbs
    rw [replicate_succ', ← append_assoc, signedValue_append_word, signBit_append, hfill, hbit]
    rw [signedValue_signBit hne', hsign] at hv
    exact ⟨by rw [← hv]; ring, rfl⟩

variable {length : Nat}

theorem extendTo_eq_some {extended : List UInt64} {fill : UInt64} (h : extendTo limbs length fill =
    some extended) :
    extended = limbs ++ List.replicate (length - limbs.length) fill ∧
      (limbs.length ≤ exactSumLimbs → extended.length ≤ exactSumLimbs) := by
  rw [extendTo] at h
  split at h
  next hle =>
    rw [Nat.sub_eq_zero_of_le hle, replicate_zero, append_nil]
    exact ⟨(some.inj h).symm, fun hroom => by rw [← some.inj h]; exact hroom⟩
  · split at h
    · refine ⟨(some.inj h).symm, fun _ => ?_⟩
      rw [← some.inj h, length_append, length_replicate]
      omega
    · cases h

theorem extendTo_isSome (fill : UInt64) (h : length ≤ exactSumLimbs) :
    ∃ extended, extendTo limbs length fill = some extended := by
  rw [extendTo]
  split
  · exact ⟨_, rfl⟩
  · exact ⟨_, rfl⟩

/-- The word of a carry beyond the words in use. -/
theorem signedWord_extension (neg : Bool) {carry sign : UInt64} (hcarry : carry.toNat ≤ 1)
    (hsign : sign = 0 ∨ sign = 1) : signedWord (carry + (0 - sign) + (0 - ofSign neg)) =
      carry.toNat - sign.toNat - neg.toNat := by
  have hcases : carry = 0 ∨ carry = 1 := by
    have h : carry.toNat = 0 ∨ carry.toNat = 1 := by omega
    rcases h with h | h
    · exact .inl (UInt64.toNat_inj.mp h)
    · exact .inr (UInt64.toNat_inj.mp h)
  rcases hcases with rfl | rfl
  · rcases hsign with rfl | rfl
    · cases neg <;> decide
    · cases neg <;> decide
  · rcases hsign with rfl | rfl
    · cases neg <;> decide
    · cases neg <;> decide

theorem signedWord_injective {a b : UInt64} (h : signedWord a = signedWord b) : a = b := by
  have ha := a.toNat_lt
  have hb := b.toNat_lt
  apply UInt64.toNat_inj.mp
  simp only [signedWord] at h
  split at h
  · split at h
    · omega
    · omega
  · split at h
    · omega
    · omega

end Signs

/-! ## One significand -/

/-- Some words are in use, and not more than there is room for. -/
structure Sound (acc : ExactSumAccumulator) : Prop where
  nonempty : acc.limbs ≠ []
  room : acc.limbs.length ≤ exactSumLimbs

/-- The sums that have a place in the words of the accumulator. -/
def HasPlace (sum : Int) : Prop :=
  -(2 : Int) ^ (64 * exactSumLimbs - 1) ≤ sum ∧ sum < 2 ^ (64 * exactSumLimbs - 1)

variable {acc : ExactSumAccumulator}

theorem Sound.hasPlace (h : acc.Sound) : HasPlace (signedValue acc.limbs) := by
  obtain ⟨hlow, hhigh⟩ := signedValue_range h.nonempty
  have hpow : (2 : Int) ^ (64 * acc.limbs.length - 1) ≤ 2 ^ (64 * exactSumLimbs - 1) :=
    pow_le_pow_right₀ (by decide) (by have := h.room; omega)
  exact ⟨by omega, by omega⟩

/-- An addition leaves the sum in the words, where the sum has a place, and no accumulator
elsewhere. -/
def Accumulates (before : List UInt64) (operand : Int) : Option ExactSumAccumulator → Prop
  | some acc => acc.Sound ∧ acc.state = .finite ∧
      signedValue acc.limbs = signedValue before + operand
  | none => ¬ HasPlace (signedValue before + operand)

/-- What an addition does behind its words: it keeps them, or adds the word of the carry. -/
def finishWords (limbs : List UInt64) (fill operandSign : UInt64) :
    Option UInt64 → Option ExactSumAccumulator
  | none => some { limbs, state := .finite }
  | some carry =>
    let extension := carry + fill + operandSign
    if extension ≠ 0 - signBit limbs then
      if limbs.length < exactSumLimbs then some { limbs := limbs ++ [extension], state := .finite }
      else none
    else some { limbs, state := .finite }

theorem accumulates_finishWords {pre low here post : List UInt64} {neg : Bool}
    {operand : Int} {carry : Option UInt64} (hne : here ≠ [])
    (hv : signedValue (low ++ here) = signedValue pre)
    (hroom : (low ++ here).length ≤ exactSumLimbs)
    (hadded : WordsAdded neg here operand post carry) :
    Accumulates pre (2 ^ (64 * low.length) * operand)
      (finishWords (low ++ post) (0 - signBit (low ++ here)) (0 - ofSign neg) carry) := by
  have hlen : (low ++ post).length = (low ++ here).length := by
    rw [length_append, length_append, hadded.length]
  have ha : post ≠ [] := by
    intro hnil
    have h := hadded.length
    rw [hnil] at h
    exact hne (eq_nil_of_length_eq_zero h.symm)
  have hne' : low ++ here ≠ [] := by simp [hne]
  have ha' : low ++ post ≠ [] := by simp [ha]
  -- the sum, in the words and in what the carry and the signs leave beyond them
  have hsum : signedValue pre + 2 ^ (64 * low.length) * operand =
      limbsValue (low ++ post) + (carryOf neg carry - (signBit (low ++ here)).toNat -
        neg.toNat) * 2 ^ (64 * (low ++ post).length) := by
    have hpow : (2 : Int) ^ (64 * (low ++ here).length) = 2 ^ (64 * low.length) * 2 ^
        (64 * here.length) := by
      rw [length_append, ← pow_add]
      congr 1
      omega
    rw [← hv, signedValue_signBit hne', hlen, hpow, limbsValue_append, limbsValue_append,
      limbBase_pow]
    push_cast
    linear_combination -(2 ^ (64 * low.length)) * hadded.value
  have hsound : ExactSumAccumulator.Sound ⟨low ++ post, .finite⟩ := ⟨ha', by rw [hlen]; exact hroom⟩
  cases carry with
  | none =>
    refine ⟨hsound, rfl, ?_⟩
    have hl : (low ++ post).getLast? = (low ++ here).getLast? := by
      rw [List.getLast?_append, List.getLast?_append, hadded.last rfl]
    have hsign : signBit (low ++ post) = signBit (low ++ here) := by
      rw [signBit, signBit, hl]
    have hcarry : carryOf neg none = neg.toNat := by
      rw [carryOf, getD_none, toNat_ofSign]
    rw [hsum, signedValue_signBit ha', hsign, hcarry]
    ring
  | some carry =>
    have hcarry : carryOf neg (some carry) = carry.toNat := by
      rw [carryOf, getD_some]
    have hle := hadded.le_one
    rw [hcarry] at hle hsum
    have hextension := signedWord_extension neg (by omega : carry.toNat ≤ 1)
      (signBit_cases (low ++ here))
    rw [← hextension] at hsum
    simp only [finishWords]
    split
    next hmore =>
      split_ifs with hfits
      · refine ⟨⟨by simp, by rw [length_append]; exact hfits⟩, rfl, ?_⟩
        rw [signedValue_append_word, hsum]
        ring
      · rintro ⟨hlow, hhigh⟩
        have hexact : (low ++ post).length = exactSumLimbs := by omega
        rw [← hexact] at hlow hhigh
        have hplace := signedValue_eq_of_range ha' _ hsum hlow hhigh
        rw [signedValue_signBit ha', hsum] at hplace
        have hpos : (0 : Int) < 2 ^ (64 * (low ++ post).length) := by positivity
        have hs : signedWord (carry + (0 - signBit (low ++ here)) + (0 - ofSign neg)) =
            -((signBit (low ++ post)).toNat : Int) := by
          have hz : (signedWord (carry + (0 - signBit (low ++ here)) + (0 - ofSign neg)) +
              (signBit (low ++ post)).toNat) * 2 ^ (64 * (low ++ post).length) = 0 := by
            linear_combination -hplace
          rcases mul_eq_zero.mp hz with h | h
          · omega
          · exact absurd h hpos.ne'
        rw [← (signedWord_fill (low ++ post)).1] at hs
        exact hmore (signedWord_injective hs)
    next hs =>
      refine ⟨hsound, rfl, ?_⟩
      rw [Decidable.not_not.mp hs, (signedWord_fill (low ++ post)).1] at hsum
      rw [hsum, signedValue_signBit ha']
      ring

/-- One significand of 53 bits is added at its place. -/
theorem accumulates_addSignificand (hsound : acc.Sound) (hst : isSpecial acc.state = false) (neg :
    Bool) (hsig : significand.toNat < 2 ^ 53) (hpos : pos < 32) (hshift : shift < 64) :
    Accumulates acc.limbs (signed neg (significand.toNat * 2 ^ (64 * pos + shift)))
      (acc.addSignificand neg significand pos shift) := by
  have hroom : pos + 1 ≤ exactSumLimbs := by
    simp only [exactSumLimbs]
    omega
  obtain ⟨extended, hextended⟩ :
      ∃ extended, extendTo acc.limbs _ (0 - signBit acc.limbs) = some extended :=
    extendTo_isSome (0 - signBit acc.limbs) hroom
  obtain ⟨hshape, hfits⟩ := extendTo_eq_some hextended
  obtain ⟨hv, hsign⟩ := signedValue_extended hsound.nonempty (pos + 1 - acc.limbs.length)
  rw [← hshape] at hv hsign
  have hlong : pos < extended.length := by
    rw [hshape, length_append, length_replicate]
    omega
  have hlow : (extended.take pos).length = pos := length_take_of_le hlong.le
  have hsplit := take_append_drop pos extended
  have hoperand : signed neg (significand.toNat * 2 ^ (64 * pos + shift)) =
      2 ^ (64 * (extended.take pos).length) * signed neg (significand.toNat * 2 ^ shift) := by
    rw [hlow, pow_add, mul_left_comm]
    cases neg with
    | false | true => simp [signed]
  have hrun : acc.addSignificand neg significand pos shift =
      (addWords (ofSign neg) (0 - ofSign neg) (0 - signBit acc.limbs) significand shift
        (extended.drop pos) pos).bind fun words =>
          finishWords (extended.take pos ++ words.1) (0 - signBit acc.limbs) (0 - ofSign neg)
            words.2 := by
    rw [addSignificand, hst]
    simp only [hextended]
    congr 1
  rw [hrun, hoperand]
  generalize extended.take pos = low at hlow hsplit ⊢
  cases hdrop : extended.drop pos with
  | nil =>
    have hlen := congrArg length hdrop
    rw [length_drop, length_nil] at hlen
    omega
  | cons limb high =>
    rw [hdrop] at hsplit
    rcases lt_or_ge shift 12 with hsm | hlarge
    · obtain ⟨post, carry, hwords, hadded⟩ := addWords_oneWord neg (0 - signBit acc.limbs)
        hsig hsm limb high pos
      have hfill : signBit acc.limbs = signBit (low ++ limb :: high) := by rw [hsplit, hsign]
      rw [hwords, hfill]
      exact accumulates_finishWords (by simp) (by rw [hsplit, hv])
        (by rw [hsplit]; exact hfits hsound.room) hadded
    · cases high with
      | nil =>
        -- the second word of the operand is beyond the words in use
        have hn : nextWord (0 - signBit acc.limbs) pos [] = some (0 - signBit acc.limbs, []) := by
          rw [nextWord, if_pos (by simp only [exactSumLimbs]; omega)]
        obtain ⟨post, carry, hwords, hadded⟩ := addWords_twoWords neg (0 - signBit acc.limbs)
          significand hlarge hshift limb hn
        have hne : extended ≠ [] := by
          rintro rfl
          exact absurd hlong (Nat.not_lt_zero _)
        have hmore := signedValue_extended hne 1
        have hwhole : low ++ [limb, 0 - signBit acc.limbs] =
            extended ++ replicate 1 (0 - signBit extended) := by
          rw [hsign, ← hsplit]
          simp
        have hfill : signBit acc.limbs = signBit (low ++ [limb, 0 - signBit acc.limbs]) := by
          rw [hwhole, hmore.2, hsign]
        have hlen : (low ++ [limb, 0 - signBit acc.limbs]).length ≤ exactSumLimbs := by
          rw [length_append]
          simp only [length_cons, length_nil, exactSumLimbs]
          omega
        have hkeeps : signedValue (low ++ [limb, 0 - signBit acc.limbs]) =
            signedValue acc.limbs := by
          rw [hwhole, hmore.1, hv]
        have haccumulates := accumulates_finishWords (by simp) hkeeps hlen hadded
        rw [← hfill] at haccumulates
        rw [hwords]
        exact haccumulates
      | cons next rest =>
        obtain ⟨post, carry, hwords, hadded⟩ := addWords_twoWords neg (0 - signBit acc.limbs)
          significand hlarge hshift limb
          (show nextWord (0 - signBit acc.limbs) pos (next :: rest) = some (next, rest) from rfl)
        have hfill : signBit acc.limbs = signBit (low ++ limb :: next :: rest) := by
          rw [hsplit, hsign]
        rw [hwords, hfill]
        exact accumulates_finishWords (by simp) (by rw [hsplit, hv])
          (by rw [hsplit]; exact hfits hsound.room) hadded

end ExactSumAccumulator

end TachyonEngine.Vm
