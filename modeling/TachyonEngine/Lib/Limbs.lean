import Mathlib

/-!
# Little-endian words

A natural number as a list of 64-bit words, the lowest first. `limbsValue` is the number. Lists
whose last word is not zero are the canonical ones: they are compared by their length and then from
the last word on (`magnitudeCmp_eq`), and a bit of the number is a bit of one of the words
(`testBit_limbsValue`). `signedValue` reads a list as a two's complement, whose bits go on with the
highest one for ever (`testBit_signedValue`).
-/

namespace TachyonEngine.Lib

open List

/-- The number of values of a word. -/
abbrev limbBase : Nat := 2 ^ 64

/-- The number that the words stand for. -/
def limbsValue (limbs : List UInt64) : Nat := Nat.ofDigits limbBase (limbs.map UInt64.toNat)

/-- The low word of a number. -/
def lowLimb (n : Nat) : UInt64 := UInt64.ofNat n

theorem toNat_lowLimb (n : Nat) : (lowLimb n).toNat = n % limbBase := UInt64.toNat_ofNat'

theorem toNat_lowLimb_of_lt {n : Nat} (h : n < limbBase) : (lowLimb n).toNat = n := by
  rw [toNat_lowLimb, Nat.mod_eq_of_lt h]

section Value

variable {limbs left right : List UInt64} {limb : UInt64}

@[simp] theorem limbsValue_nil : limbsValue [] = 0 := rfl

@[simp] theorem limbsValue_cons (limb : UInt64) (limbs : List UInt64) :
    limbsValue (limb :: limbs) = limb.toNat + limbBase * limbsValue limbs := by
  rw [limbsValue, map_cons, Nat.ofDigits_cons, limbsValue]

theorem limbsValue_headD_tail (limbs : List UInt64) :
    limbsValue limbs = (limbs.headD 0).toNat + limbBase * limbsValue limbs.tail := by
  cases limbs with
  | nil => rfl
  | cons limb rest => exact limbsValue_cons limb rest

theorem limbsValue_append (left right : List UInt64) :
    limbsValue (left ++ right) = limbsValue left + limbBase ^ left.length * limbsValue right := by
  rw [limbsValue, map_append, Nat.ofDigits_append, length_map]
  rfl

theorem limbsValue_lt (limbs : List UInt64) : limbsValue limbs < limbBase ^ limbs.length := by
  have hlt := Nat.ofDigits_lt_base_pow_length (b := limbBase) (l := limbs.map UInt64.toNat)
    (by decide) (by
      intro digit hdigit
      obtain ⟨limb, -, rfl⟩ := mem_map.mp hdigit
      exact limb.toNat_lt)
  rw [length_map] at hlt
  exact hlt

theorem limbsValue_replicate_zero (cnt : Nat) : limbsValue (List.replicate cnt 0) = 0 := by
  rw [limbsValue, map_replicate]
  exact Nat.ofDigits_replicate_zero

theorem limbsValue_append_zeros (limbs : List UInt64) (cnt : Nat) :
    limbsValue (limbs ++ List.replicate cnt 0) = limbsValue limbs := by
  rw [limbsValue_append, limbsValue_replicate_zero, Nat.mul_zero, add_zero]

end Value

section

variable (limbs : List UInt64)

/-- Words that are all ones are the largest number of their length. -/
theorem limbsValue_succ_eq_iff :
    limbsValue limbs + 1 = limbBase ^ limbs.length ↔ ∀ limb ∈ limbs, limb.toNat = limbBase - 1 := by
  induction limbs with
  | nil => simp
  | cons limb rest ih =>
    have hlimb : limb.toNat < limbBase := limb.toNat_lt
    have hrest := limbsValue_lt rest
    have hsplit : limbsValue (limb :: rest) + 1 + limbBase *
      (limbBase ^ rest.length - 1 - limbsValue rest) +
        (limbBase - 1 - limb.toNat) = limbBase ^ (limb :: rest).length := by
      obtain ⟨gap, hgap⟩ := Nat.exists_eq_add_of_lt hrest
      rw [limbsValue_cons, length_cons, pow_succ, hgap]
      simp only [limbBase] at hlimb ⊢
      omega
    rw [forall_mem_cons, ← ih]
    constructor
    · intro hfull
      have hgap : limbBase * (limbBase ^ rest.length - 1 - limbsValue rest) = 0 := by omega
      rcases mul_eq_zero.mp hgap with hbase | hn
      · exact absurd hbase (by decide)
      · exact ⟨by omega, by omega⟩
    · rintro ⟨hones, hfull⟩
      have hn : limbBase ^ rest.length - 1 - limbsValue rest = 0 := by omega
      rw [hn] at hsplit
      omega

/-! ## Canonical words -/

/-- The last word is not zero. -/
def CanonicalLimbs (limbs : List UInt64) : Prop := limbs.getLast? ≠ some 0

instance (limbs : List UInt64) : Decidable (CanonicalLimbs limbs) :=
  inferInstanceAs (Decidable (_ ≠ _))

/-- The words without zeros at the end. -/
def trimLimbs (limbs : List UInt64) : List UInt64 := limbs.rdropWhile (· == 0)

theorem canonical_trimLimbs : CanonicalLimbs (trimLimbs limbs) := by
  intro hl
  by_cases hne : trimLimbs limbs = []
  · rw [hne] at hl
    cases hl
  · have hnot := rdropWhile_last_not (· == 0) limbs hne
    rw [getLast?_eq_some_getLast hne] at hl
    apply hnot
    exact beq_iff_eq.mpr (Option.some.inj hl)

theorem limbsValue_trimLimbs : limbsValue (trimLimbs limbs) = limbsValue limbs := by
  induction limbs using reverseRecOn with
  | nil => rfl
  | append_singleton rest last ih =>
    by_cases hz : last = 0
    · subst hz
      rw [trimLimbs, rdropWhile_concat_pos _ _ _ (by simp)]
      have happend := limbsValue_append_zeros rest 1
      rw [replicate_one] at happend
      rw [happend]
      exact ih
    · rw [trimLimbs, rdropWhile_concat_neg _ _ _ (by simpa using hz)]

theorem CanonicalLimbs.tail {limb : UInt64} {limbs : List UInt64}
    (h : CanonicalLimbs (limb :: limbs)) : CanonicalLimbs limbs := by
  cases limbs with
  | nil => exact nofun
  | cons next rest =>
    exact h

/-- The number of words bounds the number from below. -/
theorem CanonicalLimbs.pow_le {limbs : List UInt64} (h : CanonicalLimbs limbs) (hne : limbs ≠ []) :
    limbBase ^ (limbs.length - 1) ≤ limbsValue limbs := by
  rcases eq_nil_or_concat limbs with rfl | ⟨rest, last, rfl⟩
  · exact absurd rfl hne
  · rw [concat_eq_append] at h ⊢
    have hl : last ≠ 0 := by
      rintro rfl
      exact h getLast?_concat
    have hpos : 1 ≤ last.toNat := by
      apply Nat.pos_of_ne_zero
      intro hz
      exact hl (UInt64.toNat_inj.mp hz)
    rw [limbsValue_append, length_append, length_singleton,
      limbsValue_cons, limbsValue_nil, Nat.mul_zero]
    calc limbBase ^ rest.length = limbBase ^ rest.length * 1 := (Nat.mul_one _).symm
      _ ≤ limbBase ^ rest.length * last.toNat := Nat.mul_le_mul_left _ hpos
      _ ≤ limbsValue rest + limbBase ^ rest.length * last.toNat := Nat.le_add_left _ _

theorem CanonicalLimbs.value_eq_zero {limbs : List UInt64} (h : CanonicalLimbs limbs) :
    limbsValue limbs = 0 ↔ limbs = [] := by
  constructor
  · intro hz
    by_contra hne
    have hle := h.pow_le hne
    rw [hz] at hle
    exact absurd hle (not_le.mpr (Nat.pow_pos (by decide)))
  · rintro rfl
    rfl

/-! ## Comparing -/

/-- Compares words from the last one on. -/
def compareFromLast : List UInt64 → List UInt64 → Ordering
  | [], [] => .eq
  | [], _ :: _ => .lt
  | _ :: _, [] => .gt
  | l :: ls, r :: rs => (compareFromLast ls rs).then (compare l.toNat r.toNat)

/-- Compares the lengths, then the words from the last one on. -/
def magnitudeCmp (left right : List UInt64) : Ordering :=
  (compare left.length right.length).then (compareFromLast left right)

variable {left right : List UInt64}

theorem compareFromLast_eq (h : left.length = right.length) :
    compareFromLast left right = compare (limbsValue left) (limbsValue right) := by
  induction left generalizing right with
  | nil =>
    obtain rfl := eq_nil_of_length_eq_zero h.symm
    rfl
  | cons l ls ih =>
    cases right with
    | nil => cases h
    | cons r rs =>
      have hl : l.toNat < limbBase := l.toNat_lt
      have hr : r.toNat < limbBase := r.toNat_lt
      rw [compareFromLast, ih (Nat.succ.inj h), limbsValue_cons, limbsValue_cons]
      rcases lt_trichotomy (limbsValue ls) (limbsValue rs) with hlt | heq | hgt
      · have hless : l.toNat + limbBase * limbsValue ls < r.toNat + limbBase * limbsValue rs := by
          have hmul := Nat.mul_le_mul_left limbBase (Nat.succ_le_of_lt hlt)
          rw [Nat.mul_succ] at hmul
          omega
        rw [Nat.compare_eq_lt.mpr hlt, Nat.compare_eq_lt.mpr hless]
        rfl
      · rw [heq, Nat.compare_eq_eq.mpr rfl]
        show compare l.toNat r.toNat = _
        rcases lt_trichotomy l.toNat r.toNat with hlt | heq' | hgt
        · rw [Nat.compare_eq_lt.mpr hlt, Nat.compare_eq_lt.mpr (Nat.add_lt_add_right hlt _)]
        · rw [heq', Nat.compare_eq_eq.mpr rfl, Nat.compare_eq_eq.mpr rfl]
        · rw [Nat.compare_eq_gt.mpr hgt, Nat.compare_eq_gt.mpr (Nat.add_lt_add_right hgt _)]
      · have hmore : r.toNat + limbBase * limbsValue rs < l.toNat + limbBase * limbsValue ls := by
          have hmul := Nat.mul_le_mul_left limbBase (Nat.succ_le_of_lt hgt)
          rw [Nat.mul_succ] at hmul
          omega
        rw [Nat.compare_eq_gt.mpr hgt, Nat.compare_eq_gt.mpr hmore]
        rfl

/-- A shorter list is a smaller number than a canonical one. -/
theorem CanonicalLimbs.value_lt_of_length_lt {short long : List UInt64}
    (hlong : CanonicalLimbs long)
    (hlt : short.length < long.length) : limbsValue short < limbsValue long := by
  have hne : long ≠ [] := by
    rintro rfl
    exact absurd hlt (Nat.not_lt_zero _)
  calc limbsValue short < limbBase ^ short.length := limbsValue_lt short
    _ ≤ limbBase ^ (long.length - 1) := Nat.pow_le_pow_right (by decide) (by omega)
    _ ≤ limbsValue long := hlong.pow_le hne

/-- Canonical words are compared as the numbers are. -/
theorem magnitudeCmp_eq (hl : CanonicalLimbs left) (hr : CanonicalLimbs right) :
    magnitudeCmp left right = compare (limbsValue left) (limbsValue right) := by
  rw [magnitudeCmp]
  rcases lt_trichotomy left.length right.length with hlt | heq | hgt
  · rw [Nat.compare_eq_lt.mpr hlt, Nat.compare_eq_lt.mpr (hr.value_lt_of_length_lt hlt)]
    rfl
  · rw [Nat.compare_eq_eq.mpr heq]
    exact compareFromLast_eq heq
  · rw [Nat.compare_eq_gt.mpr hgt, Nat.compare_eq_gt.mpr (hl.value_lt_of_length_lt hgt)]
    rfl

/-- Canonical words of one number are the same words. -/
theorem CanonicalLimbs.eq_of_value_eq (hl : CanonicalLimbs left) (hr : CanonicalLimbs right) (h :
    limbsValue left = limbsValue right) : left = right := by
  have hlen : left.length = right.length := by
    rcases lt_trichotomy left.length right.length with hlt | heq | hgt
    · exact absurd h (hr.value_lt_of_length_lt hlt).ne
    · exact heq
    · exact absurd h (hl.value_lt_of_length_lt hgt).ne'
  have hword : ∀ limbs : List UInt64, ∀ n ∈ limbs.map UInt64.toNat, n < limbBase := by
    intro limbs n hn
    obtain ⟨limb, -, rfl⟩ := mem_map.mp hn
    exact limb.toNat_lt
  apply map_injective_iff.mpr fun a b hab => UInt64.toNat_inj.mp hab
  exact Nat.ofDigits_inj_of_len_eq (by decide) (by simpa using hlen) (hword left) (hword right) h

/-! ## Bits -/

/-- A bit of the number is a bit of a word. -/
theorem testBit_limbsValue (i : Nat) :
    (limbsValue limbs).testBit i = (limbs.getD (i / 64) 0).toNat.testBit (i % 64) := by
  induction limbs generalizing i with
  | nil => simp
  | cons limb rest ih =>
    rw [limbsValue_cons]
    by_cases hlow : i < 64
    · rw [Nat.div_eq_of_lt hlow, Nat.mod_eq_of_lt hlow, getD_cons_zero, add_comm,
        Nat.testBit_two_pow_mul_add _ limb.toNat_lt, if_pos hlow]
    · have hdiv : i / 64 = (i - 64) / 64 + 1 := by omega
      have hmod : i % 64 = (i - 64) % 64 := by omega
      rw [hdiv, hmod, getD_cons_succ, ← ih, add_comm,
        Nat.testBit_two_pow_mul_add _ limb.toNat_lt, if_neg hlow]

/-! ## Two's complement -/

/-- The number that the words stand for in two's complement. -/
def signedValue (limbs : List UInt64) : Int :=
  if (limbsValue limbs).testBit (64 * limbs.length - 1) then
    (limbsValue limbs : Int) - (limbBase ^ limbs.length : Nat)
  else limbsValue limbs

theorem limbBase_pow (cnt : Nat) : limbBase ^ cnt = 2 ^ (64 * cnt) := by
  rw [pow_mul]

/-- The highest bit goes on for ever. -/
theorem testBit_signedValue {limbs : List UInt64} (i : Nat) :
    (signedValue limbs).testBit i = (limbsValue limbs).testBit (min i (64 * limbs.length - 1)) := by
  have hlt := limbsValue_lt limbs
  rw [limbBase_pow] at hlt
  rw [signedValue, limbBase_pow]
  by_cases hin : i < 64 * limbs.length
  · have hmin : min i (64 * limbs.length - 1) = i := by omega
    rw [hmin]
    split
    · have hneg : (limbsValue limbs : Int) - (2 ^ (64 * limbs.length) : Nat) =
          Int.negSucc (2 ^ (64 * limbs.length) - (limbsValue limbs + 1)) := by omega
      rw [hneg]
      show (!(2 ^ (64 * limbs.length) - (limbsValue limbs + 1)).testBit i) = _
      rw [Nat.testBit_two_pow_sub_succ hlt, decide_eq_true hin, Bool.true_and, Bool.not_not]
    · rfl
  · have hmin : min i (64 * limbs.length - 1) = 64 * limbs.length - 1 := by omega
    rw [hmin]
    split_ifs with hset
    · have hneg : (limbsValue limbs : Int) - (2 ^ (64 * limbs.length) : Nat) =
          Int.negSucc (2 ^ (64 * limbs.length) - (limbsValue limbs + 1)) := by omega
      rw [hneg, hset]
      show (!(2 ^ (64 * limbs.length) - (limbsValue limbs + 1)).testBit i) = _
      rw [Nat.testBit_two_pow_sub_succ hlt, decide_eq_false hin, Bool.false_and, Bool.not_false]
    · rw [Bool.not_eq_true] at hset
      have hbeyond : limbsValue limbs < 2 ^ i :=
        lt_of_lt_of_le hlt (Nat.pow_le_pow_right (by decide) (not_lt.mp hin))
      rw [hset]
      exact Nat.testBit_lt_two_pow hbeyond

/-- The highest bit is set where the number is at least half of the range. -/
theorem testBit_last_iff {limbs : List UInt64} (hne : limbs ≠ []) :
    (limbsValue limbs).testBit (64 * limbs.length - 1) = true ↔
      2 ^ (64 * limbs.length - 1) ≤ limbsValue limbs := by
  have hlen : 0 < limbs.length := length_pos_of_ne_nil hne
  have hlt := limbsValue_lt limbs
  have hsucc : 64 * limbs.length = (64 * limbs.length - 1) + 1 := by omega
  rw [limbBase_pow, hsucc] at hlt
  constructor
  · exact Nat.ge_two_pow_of_testBit
  · intro hle
    rw [Nat.testBit_eq_decide_div_mod_eq, decide_eq_true_eq]
    have hone : limbsValue limbs / 2 ^ (64 * limbs.length - 1) = 1 := by
      apply Nat.div_eq_of_lt_le <;> omega
    rw [hone]

variable {n : Int}

/-- Integers with the same bits are equal. -/
theorem int_eq_of_testBit_eq {m : Int} (h : ∀ i, m.testBit i = n.testBit i) : m = n := by
  have hmixed : ∀ a b : Nat, ¬ ∀ i, a.testBit i = !b.testBit i := by
    intro a b hbits
    have hbit := hbits (a + b)
    have ha : a < 2 ^ (a + b) :=
      lt_of_lt_of_le Nat.lt_two_pow_self (Nat.pow_le_pow_right (by decide) (Nat.le_add_right a b))
    have hb : b < 2 ^ (a + b) :=
      lt_of_lt_of_le Nat.lt_two_pow_self (Nat.pow_le_pow_right (by decide) (Nat.le_add_left b a))
    rw [Nat.testBit_lt_two_pow ha, Nat.testBit_lt_two_pow hb] at hbit
    cases hbit
  cases m with
  | ofNat a =>
    cases n with
    | ofNat b => exact congrArg Int.ofNat (Nat.eq_of_testBit_eq h)
    | negSucc b => exact absurd h (hmixed a b)
  | negSucc a =>
    cases n with
    | ofNat b => exact absurd (fun i => (h i).symm) (hmixed b a)
    | negSucc b =>
      apply congrArg Int.negSucc
      apply Nat.eq_of_testBit_eq
      intro i
      exact Bool.not_inj (h i)

/-- The words of a number that is not empty are below half of their range, or not. -/
theorem signedValue_eq {limbs : List UInt64} (hne : limbs ≠ []) :
    signedValue limbs = (limbsValue limbs : Int) -
      (if 2 ^ (64 * limbs.length - 1) ≤ limbsValue limbs then (2 :
      Int) ^ (64 * limbs.length) else 0) := by
  rw [signedValue, limbBase_pow]
  by_cases hset : (limbsValue limbs).testBit (64 * limbs.length - 1) = true
  · rw [if_pos hset, if_pos ((testBit_last_iff hne).mp hset)]
    rfl
  · rw [if_neg hset, if_neg fun hle => hset ((testBit_last_iff hne).mpr hle), Int.sub_zero]

theorem signedValue_range {limbs : List UInt64} (hne : limbs ≠ []) :
    -(2 : Int) ^ (64 * limbs.length - 1) ≤ signedValue limbs ∧
      signedValue limbs < 2 ^ (64 * limbs.length - 1) := by
  have hlen : 0 < limbs.length := length_pos_of_ne_nil hne
  have hlt := limbsValue_lt limbs
  have hrange : (2 : Int) ^ (64 * limbs.length) = 2 * 2 ^ (64 * limbs.length - 1) := by
    rw [← pow_succ']
    congr 1
    omega
  rw [limbBase_pow] at hlt
  have hlt' : (limbsValue limbs : Int) < 2 ^ (64 * limbs.length) := by exact_mod_cast hlt
  rw [signedValue_eq hne]
  split_ifs with hle
  · have hle' : (2 : Int) ^ (64 * limbs.length - 1) ≤ limbsValue limbs := by exact_mod_cast hle
    omega
  · have hless' : (limbsValue limbs : Int) < 2 ^ (64 * limbs.length - 1) := by
      exact_mod_cast not_le.mp hle
    omega

/-- A number in the range of the words that differs from them by a multiple of their range is the
number that they stand for. -/
theorem signedValue_eq_of_range {limbs : List UInt64} (hne : limbs ≠ []) (multiple : Int) (hn : n =
    limbsValue limbs + multiple * 2 ^ (64 * limbs.length)) (hlow : -(2 : Int) ^ (64 * limbs.length -
    1) ≤ n) (hhigh : n < 2 ^ (64 * limbs.length - 1)) : signedValue limbs = n := by
  have hlen : 0 < limbs.length := length_pos_of_ne_nil hne
  obtain ⟨hlow', hhigh'⟩ := signedValue_range hne
  have hrange : (2 : Int) ^ (64 * limbs.length) = 2 * 2 ^ (64 * limbs.length - 1) := by
    rw [← pow_succ']
    congr 1
    omega
  have hmultiple : ∃ other : Int, signedValue limbs = limbsValue limbs + other * 2 ^
      (64 * limbs.length) := by
    rw [signedValue_eq hne]
    split
    · exact ⟨-1, by ring⟩
    · exact ⟨0, by ring⟩
  obtain ⟨other, ho⟩ := hmultiple
  rw [hrange] at hn ho
  generalize (2 : Int) ^ (64 * limbs.length - 1) = half at *
  have hdifference : signedValue limbs - n = (other - multiple) * (2 * half) := by
    rw [hn, ho]
    ring
  have hz : other - multiple = 0 := by
    rcases lt_trichotomy (other - multiple) 0 with hneg | hz | hpositive
    · nlinarith
    · exact hz
    · nlinarith
  rw [hz, Int.zero_mul] at hdifference
  omega

/-- The number that one word stands for in two's complement. -/
def signedWord (word : UInt64) : Int :=
  if 2 ^ 63 ≤ word.toNat then (word.toNat : Int) - 2 ^ 64 else word.toNat

theorem signedWord_range (word : UInt64) : -2 ^ 63 ≤ signedWord word ∧
    signedWord word < 2 ^ 63 := by
  have hlt := word.toNat_lt
  simp only [signedWord]
  split
  · omega
  · omega

/-- The highest word has the sign. -/
theorem signedValue_append_word (word : UInt64) : signedValue (limbs ++ [word]) =
      limbsValue limbs + 2 ^ (64 * limbs.length) * signedWord word := by
  have hlt := limbsValue_lt limbs
  rw [limbBase_pow] at hlt
  obtain ⟨hlow, hhigh⟩ := signedWord_range word
  have hlen : (limbs ++ [word]).length = limbs.length + 1 := by simp
  have hv : (limbsValue (limbs ++ [word]) : Int) =
      limbsValue limbs + 2 ^ (64 * limbs.length) * (word.toNat : Int) := by
    rw [limbsValue_append, limbBase_pow, limbsValue_cons, limbsValue_nil, Nat.mul_zero]
    rfl
  have hhalf : (2 : Int) ^ (64 * (limbs ++ [word]).length - 1) = 2 ^
      (64 * limbs.length) * 2 ^ 63 := by
    rw [hlen, ← pow_add]
    congr 1
  have hrange : (2 : Int) ^ (64 * (limbs ++ [word]).length) = 2 ^ (64 * limbs.length) * 2 ^ 64 := by
    rw [hlen, ← pow_add]
    congr 1
  refine signedValue_eq_of_range (by simp) (if 2 ^ 63 ≤ word.toNat then -1 else 0) ?_ ?_ ?_
  · rw [hv, hrange, signedWord]
    split
    · ring
    · ring
  · nlinarith
  · nlinarith

end

end TachyonEngine.Lib
