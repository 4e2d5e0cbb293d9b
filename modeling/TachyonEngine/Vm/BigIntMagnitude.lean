import TachyonEngine.Vm.BigInt

/-!
# Magnitudes of BigInts

One equation for each kernel: the carry chain of an addition, the borrow chain of a subtraction, the
rows of a product, the pass that divides by a limb, the bits of the long division, and the two's
complement of fixed-width words.
-/

namespace TachyonEngine.Vm

open Lib List

theorem u128_of_lt {n : Nat} (h : n < 2 ^ 128) : u128 n = n := Nat.mod_eq_of_lt h

/-- A number is its low word and the rest. -/
theorem lowLimb_add_shiftRight (n : Nat) : (lowLimb n).toNat + limbBase * (n >>> 64) = n := by
  rw [Nat.shiftRight_eq_div_pow]
  exact Nat.mod_add_div n limbBase

/-! ## Addition -/

theorem addLimbs_length (cnt : Nat) (left right : List UInt64) (carry : Nat) :
    (addLimbs cnt left right carry).1.length = cnt := by
  induction cnt generalizing left right carry with
  | zero => rfl
  | succ cnt ih => simp only [addLimbs, length_cons, ih]

variable {carry : Nat}

theorem addLimbs_carry_le (cnt : Nat) (left right : List UInt64) (hcarry : carry ≤ 1) :
    (addLimbs cnt left right carry).2 ≤ 1 := by
  induction cnt generalizing left right carry with
  | zero => exact hcarry
  | succ cnt ih =>
    have hl := (left.headD 0).toNat_lt
    have hr := (right.headD 0).toNat_lt
    apply ih
    rw [u128_of_lt (by omega)]
    omega

variable {left right : List UInt64}

variable {cnt : Nat}

/-- The carry chain. -/
theorem limbsValue_addLimbs (hleft : left.length ≤ cnt) (hright : right.length ≤ cnt) (hcarry :
    carry ≤ 1) : limbsValue (addLimbs cnt left right carry).1 +
        limbBase ^ cnt * (addLimbs cnt left right carry).2 =
      limbsValue left + limbsValue right + carry := by
  induction cnt generalizing left right carry with
  | zero =>
    obtain rfl := eq_nil_of_length_eq_zero (Nat.le_zero.mp hleft)
    obtain rfl := eq_nil_of_length_eq_zero (Nat.le_zero.mp hright)
    simp [addLimbs]
  | succ cnt ih =>
    have hl : (left.headD 0).toNat < limbBase := (left.headD 0).toNat_lt
    have hr : (right.headD 0).toNat < limbBase := (right.headD 0).toNat_lt
    have hwide : (left.headD 0).toNat + (right.headD 0).toNat + carry < 2 ^ 128 := by
      simp only [limbBase] at hl hr
      omega
    simp only [addLimbs, u128_of_lt hwide]
    generalize hsum : (left.headD 0).toNat + (right.headD 0).toNat + carry = sum
    have hn : sum >>> 64 ≤ 1 := by
      simp only [limbBase] at hl hr
      omega
    have hl' : left.tail.length ≤ cnt := by
      rw [length_tail]
      omega
    have hr' : right.tail.length ≤ cnt := by
      rw [length_tail]
      omega
    have hrest := ih hl' hr' hn
    have hlow := lowLimb_add_shiftRight sum
    rw [limbsValue_headD_tail left, limbsValue_headD_tail right]
    calc (lowLimb sum).toNat +
            limbBase * limbsValue (addLimbs cnt left.tail right.tail (sum >>> 64)).1 +
            limbBase ^ cnt * limbBase * (addLimbs cnt left.tail right.tail (sum >>> 64)).2
        = (lowLimb sum).toNat + limbBase *
            (limbsValue (addLimbs cnt left.tail right.tail (sum >>> 64)).1 +
              limbBase ^ cnt * (addLimbs cnt left.tail right.tail (sum >>> 64)).2) := by ring
      _ = ((lowLimb sum).toNat + limbBase * (sum >>> 64)) +
            limbBase * limbsValue left.tail + limbBase * limbsValue right.tail := by
          rw [hrest]
          ring
      _ = _ := by
          rw [hlow, ← hsum]
          ring

/-! ## Subtraction -/

theorem subtractLimbs_length (left right : List UInt64) (borrow : Nat) :
    (subtractLimbs left right borrow).1.length = left.length := by
  induction left generalizing right borrow with
  | nil => rfl
  | cons minuend left ih => simp only [subtractLimbs, length_cons, ih]

/-- One word of a subtraction: what is borrowed is one unit of the next word. -/
theorem lowLimb_difference {minuend subtrahend : Nat} (hm : minuend < limbBase)
    (hs : subtrahend ≤ limbBase) :
    (lowLimb (u128 (minuend + 2 ^ 128 - subtrahend))).toNat + subtrahend =
      minuend + limbBase * (if minuend < subtrahend then 1 else 0) := by
  rw [toNat_lowLimb, u128]
  simp only [limbBase] at hm hs ⊢
  split <;> omega

/-- The borrow chain. -/
theorem limbsValue_subtractLimbs {borrow : Nat} (hlen : right.length ≤ left.length)
    (hborrow : borrow ≤ 1) :
    limbsValue (subtractLimbs left right borrow).1 + limbsValue right + borrow =
      limbsValue left + limbBase ^ left.length * (subtractLimbs left right borrow).2 := by
  induction left generalizing right borrow with
  | nil =>
    obtain rfl := eq_nil_of_length_eq_zero (Nat.le_zero.mp hlen)
    simp [subtractLimbs]
  | cons minuend left ih =>
    have hm : minuend.toNat < limbBase := minuend.toNat_lt
    have hr : (right.headD 0).toNat < limbBase := (right.headD 0).toNat_lt
    have hwide : (right.headD 0).toNat + borrow < 2 ^ 128 := by
      simp only [limbBase] at hr
      omega
    simp only [subtractLimbs, u128_of_lt hwide]
    generalize hsub : (right.headD 0).toNat + borrow = subtrahend
    have hs : subtrahend ≤ limbBase := by omega
    have hword := lowLimb_difference hm hs
    generalize hn : (if minuend.toNat < subtrahend then 1 else 0) = next at hword ⊢
    have hn' : next ≤ 1 := by
      rw [← hn]
      split <;> omega
    have hlen' : right.tail.length ≤ left.length := by
      rw [length_tail]
      rw [length_cons] at hlen
      omega
    have hrest := ih hlen' hn'
    generalize u128 (minuend.toNat + 2 ^ 128 - subtrahend) = difference at hword ⊢
    rw [limbsValue_cons, limbsValue_cons, length_cons, limbsValue_headD_tail right]
    calc (lowLimb difference).toNat + limbBase * limbsValue (subtractLimbs left right.tail next).1 +
            ((right.headD 0).toNat + limbBase * limbsValue right.tail) + borrow
        = ((lowLimb difference).toNat + subtrahend) +
            limbBase * (limbsValue (subtractLimbs left right.tail next).1 +
              limbsValue right.tail) := by
          rw [← hsub]
          ring
      _ = minuend.toNat + limbBase * (limbsValue (subtractLimbs left right.tail next).1 +
            limbsValue right.tail + next) := by
          rw [hword]
          ring
      _ = _ := by
          rw [hrest]
          ring

/-- Nothing is borrowed from beyond the words where the minuend is not smaller. -/
theorem limbsValue_subtractLimbs_of_le (hlen : right.length ≤ left.length)
    (hle : limbsValue right ≤ limbsValue left) :
    limbsValue (subtractLimbs left right 0).1 = limbsValue left - limbsValue right := by
  have hchain := limbsValue_subtractLimbs hlen (Nat.zero_le 1)
  have hlt := limbsValue_lt (subtractLimbs left right 0).1
  rw [subtractLimbs_length] at hlt
  generalize (subtractLimbs left right 0).2 = borrow at hchain
  cases borrow with
  | zero => omega
  | succ borrow =>
    rw [Nat.mul_succ] at hchain
    omega

/-! ## Multiplication -/

variable {limbs : List UInt64}

/-- A row of the product leaves the words behind its carry alone. -/
theorem getD_multiplyRow {left : UInt64} {i : Nat} (hi : right.length < i) :
    (multiplyRow left right limbs carry).getD i 0 = limbs.getD i 0 := by
  induction right generalizing limbs carry i with
  | nil =>
    obtain ⟨i, rfl⟩ := Nat.exists_eq_succ_of_ne_zero (Nat.pos_iff_ne_zero.mp hi)
    cases limbs <;> rfl
  | cons word rest ih =>
    obtain ⟨i, rfl⟩ := Nat.exists_eq_succ_of_ne_zero (ne_of_gt (lt_of_le_of_lt
      (Nat.zero_le _) hi))
    simp only [multiplyRow]
    rw [getD_cons_succ, ih (Nat.lt_of_succ_lt_succ hi)]
    cases limbs <;> rfl

/-- A row adds the product of a word and a magnitude. -/
theorem limbsValue_multiplyRow {left : UInt64} (hcarry : carry < limbBase)
    (hroom : limbs.getD right.length 0 = 0) : limbsValue (multiplyRow left right limbs carry) =
      left.toNat * limbsValue right + limbsValue limbs + carry := by
  induction right generalizing limbs carry with
  | nil =>
    have hhead : limbs.headD 0 = 0 := by
      cases limbs with
      | nil => rfl
      | cons limb rest => exact hroom
    simp only [multiplyRow]
    rw [limbsValue_cons, toNat_lowLimb_of_lt hcarry, limbsValue_headD_tail limbs, hhead,
      limbsValue_nil]
    simp only [UInt64.toNat_zero]
    ring
  | cons word rest ih =>
    have hl : left.toNat ≤ limbBase - 1 := Nat.le_sub_one_of_lt left.toNat_lt
    have hw : word.toNat ≤ limbBase - 1 := Nat.le_sub_one_of_lt word.toNat_lt
    have hh : (limbs.headD 0).toNat < limbBase := (limbs.headD 0).toNat_lt
    have hwide : left.toNat * word.toNat + (limbs.headD 0).toNat + carry < 2 ^ 128 := by
      have hmul := mul_le_mul hl hw
      simp only [limbBase] at hmul hh hcarry
      omega
    simp only [multiplyRow, u128_of_lt hwide]
    generalize hprod : left.toNat * word.toNat + (limbs.headD 0).toNat + carry = product
    have hn : product >>> 64 < limbBase := by
      simp only [limbBase]
      omega
    have hroom' : limbs.tail.getD rest.length 0 = 0 := by
      cases limbs with
      | nil => rfl
      | cons limb limbs => exact hroom
    have hlow := lowLimb_add_shiftRight product
    rw [limbsValue_cons, ih hn hroom', limbsValue_cons, limbsValue_headD_tail limbs]
    calc (lowLimb product).toNat + limbBase *
            (left.toNat * limbsValue rest + limbsValue limbs.tail + product >>> 64)
        = ((lowLimb product).toNat + limbBase * (product >>> 64)) +
            limbBase * (left.toNat * limbsValue rest + limbsValue limbs.tail) := by ring
      _ = _ := by
          rw [hlow, ← hprod]
          ring

/-- The rows add up to the product. -/
theorem limbsValue_multiplyRows (left : List UInt64)
    (hroom : ∀ i, right.length ≤ i → limbs.getD i 0 = 0) :
    limbsValue (multiplyRows left right limbs) =
      limbsValue left * limbsValue right + limbsValue limbs := by
  induction left generalizing limbs with
  | nil => simp [multiplyRows]
  | cons word rest ih =>
    simp only [multiplyRows]
    generalize hadded : multiplyRow word right limbs 0 = added
    have hv : limbsValue added = word.toNat * limbsValue right + limbsValue limbs := by
      rw [← hadded]
      exact limbsValue_multiplyRow (by decide) (hroom _ (le_refl _))
    have hroom' : ∀ i, right.length ≤ i → added.tail.getD i 0 = 0 := by
      intro i hi
      have hkept : added.getD (i + 1) 0 = limbs.getD (i + 1) 0 := by
        rw [← hadded]
        exact getD_multiplyRow (Nat.lt_succ_of_le hi)
      rw [hroom (i + 1) (Nat.le_succ_of_le hi)] at hkept
      cases added with
      | nil => rfl
      | cons first added => exact hkept
    rw [limbsValue_cons, ih hroom', limbsValue_cons]
    calc (added.headD 0).toNat + limbBase *
            (limbsValue rest * limbsValue right + limbsValue added.tail)
        = ((added.headD 0).toNat + limbBase * limbsValue added.tail) +
            limbBase * (limbsValue rest * limbsValue right) := by ring
      _ = _ := by
          rw [← limbsValue_headD_tail added, hv]
          ring

/-! ## Division by a limb -/

/-- The pass keeps the residual below the divisor, so that each quotient is one word. -/
theorem divideLimbs_spec {divisor : UInt64} (hpos : 0 < divisor.toNat) (limbs : List UInt64) :
    limbsValue limbs =
        divisor.toNat * limbsValue (divideLimbs divisor limbs).1 + (divideLimbs divisor limbs).2 ∧
      (divideLimbs divisor limbs).2 < divisor.toNat := by
  induction limbs with
  | nil => exact ⟨by simp [divideLimbs], hpos⟩
  | cons limb higher ih =>
    obtain ⟨hv, hless⟩ := ih
    simp only [divideLimbs]
    generalize (divideLimbs divisor higher).1 = quotient at hv ⊢
    generalize (divideLimbs divisor higher).2 = residual at hv hless ⊢
    have hd : divisor.toNat < limbBase := divisor.toNat_lt
    have hlimb : limb.toNat < 2 ^ 64 := limb.toNat_lt
    have hcur : u128 (residual <<< 64) ||| limb.toNat = limbBase * residual + limb.toNat := by
      rw [u128_of_lt, ← Nat.shiftLeft_add_eq_or_of_lt hlimb, Nat.shiftLeft_eq, mul_comm]
      simp only [limbBase] at hd
      omega
    rw [hcur]
    generalize hwide : limbBase * residual + limb.toNat = cur
    have hword : cur / divisor.toNat < limbBase := by
      rw [Nat.div_lt_iff_lt_mul hpos, ← hwide]
      have hmul := Nat.mul_le_mul_left limbBase (Nat.succ_le_of_lt hless)
      simp only [limbBase] at hmul ⊢
      omega
    refine ⟨?_, Nat.mod_lt _ hpos⟩
    rw [limbsValue_cons, limbsValue_cons, toNat_lowLimb_of_lt hword, hv]
    calc limb.toNat + limbBase * (divisor.toNat * limbsValue quotient + residual)
        = divisor.toNat * (limbBase * limbsValue quotient) +
            (limbBase * residual + limb.toNat) := by ring
      _ = divisor.toNat * (limbBase * limbsValue quotient) +
            (divisor.toNat * (cur / divisor.toNat) + cur % divisor.toNat) := by
          rw [hwide, Nat.div_add_mod]
      _ = _ := by ring

/-! ## Long division -/

theorem toNat_lt_two_pow_leadingZeros (limb : UInt64) : limb.toNat < 2 ^
    (64 - leadingZeros limb) := by
  rw [leadingZeros]
  split_ifs with hz
  · rw [hz]
    decide
  · have hne : limb.toNat ≠ 0 := fun h => hz (UInt64.toNat_inj.mp h)
    have hlog : limb.toNat.log2 < 64 := (Nat.log2_lt hne).mpr limb.toNat_lt
    have hbits : 64 - (63 - limb.toNat.log2) = limb.toNat.log2 + 1 := by omega
    rw [hbits]
    exact Nat.lt_log2_self

theorem limbsValue_lt_bitLength (limbs : List UInt64) :
    limbsValue limbs < 2 ^ bitLengthOf limbs := by
  rcases eq_nil_or_concat limbs with rfl | ⟨rest, high, rfl⟩
  · decide
  · rw [concat_eq_append]
    simp only [bitLengthOf, getLast?_concat, length_append, length_singleton,
      Nat.add_sub_cancel]
    have hhigh := Nat.succ_le_of_lt (toNat_lt_two_pow_leadingZeros high)
    have hrest := limbsValue_lt rest
    have hbase : 2 ^ (rest.length * 64) = limbBase ^ rest.length := by
      rw [← pow_mul, mul_comm]
    rw [pow_add, hbase, limbsValue_append, limbsValue_cons, limbsValue_nil, Nat.mul_zero,
      add_zero]
    have hmul := Nat.mul_le_mul_left (limbBase ^ rest.length) hhigh
    rw [Nat.mul_succ] at hmul
    omega

theorem bitLengthOf_le (limbs : List UInt64) : bitLengthOf limbs ≤ limbs.length * 64 := by
  rcases eq_nil_or_concat limbs with rfl | ⟨rest, high, rfl⟩
  · decide
  · rw [concat_eq_append]
    simp only [bitLengthOf, getLast?_concat, length_append, length_singleton]
    omega

/-- A doubled word takes the carry in its lowest bit and gives up its highest one. -/
theorem shiftLeft_or_carry (limb : UInt64) {carry : UInt64} (hcarry : carry.toNat ≤ 1) :
    (limb <<< 1 ||| carry).toNat + limbBase * (limb >>> 63).toNat =
      2 * limb.toNat + carry.toNat := by
  have hcarry' : carry.toNat < 2 ^ 1 := by omega
  have hlow : limb.toNat <<< 1 % 2 ^ 64 = (limb.toNat % 2 ^ 63) <<< 1 := by
    omega
  rw [UInt64.toNat_or, UInt64.toNat_shiftLeft, UInt64.toNat_shiftRight]
  simp only [Nat.reduceMod, UInt64.reduceToNat]
  rw [hlow, ← Nat.shiftLeft_add_eq_or_of_lt hcarry']
  simp only [limbBase]
  omega

theorem shiftRight_le_one (limb : UInt64) : (limb >>> 63).toNat ≤ 1 := by
  have hlt := limb.toNat_lt
  rw [UInt64.toNat_shiftRight]
  simp only [UInt64.reduceToNat, Nat.reduceMod]
  omega

theorem limbsValue_shiftLeftOne (limbs : List UInt64) {carry : UInt64} (hcarry : carry.toNat ≤ 1) :
    limbsValue (shiftLeftOne limbs carry) = 2 * limbsValue limbs + carry.toNat := by
  induction limbs generalizing carry with
  | nil =>
    simp only [shiftLeftOne]
    split_ifs with hz
    · simp
    · rw [Decidable.not_not.mp hz]
      rfl
  | cons limb rest ih =>
    have hword := shiftLeft_or_carry limb hcarry
    simp only [shiftLeftOne]
    rw [limbsValue_cons, limbsValue_cons, ih (shiftRight_le_one limb)]
    calc (limb <<< 1 ||| carry).toNat + limbBase * (2 * limbsValue rest + (limb >>> 63).toNat)
        = ((limb <<< 1 ||| carry).toNat + limbBase * (limb >>> 63).toNat) +
            2 * (limbBase * limbsValue rest) := by ring
      _ = _ := by
          rw [hword]
          ring

theorem shiftLeftOne_ne_nil (hne : limbs ≠ []) (carry : UInt64) :
    shiftLeftOne limbs carry ≠ [] := by
  cases limbs with
  | nil => exact absurd rfl hne
  | cons limb rest => exact cons_ne_nil _ _

/-- The last word stays or moves on. -/
theorem canonical_shiftLeftOne (h : CanonicalLimbs limbs) {carry : UInt64}
    (hcarry : carry.toNat ≤ 1) :
    CanonicalLimbs (shiftLeftOne limbs carry) := by
  induction limbs generalizing carry with
  | nil =>
    simp only [shiftLeftOne]
    split_ifs with hne
    · intro hl
      exact hne (Option.some.inj hl)
    · exact h
  | cons limb rest ih =>
    simp only [shiftLeftOne]
    by_cases hrest : shiftLeftOne rest (limb >>> 63) = []
    · -- the word is the last one and gives nothing up
      rw [hrest]
      intro hl
      have hword := shiftLeft_or_carry limb hcarry
      have hcarries := limbsValue_shiftLeftOne rest (shiftRight_le_one limb)
      rw [hrest, limbsValue_nil] at hcarries
      rw [getLast?_singleton] at hl
      have hkept : (limb >>> 63).toNat = 0 := by omega
      rw [Option.some.inj hl, UInt64.toNat_zero, hkept, Nat.mul_zero] at hword
      have hz : limb.toNat = 0 := by omega
      have hnil : rest = [] := by
        by_contra hne
        exact shiftLeftOne_ne_nil hne _ hrest
      subst hnil
      exact h (congrArg some (UInt64.toNat_inj.mp hz))
    · have htail := ih h.tail (shiftRight_le_one limb)
      rw [CanonicalLimbs, getLast?_cons_of_ne_nil hrest]
      exact htail

/-- The lowest bit of an even number. -/
theorem limbsValue_setLowBit (heven : limbsValue limbs % 2 = 0) :
    limbsValue (setLowBit limbs) = limbsValue limbs + 1 := by
  cases limbs with
  | nil => rfl
  | cons limb rest =>
    have heven' : limb.toNat = (limb.toNat / 2) <<< 1 := by
      rw [limbsValue_cons] at heven
      simp only [limbBase] at heven
      omega
    have hor : (limb ||| 1).toNat = limb.toNat + 1 := by
      rw [UInt64.toNat_or, UInt64.toNat_one, heven',
        ← Nat.shiftLeft_add_eq_or_of_lt (by decide : 1 < 2 ^ 1)]
    simp only [setLowBit]
    rw [limbsValue_cons, limbsValue_cons, hor]
    ring

theorem canonical_setLowBit (h : CanonicalLimbs limbs) : CanonicalLimbs (setLowBit limbs) := by
  rcases limbs with _ | ⟨limb, _ | ⟨next, rest⟩⟩
  · decide
  · intro hl
    rw [setLowBit] at hl
    have hz := congrArg UInt64.toNat (Option.some.inj hl)
    have hbit := congrArg (fun n => n.testBit 0) hz
    simp at hbit
  · simp only [setLowBit]
    exact h.tail

theorem toNat_one_shiftLeft {k : Nat} (hk : k < 64) :
    ((1 : UInt64) <<< UInt64.ofNat k).toNat = 2 ^ k := by
  have hpow : 2 ^ k < 2 ^ 64 := Nat.pow_lt_pow_right (by decide) hk
  rw [UInt64.toNat_shiftLeft, UInt64.toNat_one, UInt64.toNat_ofNat', Nat.one_shiftLeft,
    Nat.mod_eq_of_lt (by omega : k < 2 ^ 64), Nat.mod_eq_of_lt hk, Nat.mod_eq_of_lt hpow]

theorem bitIsSet_eq (limbs : List UInt64) (idx : Nat) :
    bitIsSet limbs idx = (limbsValue limbs).testBit idx := by
  rw [testBit_limbsValue, bitIsSet]
  generalize limbs.getD (idx / 64) 0 = limb
  have hbit : idx % 64 < 64 := Nat.mod_lt _ (by decide)
  have hz : limb &&& (1 <<< UInt64.ofNat (idx % 64)) = 0 ↔ limb.toNat &&& 2 ^ (idx % 64) = 0 := by
    rw [← UInt64.toNat_inj, UInt64.toNat_and, toNat_one_shiftLeft hbit, UInt64.toNat_zero]
  have hand : limb.toNat &&& 2 ^ (idx % 64) = 0 ↔ limb.toNat.testBit (idx % 64) = false := by
    constructor
    · intro hz
      have hbit := congrArg (fun n => n.testBit (idx % 64)) hz
      simpa using hbit
    · intro hclear
      apply Nat.eq_of_testBit_eq
      intro i
      rw [Nat.testBit_and, Nat.testBit_two_pow, Nat.zero_testBit]
      by_cases hi : idx % 64 = i
      · rw [← hi, hclear, Bool.false_and]
      · rw [decide_eq_false hi, Bool.and_false]
  cases hset : limb.toNat.testBit (idx % 64) with
  | false => exact decide_eq_false (fun hne => hne (hz.mpr (hand.mpr hset)))
  | true =>
    apply decide_eq_true
    intro h
    rw [hand.mp (hz.mp h)] at hset
    cases hset

theorem setBit_length (limbs : List UInt64) (idx : Nat) :
    (setBit limbs idx).length = limbs.length := length_modify _ _ _

variable {idx : Nat}

theorem limbsValue_setBit (hroom : idx / 64 < limbs.length) :
    limbsValue (setBit limbs idx) = limbsValue limbs ||| 2 ^ idx := by
  apply Nat.eq_of_testBit_eq
  intro i
  have hbit : idx % 64 < 64 := Nat.mod_lt _ (by decide)
  rw [Nat.testBit_or, testBit_limbsValue, testBit_limbsValue, Nat.testBit_two_pow]
  by_cases hword : i / 64 = idx / 64
  · have hroom' : i / 64 < limbs.length := by omega
    have hget : (setBit limbs idx).getD (i / 64) 0 =
        limbs.getD (i / 64) 0 ||| (1 <<< UInt64.ofNat (idx % 64)) := by
      rw [getD_eq_getElem?_getD, getD_eq_getElem?_getD, setBit, getElem?_modify,
        getElem?_eq_getElem hroom']
      simp only [hword, if_true, Option.map_eq_map, Option.map_some, Option.getD_some]
    rw [hget, UInt64.toNat_or, Nat.testBit_or, toNat_one_shiftLeft hbit, Nat.testBit_two_pow]
    congr 1
    rw [decide_eq_decide]
    omega
  · have hget : (setBit limbs idx).getD (i / 64) 0 = limbs.getD (i / 64) 0 := by
      rw [getD_eq_getElem?_getD, setBit, getElem?_modify]
      simp [Ne.symm hword]
    have hne : idx ≠ i := by
      rintro rfl
      exact hword rfl
    rw [hget, decide_eq_false hne, Bool.or_false]

/-- What the long division has found when the bits from `index` on are done. -/
structure DividedFrom (dividend divisor : List UInt64) (index : Nat)
    (state : List UInt64 × List UInt64) : Prop where
  quotient : limbsValue state.1 = ((limbsValue dividend >>> index) / limbsValue divisor) <<< index
  residual : limbsValue state.2 = (limbsValue dividend >>> index) % limbsValue divisor
  canonical : CanonicalLimbs state.2
  room : state.1.length = dividend.length

/-- One more bit of a number at its lower end. -/
theorem shiftRight_eq_succ (n idx : Nat) :
    n >>> idx = 2 * (n >>> (idx + 1)) + (n.testBit idx).toNat := by
  rw [Nat.shiftRight_succ, Nat.testBit_eq_decide_div_mod_eq, ← Nat.shiftRight_eq_div_pow]
  generalize n >>> idx = m
  by_cases hodd : m % 2 = 1
  · rw [decide_eq_true hodd, Bool.toNat_true]
    omega
  · rw [decide_eq_false hodd, Bool.toNat_false]
    omega

/-- The residual with the next bit of the dividend brought down. -/
theorem limbsValue_broughtDown (dividend residual : List UInt64) (idx : Nat) :
    limbsValue (if bitIsSet dividend idx then setLowBit (shiftLeftOne residual 0)
        else shiftLeftOne residual 0) =
      2 * limbsValue residual + ((limbsValue dividend).testBit idx).toNat := by
  have hshift := limbsValue_shiftLeftOne residual (by decide : (0 : UInt64).toNat ≤ 1)
  rw [UInt64.toNat_zero] at hshift
  rw [bitIsSet_eq]
  cases (limbsValue dividend).testBit idx with
  | false => exact hshift
  | true =>
    rw [if_pos rfl, limbsValue_setLowBit (by omega), hshift]
    rfl

theorem canonical_broughtDown {residual : List UInt64} (h : CanonicalLimbs residual) (bit : Bool) :
    CanonicalLimbs (if bit then setLowBit (shiftLeftOne residual 0)
      else shiftLeftOne residual 0) := by
  have hshift := canonical_shiftLeftOne h (by decide : (0 : UInt64).toNat ≤ 1)
  cases bit with
  | false => exact hshift
  | true => exact canonical_setLowBit hshift

variable {dividend divisor : List UInt64} {st : List UInt64 × List UInt64}

theorem DividedFrom.divideBit (h : DividedFrom dividend divisor (idx + 1) st) (hdivisor :
    CanonicalLimbs divisor) (hpos : 0 < limbsValue divisor) (hroom : idx / 64 < dividend.length) :
    DividedFrom dividend divisor idx (divideBit dividend divisor idx st) := by
  have hdown := limbsValue_broughtDown dividend st.2 idx
  have hcanon := canonical_broughtDown h.canonical (bitIsSet dividend idx)
  have hbits := shiftRight_eq_succ (limbsValue dividend) idx
  have hquot := h.quotient
  rw [h.residual] at hdown
  simp only [TachyonEngine.Vm.divideBit]
  generalize (if bitIsSet dividend idx then setLowBit (shiftLeftOne st.2 0)
    else shiftLeftOne st.2 0) = residual at hdown hcanon ⊢
  -- the quotient and the residual of the higher bits
  generalize limbsValue dividend >>> (idx + 1) = high at hdown hbits hquot
  have hbit := Bool.toNat_le ((limbsValue dividend).testBit idx)
  generalize ((limbsValue dividend).testBit idx).toNat = bit at hdown hbits hbit
  have hlow : limbsValue dividend >>> idx =
      limbsValue divisor * (2 * (high / limbsValue divisor)) + limbsValue residual := by
    rw [hbits, hdown]
    have hdm := Nat.div_add_mod high (limbsValue divisor)
    calc 2 * high + bit
        = 2 * (limbsValue divisor * (high / limbsValue divisor) + high % limbsValue divisor) +
            bit := by rw [hdm]
      _ = _ := by ring
  have hshifted : (high / limbsValue divisor) <<< (idx + 1) =
      (2 * (high / limbsValue divisor)) <<< idx := by
    rw [Nat.shiftLeft_eq, Nat.shiftLeft_eq]
    ring
  rw [magnitudeCmp_eq hcanon hdivisor]
  split_ifs with hge
  · have hle : limbsValue divisor ≤ limbsValue residual := by
      by_contra hlt
      exact hge (Nat.compare_eq_lt.mpr (not_le.mp hlt))
    have hlen : divisor.length ≤ residual.length := by
      by_contra hlt
      have hless := hdivisor.value_lt_of_length_lt (not_le.mp hlt)
      omega
    have hless : limbsValue residual - limbsValue divisor < limbsValue divisor := by
      have hmod := Nat.mod_lt high hpos
      omega
    have hone : limbsValue dividend >>> idx =
        limbsValue divisor * (2 * (high / limbsValue divisor) + 1) +
          (limbsValue residual - limbsValue divisor) := by
      rw [mul_add]
      omega
    have hdiv : (limbsValue dividend >>> idx) / limbsValue divisor =
        2 * (high / limbsValue divisor) + 1 := by
      rw [hone, Nat.mul_add_div hpos, Nat.div_eq_of_lt hless]
    constructor
    · have hroom' : idx / 64 < st.1.length := by rw [h.room]; exact hroom
      rw [limbsValue_setBit hroom', hquot, hdiv,
        ← Nat.shiftLeft_add_eq_or_of_lt (Nat.pow_lt_pow_right (by decide) (Nat.lt_succ_self idx)),
        hshifted, Nat.shiftLeft_eq, Nat.shiftLeft_eq]
      ring
    · rw [limbsValue_trimLimbs, limbsValue_subtractLimbs_of_le hlen hle, hone,
        Nat.mul_add_mod, Nat.mod_eq_of_lt hless]
    · exact canonical_trimLimbs _
    · rw [setBit_length]
      exact h.room
  · have hless : limbsValue residual < limbsValue divisor :=
      Nat.compare_eq_lt.mp (Decidable.not_not.mp hge)
    constructor
    · rw [hquot, hlow, Nat.mul_add_div hpos, Nat.div_eq_of_lt hless]
      exact hshifted
    · rw [hlow, Nat.mul_add_mod, Nat.mod_eq_of_lt hless]
    · exact hcanon
    · exact h.room

theorem DividedFrom.divideBits (h : DividedFrom dividend divisor cnt st) (hdivisor : CanonicalLimbs
    divisor) (hpos : 0 < limbsValue divisor) (hroom : cnt ≤ dividend.length * 64) :
    DividedFrom dividend divisor 0 (divideBits dividend divisor cnt st) := by
  induction cnt generalizing st with
  | zero => exact h
  | succ idx ih =>
    apply ih
    · apply h.divideBit hdivisor hpos
      omega
    · omega

/-- The long division of all bits. -/
theorem divideBits_spec (dividend divisor : List UInt64) (hdivisor : CanonicalLimbs divisor)
    (hpos : 0 < limbsValue divisor) :
    DividedFrom dividend divisor 0 (divideBits dividend divisor (bitLengthOf dividend)
      (List.replicate dividend.length 0, [])) := by
  have hz : limbsValue dividend >>> bitLengthOf dividend = 0 := by
    rw [Nat.shiftRight_eq_div_pow, Nat.div_eq_of_lt (limbsValue_lt_bitLength dividend)]
  refine DividedFrom.divideBits ?_ hdivisor hpos (bitLengthOf_le dividend)
  constructor
  · rw [hz, Nat.zero_div, Nat.zero_shiftLeft]
    exact limbsValue_replicate_zero _
  · rw [hz]
    rfl
  · exact nofun
  · exact length_replicate

/-! ## Two's complement -/

theorem limbsValue_complement (limbs : List UInt64) :
    limbsValue (limbs.map fun limb => ~~~limb) + limbsValue limbs + 1 =
    limbBase ^ limbs.length := by
  induction limbs with
  | nil => rfl
  | cons limb rest ih =>
    have hlt : limb.toNat < limbBase := limb.toNat_lt
    have hword : (~~~limb).toNat + limb.toNat + 1 = limbBase := by
      rw [UInt64.toNat_not]
      simp only [limbBase, UInt64.size] at hlt ⊢
      omega
    rw [map_cons, limbsValue_cons, length_cons, pow_succ, ← ih]
    generalize limbsValue (rest.map fun limb => ~~~limb) = complement
    calc (~~~limb).toNat + limbBase * complement + (limb.toNat + limbBase * limbsValue rest) + 1
        = ((~~~limb).toNat + limb.toNat + 1) + limbBase * (complement + limbsValue rest) := by ring
      _ = _ := by
          rw [hword]
          ring

theorem limbsValue_addOneInPlace (limbs : List UInt64) :
    limbsValue (addOneInPlace limbs) = (limbsValue limbs + 1) % limbBase ^ limbs.length := by
  induction limbs with
  | nil => rfl
  | cons limb rest ih =>
    have hlt : limb.toNat < limbBase := limb.toNat_lt
    have hrest := limbsValue_lt rest
    have hword : (limb + 1).toNat = (limb.toNat + 1) % limbBase := UInt64.toNat_add limb 1
    simp only [addOneInPlace]
    rw [length_cons, pow_succ, mul_comm]
    split_ifs with hover
    · -- the word overflows: the carry goes on
      rw [hover, UInt64.toNat_zero] at hword
      have hmax : limb.toNat + 1 = limbBase := by
        simp only [limbBase] at hlt hword ⊢
        omega
      have hsum : limbsValue (limb :: rest) + 1 = limbBase * (limbsValue rest + 1) := by
        rw [limbsValue_cons, ← hmax]
        ring
      rw [limbsValue_cons, ih, hsum, Nat.mul_mod_mul_left, UInt64.toNat_zero, zero_add]
    · have hne : (limb + 1).toNat ≠ 0 := fun h => hover (UInt64.toNat_inj.mp h)
      have hless : limb.toNat + 1 < limbBase := by
        simp only [limbBase] at hlt hword ⊢
        omega
      rw [Nat.mod_eq_of_lt hless] at hword
      have hmul := Nat.mul_le_mul_left limbBase (Nat.succ_le_of_lt hrest)
      rw [Nat.mul_succ] at hmul
      have hsum : limbsValue (limb :: rest) + 1 < limbBase * limbBase ^ rest.length := by
        rw [limbsValue_cons]
        omega
      rw [Nat.mod_eq_of_lt hsum, limbsValue_cons, limbsValue_cons, hword]
      ring

theorem limbsValue_negateLimbs (hpos : 0 < limbsValue limbs) :
    limbsValue (negateLimbs limbs) + limbsValue limbs = limbBase ^ limbs.length := by
  have hcomplement := limbsValue_complement limbs
  rw [negateLimbs, limbsValue_addOneInPlace, length_map, Nat.mod_eq_of_lt (by omega)]
  omega

theorem addOneInPlace_length (limbs : List UInt64) :
    (addOneInPlace limbs).length = limbs.length := by
  induction limbs with
  | nil => rfl
  | cons limb rest ih =>
    simp only [addOneInPlace]
    split
    · rw [length_cons, length_cons, ih]
    · rfl

theorem negateLimbs_length (limbs : List UInt64) : (negateLimbs limbs).length = limbs.length := by
  rw [negateLimbs, addOneInPlace_length, length_map]

end TachyonEngine.Vm
