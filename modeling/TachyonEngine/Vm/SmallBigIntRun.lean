import TachyonEngine.Vm.BigIntSizeLimit
import TachyonEngine.Vm.SmallBigIntOrder

/-!
# The immediate path and the general path

Operands of one word never make the general path fail for want of room: it gives the integer of the
operation unless the memory for its words is refused. The checked arithmetic of the immediate path
gives the same integer.
-/

namespace TachyonEngine.Vm

open BigIntValue Option

open Bytecode (Opcode)
open Lib Lib.Capacity BigIntHeap

namespace BigIntValue

/-! ## Operands of one word -/

/-- The only error of a computation is a refused request for memory. -/
abbrev OnlyRefused {α : Type} (run : Arithmetic α) : Prop :=
  Delivers (fun _ => True) (fun error => error = BigIntArithmeticError.allocationFailed)
    (fun _ => True) run

/-- A computation gives a canonical value of an integer, unless memory is refused. -/
abbrev Gives (n : Int) (run : Arithmetic BigIntValue) : Prop :=
  Delivers (fun _ => True) (fun error => error = BigIntArithmeticError.allocationFailed)
    (Denotes n) run

variable {refused : Prop}

theorem onlyRefused_of_refuses {α : Type} {holds : α → Prop} {run : Arithmetic α} (h : ∀ asked,
    Limited asked refused holds run) (hroom : ¬ refused) : OnlyRefused run :=
  fun st _ => ((h st.refuses st rfl).imp_error fun _ he =>
    (he.resolve_right fun hlong => hroom hlong.2).1).imp fun _ _ => ⟨trivial, trivial⟩

theorem Sized.onlyRefused {estimate : Prop} {exact : Int → Prop} {run : Arithmetic BigIntValue} (h :
    Sized refused estimate exact run) (hroom : ¬ refused) : OnlyRefused run :=
  onlyRefused_of_refuses h.delivers hroom

theorem onlyRefused_zeroedLimbs {length : Nat} (h : length ≤ 4) :
    OnlyRefused (zeroedLimbs length) := by
  refine onlyRefused_of_refuses (fun _ => delivers_zeroedLimbs id) ?_
  have hroom : 4 ≤ resultLimbs := by decide
  omega

section OneWord

variable {left right : BigIntValue}

theorem within_of_length {val : BigIntValue} (h : val.limbs.length ≤ 1) : Within val.toInt :=
  within_of_lt _ (natAbs_toInt_lt val h) (by decide)

section

variable (hleft : left.limbs.length ≤ 1)

include hleft

theorem onlyRefused_add (hl : left.Canonical) (hr : right.Canonical)
    (hright : right.limbs.length ≤ 1) :
    OnlyRefused (left.add right) := by
  refine Sized.onlyRefused (sized_add hl hr (within_of_length hleft) (within_of_length hright)) ?_
  have hroom : 4 ≤ resultLimbs := by decide
  rw [sumLimbs]
  split <;> omega

theorem onlyRefused_multiply (hl : left.Canonical) (hr : right.Canonical)
    (hright : right.limbs.length ≤ 1) : OnlyRefused (left.multiply right) := by
  refine Sized.onlyRefused (sized_multiply hl hr) ?_
  have hroom : 4 ≤ resultLimbs := by decide
  rw [productLimbs]
  split <;> omega

omit hleft in
theorem onlyRefused_divideMagnitudeByLimb {m : List UInt64} (hm : m.length ≤ 1) (divisor : UInt64) :
    OnlyRefused (divideMagnitudeByLimb m divisor) :=
  Delivers.bind (onlyRefused_zeroedLimbs (by omega)) fun _ _ => Delivers.pure trivial

theorem onlyRefused_divideOrRemainder (hr : right.limbs.length ≤ 1) (hne : right.isZero = false)
    (remainder : Bool) : OnlyRefused (left.divideOrRemainder right remainder) := by
  have hword : ∃ divisor, right.limbs = [divisor] := by
    rw [isZero] at hne
    rcases hls : right.limbs with _ | ⟨divisor, _ | ⟨high, rest⟩⟩
    · rw [hls] at hne
      cases hne
    · exact ⟨divisor, rfl⟩
    · rw [hls] at hr
      exact absurd hr (by simp)
  obtain ⟨divisor, hdivisor⟩ := hword
  rw [divideOrRemainder, hne, if_neg Bool.false_ne_true, hdivisor]
  split
  · exact Delivers.pure trivial
  · split
    · split
      · exact Delivers.pure trivial
      · exact Delivers.pure trivial
    · refine Delivers.bind (onlyRefused_divideMagnitudeByLimb hleft divisor) ?_
      rintro ⟨quotient, residual⟩ -
      cases remainder with
      | true | false => exact Delivers.pure trivial

theorem onlyRefused_bitwise (hl : left.Canonical) (hr : right.Canonical)
    (hright : right.limbs.length ≤ 1) (op : BitwiseOpcode) :
    OnlyRefused (left.bitwise right op) := by
  refine Sized.onlyRefused (sized_bitwise hl hr op) ?_
  have hroom : 4 ≤ resultLimbs := by decide
  rw [bitwiseLimbs]
  omega

omit hleft in
theorem bitLength_le_of_length (h : left.limbs.length ≤ 1) : left.bitLength ≤ 64 := by
  have hle := bitLengthOf_le left.limbs
  rw [bitLength]
  omega

theorem onlyRefused_shiftRightArithmetic (shift : Nat) :
    OnlyRefused (left.shiftRightArithmetic shift) := by
  simp only [shiftRightArithmetic]
  split
  · exact Delivers.pure trivial
  · exact Delivers.bind (onlyRefused_zeroedLimbs (by omega)) fun _ _ => Delivers.pure trivial

/-- A shift of one word fails only for memory when it moves bits up by less than a word. -/
theorem onlyRefused_shift {cnt : BigIntValue} (hl : left.Canonical) (hc : cnt.Canonical) (up : Bool)
    (hup : 0 ≤ placesUp cnt.toInt up → cnt.toInt.natAbs < 64) :
    OnlyRefused (left.shift cnt up) := by
  by_cases hplaces : 0 ≤ placesUp cnt.toInt up
  · refine Sized.onlyRefused (sized_shift hl hc (within_of_length hleft) up hplaces) ?_
    rintro ⟨-, -, hlong⟩
    have hbits := bitLength_le_of_length hleft
    have hroom : 4 ≤ resultLimbs := by decide
    have hroom' : 128 ≤ maxResultBits := by decide
    rw [ShiftTooLong, shiftedLimbs] at hlong
    split at hlong <;> omega
  · simp only [shift]
    split
    · exact Delivers.pure trivial
    · split
      next hdirection =>
        refine absurd ?_ hplaces
        rw [hc.negative_eq] at hdirection
        rw [placesUp]
        cases up with
        | false =>
          simp only [Bool.false_bne, decide_eq_true_eq] at hdirection
          simp only [Bool.false_eq_true, if_false]
          omega
        | true => simpa using hdirection
      · split
        · exact Delivers.pure trivial
        · exact onlyRefused_shiftRightArithmetic hleft _

end

end OneWord

/-! ## Powers of one word -/

/-- A power that fits in one word fails only for memory. -/
theorem onlyRefused_exponentiate {base exponent : BigIntValue} (hbase : base.Canonical)
    (hexp : exponent.Canonical) (hsign : 0 ≤ exponent.toInt)
    (hfits : (base.toInt ^ exponent.toInt.toNat).natAbs < 2 ^ 64) :
    OnlyRefused (base.exponentiate exponent) := by
  refine Sized.onlyRefused (sized_exponentiate hbase hexp hsign) ?_
  rintro ⟨hbig, hlong⟩
  have hroom : 64 * 64 ≤ maxResultBits - 64 := by decide
  rw [Int.natAbs_pow] at hfits
  by_cases hz : exponent.toInt.toNat = 0
  · rw [hz] at hlong
    omega
  · have hpow := Nat.pow_le_pow_left hbig exponent.toInt.toNat
    have hshort : exponent.toInt.toNat < 64 :=
      (Nat.pow_lt_pow_iff_right (by decide)).mp (lt_of_le_of_lt hpow hfits)
    have hbits := bitLength_le_of_length
      (hbase.length_le_one (lt_of_le_of_lt (Nat.le_self_pow hz _) hfits))
    have hestimate := mul_le_mul hbits hshort.le
    omega

/-- A value of one word has no words for a carry to get lost in. -/
theorem not_losesCarry_of_length {val : BigIntValue} (h : val.limbs.length ≤ 1) (shift : Nat) :
    ¬ val.LosesCarry shift := by
  intro hloses
  obtain ⟨limb, hm, -⟩ := hloses.dropped
  have hshort := hloses.short
  have hn : shift / 64 = 0 := by omega
  rw [hn] at hm
  cases hm

end BigIntValue

open BigIntValue (Denotes Gives placesUp moved denotes_fromI64)

/-! ## The immediate path -/

variable {n k : Int}

theorem checkedI64_eq_some (h : checkedI64 n = some k) : k = n ∧ -2 ^ 63 ≤ n ∧ n < 2 ^ 63 := by
  rw [checkedI64] at h
  split at h
  · next hrange => exact ⟨(some.inj h).symm, hrange⟩
  · cases h

theorem u32TryFrom_eq_some {n k : Nat} (h : u32TryFrom n = some k) : k = n := by
  rw [u32TryFrom] at h
  split at h
  · exact (some.inj h).symm
  · cases h

variable {val : Int}

/-- A right shift of an immediate. -/
theorem shifted_down (hv : IsSmall val) (magnitude : Nat) :
    (if 64 ≤ magnitude then if val < 0 then -1 else 0 else val >>> magnitude) =
      val / 2 ^ magnitude := by
  split
  next hlarge =>
    have hpow : (2 : Int) ^ 64 ≤ 2 ^ magnitude := pow_le_pow_right₀ (by decide) hlarge
    rw [isSmall_iff] at hv
    split
    · symm
      rw [Int.ediv_eq_iff_of_pos (by omega)]
      omega
    · exact (Int.ediv_eq_zero_of_lt (by omega) (by omega)).symm
  · rw [Int.shiftRight_eq_div_pow]
    norm_cast

variable {cnt : Int} {left : Bool}

/-- The one left shift whose factor has left the word. -/
theorem smallBigintShift_eq {res : Int} (hv : IsSmall val) (h : smallBigintShift val cnt left = some
    res) : (0 ≤ placesUp cnt left → cnt.natAbs < 64) ∧
      (val = 1 ∧ placesUp cnt left = 63 ∧ res = -2 ^ 63 ∨ res = moved val (placesUp cnt left)) := by
  have hdirection : (left != decide (cnt < 0)) = true ↔ 0 < placesUp cnt left ∨ cnt = 0 ∧ left := by
    rw [placesUp]
    cases left with
    | false => simp
    | true =>
      simp only [Bool.true_bne, Bool.not_eq_true', decide_eq_false_iff_not, if_true, and_true]
      omega
  have hplaces : (placesUp cnt left).natAbs = cnt.natAbs := by
    rw [placesUp]
    split
    · rfl
    · exact Int.natAbs_neg _
  simp only [smallBigintShift] at h
  split at h
  next hdown =>
    have hdown' : placesUp cnt left ≤ 0 := by
      by_contra hup
      exact hdown (hdirection.mpr (.inl (by omega)))
    refine ⟨fun hz => by omega, .inr ?_⟩
    rw [← some.inj h, shifted_down hv, moved]
    split
    · rw [show cnt.natAbs = 0 by omega, show (placesUp cnt left).toNat = 0 by omega]
      simp
    · rw [show (-placesUp cnt left).toNat = cnt.natAbs by omega]
  next hup =>
    have hup' : 0 ≤ placesUp cnt left := by
      rcases hdirection.mp (Decidable.not_not.mp hup) with h | h
      · omega
      · omega
    split at h
    · cases h
    next shift hshift =>
      rw [u32TryFrom_eq_some hshift] at h
      obtain ⟨factor, hfactor, hprod⟩ := bind_eq_some_iff.mp h
      rw [checkedShlI64] at hfactor
      split at hfactor
      next hc =>
        refine ⟨fun _ => hc, ?_⟩
        obtain ⟨hres, hmin, hmax⟩ := checkedI64_eq_some hprod
        rw [moved, if_pos hup', show (placesUp cnt left).toNat = cnt.natAbs by omega]
        rw [← some.inj hfactor, Int.one_mul] at hres hmin hmax
        rcases lt_or_ge cnt.natAbs 63 with hless | hge
        · right
          have hpow : (2 : Int) ^ cnt.natAbs ≤ 2 ^ 62 := pow_le_pow_right₀ (by decide) (by omega)
          have hpos : (0 : Int) < 2 ^ cnt.natAbs := by positivity
          rw [hres, Int.bmod_eq_of_le (by omega) (by omega)]
        · have hl : cnt.natAbs = 63 := by omega
          rw [hl] at hres hmin hmax ⊢
          have hwrapped : ((2 : Int) ^ 63).bmod (2 ^ 64) = -2 ^ 63 := by decide
          rw [hwrapped] at hres hmin hmax
          have hbit : val = 0 ∨ val = 1 := by omega
          rcases hbit with hz | hone
          · right
            rw [hres, hz]
            rfl
          · left
            exact ⟨hone, by omega, by rw [hres, hone]; rfl⟩
      · cases hfactor

/-- A refused request: for the words of the result, or for its cell. -/
def Refusal (error : BigIntError) : Prop :=
  error = .arithmetic .allocationFailed ∨ ∃ refusal, error = .heapAllocation refusal

/-- The general path on immediates computes with their words and publishes the result. -/
def PublishesRun (opcode : Opcode) (m n : Int) (run : Arithmetic BigIntValue) : Prop :=
  BigIntHeap.bigintBinaryOperation opcode (.smallBigint m) (.smallBigint n) = (do
    let result ← BigIntHeap.arithmetic run
    BigIntHeap.allocateBigint result)

variable {heap : BigIntHeap} {m : Int}

theorem publishes_binaryOperation (hheap : heap.Canonical) {op : Opcode} {run : Arithmetic
    BigIntValue} (hrun : PublishesRun op m n run) (hgives : Gives k run) :
    Meets Refusal (fun res => BigIntHeap.Publishes k res.1 res.2)
      (bigintBinaryOperation op (.smallBigint m) (.smallBigint n) heap) := by
  rw [hrun]
  have hwords := hgives heap.allocator trivial
  have harithmetic : Meets Refusal
      (fun res => Denotes k res.1 ∧ res.2.Canonical) (arithmetic run heap) := by
    rw [arithmetic]
    cases hres : run heap.allocator with
    | error err =>
      rw [hres] at hwords
      exact .inl (congrArg BigIntError.arithmetic hwords)
    | ok res =>
      rw [hres] at hwords
      exact ⟨hwords.1, hheap⟩
  refine Meets.bind harithmetic ?_
  rintro ⟨bigint, heap'⟩ ⟨hdenotes, hcanon⟩
  exact (allocateBigint_publishes hcanon hdenotes).imp_error fun _ => .inr

section Operands

variable {m n k : Int}

theorem gives_shift (hm : IsSmall m) (hn : IsSmall n) (left : Bool)
    (hup : 0 ≤ placesUp n left → n.natAbs < 64) :
    Gives (moved m (placesUp n left)) ((fromI64 m).shift (.fromI64 n) left) := by
  have hleft := denotes_fromI64 hm.natAbs_lt
  have hr := denotes_fromI64 hn.natAbs_lt
  have hlen := hleft.1.length_le_one (by rw [hleft.2]; exact hm.natAbs_lt)
  have hcomputes := computes_shift hleft.1 hr.1 left
    (le_trans (bitLength_le_of_length hlen) (by decide))
    fun _ => not_losesCarry_of_length hlen _
  rw [hleft.2, hr.2] at hcomputes
  refine Delivers.of_yields (onlyRefused_shift hlen hleft.1 hr.1 left ?_) hcomputes
  rw [hr.2]
  exact hup

/-- What the immediate path computes before it is published is what the general path computes. -/
theorem gives_of_hot {op : Opcode} {v : Value} (hm : IsSmall m) (hn : IsSmall n)
    (h : smallBigintBinaryHot op (.smallBigint m) (.smallBigint n) = some v) :
    ∃ k run, IsSmall k ∧ v = .smallBigint k ∧ PublishesRun op m n run ∧ Gives k run := by
  have hleft := denotes_fromI64 hm.natAbs_lt
  have hright := denotes_fromI64 hn.natAbs_lt
  have hl := hleft.1.length_le_one (by rw [hleft.2]; exact hm.natAbs_lt)
  have hr := hright.1.length_le_one (by rw [hright.2]; exact hn.natAbs_lt)
  obtain ⟨k, hk, hv⟩ := bind_eq_some_iff.mp
    (show (smallBigintResult op m n).bind Value.fromSmallBigint = some v from h)
  rw [fromSmallBigint_eq] at hv
  split at hv
  next hsm =>
    refine ⟨k, ?_⟩
    have hexact := arithmetic_exact hleft.1 hright.1
    rw [hleft.2, hright.2] at hexact
    obtain ⟨hadd, hsub, hmul, hdiv, hrem, hpow, hbits, -⟩ := hexact
    have hv' : v = .smallBigint k := (some.inj hv).symm
    have hnonzero : n ≠ 0 → (fromI64 n).isZero = false := by
      intro hne
      rw [Bool.eq_false_iff, Ne, hright.1.isZero_iff, hright.2]
      exact hne
    -- the wrapped shift does not have 48 bits
    have hshift : ∀ left, smallBigintShift m n left = some k →
        (0 ≤ placesUp n left → n.natAbs < 64) ∧ k = moved m (placesUp n left) := by
      intro left hk
      obtain ⟨hup, ⟨-, -, hwrapped⟩ | hmoved⟩ := smallBigintShift_eq hm hk
      · rw [hwrapped] at hsm
        exact absurd hsm (by decide)
      · exact ⟨hup, hmoved⟩
    rw [smallBigintResult.eq_def] at hk
    split at hk
    · rw [(checkedI64_eq_some hk).1] at hsm hv' ⊢
      exact ⟨_, hsm, hv', rfl, Delivers.of_yields (onlyRefused_add hl hleft.1 hright.1 hr) hadd⟩
    · rw [(checkedI64_eq_some hk).1] at hsm hv' ⊢
      have hnegated := hright.negate
      have hword := hnegated.1.length_le_one
        (by rw [hnegated.2, Int.natAbs_neg]; exact hn.natAbs_lt)
      exact ⟨_, hsm, hv', rfl, Delivers.of_yields (onlyRefused_add hl hleft.1 hnegated.1
        hword) hsub⟩
    · rw [(checkedI64_eq_some hk).1] at hsm hv' ⊢
      exact ⟨_, hsm, hv', rfl, Delivers.of_yields (onlyRefused_multiply hl hleft.1 hright.1
        hr) hmul⟩
    · rw [checkedDivI64] at hk
      split_ifs at hk with hne
      rw [(checkedI64_eq_some hk).1] at hsm hv' ⊢
      exact ⟨_, hsm, hv', rfl, Delivers.of_yields
        (onlyRefused_divideOrRemainder hl hr (hnonzero hne) false) hdiv⟩
    · split at hk
      next hne =>
        rw [← some.inj hk] at hsm hv' ⊢
        exact ⟨_, hsm, hv', rfl, Delivers.of_yields
          (onlyRefused_divideOrRemainder hl hr (hnonzero hne) true) hrem⟩
      · cases hk
    · split at hk
      next hsign =>
        obtain ⟨exponent, hexp, hpower⟩ := bind_eq_some_iff.mp hk
        rw [u32TryFrom_eq_some hexp] at hpower
        obtain ⟨rfl, hmin, hmax⟩ := checkedI64_eq_some hpower
        refine ⟨_, hsm, hv', rfl, Delivers.of_yields
          (onlyRefused_exponentiate hleft.1 hright.1 ?_ ?_) hpow⟩
        · rw [hright.2]
          exact hsign
        · rw [hleft.2, hright.2]
          omega
      · cases hk
    · rw [← some.inj hk] at hsm hv' ⊢
      exact ⟨_, hsm, hv', rfl, Delivers.of_yields (onlyRefused_bitwise hl hleft.1 hright.1 hr _)
        (hbits _)⟩
    · rw [← some.inj hk] at hsm hv' ⊢
      exact ⟨_, hsm, hv', rfl, Delivers.of_yields (onlyRefused_bitwise hl hleft.1 hright.1 hr _)
        (hbits _)⟩
    · rw [← some.inj hk] at hsm hv' ⊢
      exact ⟨_, hsm, hv', rfl, Delivers.of_yields (onlyRefused_bitwise hl hleft.1 hright.1 hr _)
        (hbits _)⟩
    · obtain ⟨hup, hmoved⟩ := hshift true hk
      rw [hmoved] at hsm hv' ⊢
      exact ⟨_, hsm, hv', rfl, gives_shift hm hn true hup⟩
    · obtain ⟨hup, hmoved⟩ := hshift false hk
      rw [hmoved] at hsm hv' ⊢
      exact ⟨_, hsm, hv', rfl, gives_shift hm hn false hup⟩
    · cases hk
  · cases hv

end Operands

/-! ## Agreement -/

/-- A result of the immediate shift is the integer of which the general shift gives a value. -/
def ShiftAgrees (value count : Int) (left : Bool) : Prop :=
  ∀ heap : BigIntHeap, heap.Canonical → ∀ result, smallBigintShift value count left = some result →
    Meets Refusal (fun published => published.2.Represents published.1 result)
      (BigIntHeap.bigintBinaryOperation (if left then .shiftLeft else .shiftRight)
        (.smallBigint value) (.smallBigint count) heap)

theorem publishesRun_shift (m n : Int) (left : Bool) :
    PublishesRun (if left then .shiftLeft else .shiftRight) m n
      ((fromI64 m).shift (.fromI64 n) left) := by
  cases left with
  | false | true => rfl

/-- A heap without cells, whose requests are granted. -/
def grantingHeap : BigIntHeap where
  cells := fun _ => none
  allocator := .granting
  answers := fun _ => .ok (⟨0, Gc.firstOffset⟩, fun _ => true)
  requests := 0

theorem canonical_grantingHeap : grantingHeap.Canonical :=
  fun _ _ hcell => nomatch hcell

theorem BigIntHeap.Represents.unique {val : Value} (hm : heap.Represents val m) (hn :
    heap.Represents val n) : m = n := by
  cases hm with
  | immediate _ =>
    cases hn with
    | immediate _ => rfl
  | cell hcell _ =>
    cases hn with
    | cell hcell' _ => rw [some.inj (hcell.symm.trans hcell')]

/-- A shift into the sign of the machine word has the wrong sign. -/
theorem not_shiftAgrees (hplaces : placesUp cnt left = 63) : ¬ ShiftAgrees 1 cnt left := by
  have hc : cnt = (if left then 63 else -63) := by
    rw [placesUp] at hplaces
    split at hplaces
    · next h => rw [if_pos h, hplaces]
    next h =>
      rw [if_neg h]
      omega
  have hsm : IsSmall cnt := by
    rw [hc]
    cases left <;> decide
  have hwrapped : smallBigintShift 1 cnt left = some (-2 ^ 63) := by
    rw [hc]
    cases left <;> decide
  have hruns : ∃ published, bigintBinaryOperation (if left then .shiftLeft else .shiftRight)
      (.smallBigint 1) (.smallBigint cnt) grantingHeap = .ok published := by
    rw [hc]
    cases left with
    | false | true => exact ⟨_, rfl⟩
  have hexact := gives_shift (m := 1) (by decide) hsm left fun _ => by
    rw [hc]
    cases left <;> decide
  intro hagrees
  obtain ⟨published, hpublished⟩ := hruns
  have hwrong := (hagrees grantingHeap canonical_grantingHeap _ hwrapped).of_ok hpublished
  have hr := ((publishes_binaryOperation canonical_grantingHeap (publishesRun_shift 1 cnt left)
    hexact).of_ok hpublished).represents
  rw [hplaces] at hr
  exact absurd (hwrong.unique hr) (by decide)

theorem shiftAgrees_iff (hv : IsSmall val) (hc : IsSmall cnt) (left : Bool) :
    ShiftAgrees val cnt left ↔ ¬ (val = 1 ∧ placesUp cnt left = 63) := by
  constructor
  · rintro hagrees ⟨rfl, hplaces⟩
    exact not_shiftAgrees hplaces hagrees
  · intro hword heap hheap res hres
    obtain ⟨hup, ⟨hone, hplaces, -⟩ | hmoved⟩ := smallBigintShift_eq hv hres
    · exact absurd ⟨hone, hplaces⟩ hword
    · have hgives := gives_shift hv hc left hup
      rw [← hmoved] at hgives
      exact (publishes_binaryOperation hheap (publishesRun_shift val cnt left) hgives).imp
        fun _ h => h.represents

/-- The immediate representation and the immediate path against the general ones. -/
structure ImmediatesAgree (heap : BigIntHeap) : Prop where
  /-- A BigInt is an immediate exactly when its integer has 48 bits. -/
  allocates : ∀ {bigint : BigIntValue}, bigint.Canonical →
    Meets Refusal (fun published => BigIntHeap.Publishes bigint.toInt published.1 published.2)
      (BigIntHeap.allocateBigint bigint heap)
  /-- What the immediate path gives, the general path gives too. -/
  hot : ∀ {opcode : Opcode} {m n : Int} {v : Value}, IsSmall m → IsSmall n →
    smallBigintBinaryHot opcode (.smallBigint m) (.smallBigint n) = some v →
    Meets Refusal (fun published => published.1 = v ∧
        ∃ k, Value.fromSmallBigint k = some v ∧ BigIntHeap.Publishes k published.1 published.2)
      (BigIntHeap.bigintBinaryOperation opcode (.smallBigint m) (.smallBigint n) heap)
  /-- Equality and order are those of the integers. -/
  compares : ∀ {left right : Value} {m n : Int}, heap.Represents left m → heap.Represents right n →
    heap.bigintEqual left right = .ok (decide (m = n)) ∧
      heap.bigintCompare left right = .ok (compare m n)

theorem immediatesAgree (hheap : heap.Canonical) : ImmediatesAgree heap where
  allocates := fun hcanon =>
    (allocateBigint_publishes hheap hcanon.denotes).imp_error fun _ => .inr
  hot := by
    intro op m n v hm hn hhot
    obtain ⟨k, run, hk, rfl, hrun, hgives⟩ := gives_of_hot hm hn hhot
    refine (publishes_binaryOperation hheap hrun hgives).imp fun published hpublished => ?_
    exact ⟨hpublished.value_eq hk, k, by rw [fromSmallBigint_eq, if_pos hk], hpublished⟩
  compares := fun hleft hr =>
    ⟨bigintEqual_eq hleft hr, bigintCompare_eq hleft hr⟩

/-- The two representations and the two paths agree, and the immediate shift does up to the shift of
one into the sign of the machine word. -/
theorem immediates_agree {heap : BigIntHeap} (hheap : heap.Canonical) {val cnt : Int}
    (hv : IsSmall val) (hc : IsSmall cnt) (left : Bool) : ImmediatesAgree heap ∧
      (ShiftAgrees val cnt left ↔ ¬ (val = 1 ∧ placesUp cnt left = 63)) :=
  ⟨immediatesAgree hheap, shiftAgrees_iff hv hc left⟩

theorem immediates_agree_atTheEdge :
    ImmediatesAgree grantingHeap ∧ ShiftAgrees 1 62 true ∧
      smallBigintShift 1 62 true = some (2 ^ 62) ∧
      smallBigintBinaryHot .add (.smallBigint smallBigintMax) (.smallBigint 1) = none := by
  obtain ⟨hagree, hshift⟩ := immediates_agree canonical_grantingHeap (by decide : IsSmall 1)
    (by decide : IsSmall 62) true
  exact ⟨hagree, hshift.mpr (by decide), by decide, by decide⟩

/-- One is shifted into the sign of the machine word. -/
theorem shift_intoSign : smallBigintShift 1 63 true = some (-2 ^ 63) ∧ ¬ ShiftAgrees 1 63 true :=
  ⟨by decide, not_shiftAgrees rfl⟩

end TachyonEngine.Vm
