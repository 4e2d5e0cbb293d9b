import TachyonEngine.Vm.ExactSumRounding

/-!
# `Math.sumPrecise` is exact

`PreciseSum` says what a sum of doubles is: NaN, an infinity, negative zero, or the double nearest
to the exact sum. The accumulator gives it in whatever order the doubles come, as long as their
number leaves every sum a place in the accumulator.
-/

namespace TachyonEngine.Vm

open Lib List
open BigIntValue (signed)

namespace ExactSumAccumulator

/-! ## Doubles as bits -/

/-- The index of the magnitude of a double. -/
def magnitudeIndex (bits : UInt64) : Nat := bits.toNat % 2 ^ 63

def isNegative (bits : UInt64) : Bool := decide (2 ^ 63 ≤ bits.toNat)

def IsNaN (bits : UInt64) : Prop := infinityIndex < magnitudeIndex bits

def IsFinite (bits : UInt64) : Prop := magnitudeIndex bits < infinityIndex

instance (bits : UInt64) : Decidable (IsNaN bits) := inferInstanceAs (Decidable (_ < _))

instance (bits : UInt64) : Decidable (IsFinite bits) := inferInstanceAs (Decidable (_ < _))

/-- The value of a finite double, in units of the smallest positive one. -/
def units (bits : UInt64) : Int := signed (isNegative bits) (gridUnits 52 (magnitudeIndex bits))

/-- The exact sum of finite doubles. -/
def exactSum (numbers : List UInt64) : Int := (numbers.map units).sum

/-- The infinity of a sign. -/
def infinityOf (negative : Bool) : UInt64 := if negative then negInfinityBits else infinityBits

/-- What the sum of doubles is. -/
inductive PreciseSum (numbers : List UInt64) : UInt64 → Prop
  | nan (h : (∃ x ∈ numbers, IsNaN x) ∨ ∀ negative, infinityOf negative ∈ numbers) :
      PreciseSum numbers nanBits
  | infinity {negative : Bool} (hnan : ∀ x ∈ numbers, ¬ IsNaN x)
      (hm : infinityOf negative ∈ numbers)
      (hnot : infinityOf (!negative) ∉ numbers) : PreciseSum numbers (infinityOf negative)
  | minusZero (h : ∀ x ∈ numbers, x = minusZeroBits) : PreciseSum numbers minusZeroBits
  | nearest (hfin : ∀ x ∈ numbers, IsFinite x) (ho : ∃ x ∈ numbers, x ≠ minusZeroBits)
      {index : Nat} (h : RoundsTo (gridUnits 52) infinityIndex (exactSum numbers).natAbs index) :
      PreciseSum numbers (withSign (decide (exactSum numbers < 0)) index)

variable {numbers : List UInt64}

theorem PreciseSum.perm {order : List UInt64} {res : UInt64} (h : PreciseSum numbers res) (hperm :
    numbers.Perm order) : PreciseSum order res := by
  have hsum : exactSum order = exactSum numbers := (hperm.map units).sum_eq.symm
  have hm : ∀ x, x ∈ order ↔ x ∈ numbers := fun x => hperm.mem_iff.symm
  cases h with
  | nan h => exact .nan (by simpa only [hm] using h)
  | infinity hnan hin hnot =>
    exact .infinity (by simpa only [hm] using hnan) ((hm _).mpr hin) (by rwa [hm])
  | minusZero h => exact .minusZero (by simpa only [hm] using h)
  | nearest hfin ho h =>
    rw [← hsum] at h ⊢
    exact .nearest (by simpa only [hm] using hfin) (by simpa only [hm] using ho) h

/-! ## The fields of a double -/

theorem classify (bits : UInt64) : IsNaN bits ∨ (∃ neg, bits = infinityOf neg) ∨ IsFinite bits := by
  have hlt := bits.toNat_lt
  rw [show (∃ neg, bits = infinityOf neg) ↔ bits = infinityBits ∨ bits = negInfinityBits by
    simp [infinityOf]]
  simp only [IsNaN, IsFinite, magnitudeIndex, infinityIndex, ← UInt64.toNat_inj,
    show infinityBits.toNat = 0x7ff * 2 ^ 52 by decide, show negInfinityBits.toNat = 0xfff *
      2 ^ 52 by decide]
  omega

theorem fields_eq (bits : UInt64) : ((bits >>> 52) &&& 0x7ff).toNat = magnitudeIndex bits / 2 ^ 52 ∧
      (bits &&& (bit 52 - 1)).toNat = magnitudeIndex bits % 2 ^ 52 ∧
      decide (bits >>> 63 ≠ 0) = isNegative bits := by
  refine ⟨?_, ?_, ?_⟩
  · rw [UInt64.toNat_and, UInt64.toNat_shiftRight, show (0x7ff : UInt64).toNat =
      2 ^ 11 - 1 by decide,
      Nat.and_two_pow_sub_one_eq_mod, show (52 : UInt64).toNat % 64 = 52 by decide, magnitudeIndex]
    omega
  · rw [toNat_and_lowBits bits (by decide), magnitudeIndex]
    omega
  · rw [isNegative, decide_eq_decide, Ne, ← UInt64.toNat_inj, UInt64.toNat_shiftRight,
      show (63 : UInt64).toNat % 64 = 63 by decide, UInt64.toNat_zero]
    omega

/-- The significand of a double above the subnormal ones. -/
theorem toNat_significand (bits : UInt64) :
    ((bits &&& (bit 52 - 1)) ||| bit 52).toNat = 2 ^ 52 + magnitudeIndex bits % 2 ^ 52 := by
  have hless : magnitudeIndex bits % 2 ^ 52 < 2 ^ 52 := Nat.mod_lt _ (by decide)
  have hor := Nat.shiftLeft_add_eq_or_of_lt hless 1
  rw [Nat.shiftLeft_eq, one_mul] at hor
  rw [UInt64.toNat_or, (fields_eq bits).2.1, toNat_bit (by decide), Nat.or_comm, ← hor]

variable {bits : UInt64}

variable {acc : ExactSumAccumulator}

theorem add_nan (h : IsNaN bits) : acc.add bits = some { acc with state := .nan } := by
  obtain ⟨hexp, hsig, -⟩ := fields_eq bits
  have hlt : magnitudeIndex bits < 2 ^ 63 := Nat.mod_lt _ (by decide)
  have hall : ((bits >>> 52) &&& 0x7ff).toNat = 0x7ff := by
    simp only [IsNaN, infinityIndex] at h
    omega
  have hpay : bits &&& (bit 52 - 1) ≠ 0 := by
    rw [Ne, ← UInt64.toNat_inj, UInt64.toNat_zero]
    simp only [IsNaN, infinityIndex] at h
    omega
  rw [add]
  simp only [hall, if_true, addNonFinite, if_pos (Or.inl hpay)]

theorem add_infinity (acc : ExactSumAccumulator) (neg : Bool) :
    acc.add (infinityOf neg) = some (acc.addNonFinite neg 0) := by
  cases neg <;> rfl

theorem add_zero (h : magnitudeIndex bits = 0) :
    acc.add bits = some (if acc.state = .minusZero ∧ ¬ isNegative bits then { acc with state :=
    .finite }
      else acc) := by
  obtain ⟨hexp, hsig, hneg⟩ := fields_eq bits
  rw [h] at hexp hsig
  have hz : bits &&& (bit 52 - 1) = 0 := UInt64.toNat_inj.mp hsig
  rw [add]
  simp only [hexp, hz, hneg]
  rfl

/-- A finite double other than zero is added as a significand of 53 bits at its place. -/
theorem accumulates_add (hsound : acc.Sound) (hst : isSpecial acc.state = false) (hfin : IsFinite
    bits) (hne : magnitudeIndex bits ≠ 0) : Accumulates acc.limbs (units bits) (acc.add bits) := by
  obtain ⟨hexp, hsig, hneg⟩ := fields_eq bits
  simp only [IsFinite, infinityIndex] at hfin
  have hspecial : ¬ ((bits >>> 52) &&& 0x7ff).toNat = 0x7ff := by
    omega
  rw [add]
  simp only [if_neg hspecial, hneg]
  rw [hexp]
  by_cases hsubnormal : magnitudeIndex bits / 2 ^ 52 = 0
  · have hpay : bits &&& (bit 52 - 1) ≠ 0 := by
      rw [Ne, ← UInt64.toNat_inj, UInt64.toNat_zero]
      omega
    have hbits : (bits &&& (bit 52 - 1)).toNat < 2 ^ 53 := by omega
    have haccumulates := accumulates_addSignificand hsound hst (isNegative bits) hbits
      (by decide : 0 < 32) (by decide : 0 < 64)
    rw [if_pos hsubnormal, if_neg hpay, units, gridUnits, if_pos hsubnormal, ← hsig]
    simpa using haccumulates
  · have hleading := toNat_significand bits
    have hbits : ((bits &&& (bit 52 - 1)) ||| bit 52).toNat < 2 ^ 53 := by omega
    have hpos : (magnitudeIndex bits / 2 ^ 52 - 1) / 64 < 32 := by omega
    have haccumulates := accumulates_addSignificand hsound hst (isNegative bits) hbits hpos
      (Nat.mod_lt (magnitudeIndex bits / 2 ^ 52 - 1) (by decide : 0 < 64))
    rw [if_neg hsubnormal, units, gridUnits, if_neg hsubnormal, ← hleading]
    rwa [Nat.div_add_mod] at haccumulates

/-- A special state is not changed by finite doubles. -/
theorem add_special (hst : isSpecial acc.state = true) (hfin : IsFinite bits) :
    acc.add bits = some acc := by
  obtain ⟨hexp, -, -⟩ := fields_eq bits
  have hspecial : ¬ ((bits >>> 52) &&& 0x7ff).toNat = 0x7ff := by
    simp only [IsFinite, infinityIndex] at hfin
    omega
  have hsig : ∀ neg significand pos shift,
      acc.addSignificand neg significand pos shift = some acc := by
    intro neg significand pos shift
    rw [addSignificand, if_pos hst]
  have hst' : acc.state ≠ .minusZero := by
    intro h
    rw [h] at hst
    cases hst
  rw [add]
  simp only [if_neg hspecial, hsig, if_neg (fun h : acc.state = .minusZero ∧ _ => hst' h.1)]
  split
  · split
    · rfl
    · rfl
  · rfl

/-! ## The state of the sum -/

theorem exactSum_concat (numbers : List UInt64) (x : UInt64) :
    exactSum (numbers ++ [x]) = exactSum numbers + units x := by
  simp [exactSum]

/-- The state of an infinity. -/
def stateOf (negative : Bool) : ExactSumState := if negative then .minusInfinity else .plusInfinity

/-- The accumulator behind doubles that were added. -/
inductive Tracks (numbers : List UInt64) (acc : ExactSumAccumulator) : Prop
  | nan (hst : acc.state = .nan)
      (h : (∃ x ∈ numbers, IsNaN x) ∨ ∀ negative, infinityOf negative ∈ numbers)
  | infinity {negative : Bool} (hst : acc.state = stateOf negative)
      (hnan : ∀ x ∈ numbers, ¬ IsNaN x)
      (hm : infinityOf negative ∈ numbers) (hnot : infinityOf (!negative) ∉ numbers)
  | minusZero (hst : acc.state = .minusZero) (h : ∀ x ∈ numbers, x = minusZeroBits)
      (hsum : signedValue acc.limbs = 0)
  | finite (hst : acc.state = .finite) (hfin : ∀ x ∈ numbers, IsFinite x)
      (ho : ∃ x ∈ numbers, x ≠ minusZeroBits) (hsum : signedValue acc.limbs = exactSum numbers)

/-- A finite double is none of the special ones. -/
theorem IsFinite.not_special (h : IsFinite bits) : ¬ IsNaN bits ∧ ∀ neg, bits ≠ infinityOf neg := by
  constructor
  · simp only [IsFinite, IsNaN] at h ⊢
    omega
  · rintro neg rfl
    cases neg with
    | false | true => exact absurd h (by decide)

theorem finite_of_minusZero (h : ∀ x ∈ numbers, x = minusZeroBits) : ∀ x ∈ numbers, IsFinite x := by
  intro x hx
  rw [h x hx]
  decide

theorem exactSum_of_minusZero (h : ∀ x ∈ numbers, x = minusZeroBits) : exactSum numbers = 0 := by
  apply sum_eq_zero
  intro n hn
  obtain ⟨x, hx, rfl⟩ := mem_map.mp hn
  rw [h x hx]
  decide

theorem forall_mem_concat {holds : UInt64 → Prop} {x : UInt64} (h : ∀ y ∈ numbers, holds y) (hx :
    holds x) : ∀ y ∈ numbers ++ [x], holds y := by
  exact forall_mem_append.mpr ⟨h, forall_mem_singleton.mpr hx⟩

section Steps

variable {numbers : List UInt64} {acc : ExactSumAccumulator}

variable {x : UInt64}

theorem tracks_nan (hx : IsNaN x) : Tracks (numbers ++ [x]) { acc with state := .nan } :=
  .nan rfl (.inl ⟨x, by simp, hx⟩)

/-- What is added to NaN is NaN. -/
theorem nan_concat (x : UInt64) (h : (∃ x ∈ numbers, IsNaN x) ∨ ∀ neg, infinityOf neg ∈ numbers) :
    (∃ y ∈ numbers ++ [x], IsNaN y) ∨ ∀ neg, infinityOf neg ∈ numbers ++ [x] := by
  rcases h with ⟨y, hy, hnan⟩ | h
  · exact .inl ⟨y, mem_append_left _ hy, hnan⟩
  · exact .inr fun neg => mem_append_left _ (h neg)

theorem tracks_infinity (h : Tracks numbers acc) (neg : Bool) :
    Tracks (numbers ++ [infinityOf neg]) (acc.addNonFinite neg 0) := by
  have hm : infinityOf neg ∈ numbers ++ [infinityOf neg] := by simp
  have hnotNaN : ¬ IsNaN (infinityOf neg) := by cases neg <;> decide
  have hdiff : infinityOf (!neg) ≠ infinityOf neg := by cases neg <;> decide
  -- the first infinity behind finite doubles
  have hfirst : (∀ x ∈ numbers, IsFinite x) → isSpecial acc.state = false →
      Tracks (numbers ++ [infinityOf neg]) (acc.addNonFinite neg 0) := by
    intro hfin hst
    refine .infinity ?_ (forall_mem_concat (fun x hx => (hfin x hx).not_special.1) hnotNaN) hm ?_
    · cases hcase : acc.state <;> simp_all [addNonFinite, isSpecial, stateOf]
    · intro ho
      rcases mem_append.mp ho with ho | ho
      · exact (hfin _ ho).not_special.2 _ rfl
      · exact hdiff (mem_singleton.mp ho)
  cases h with
  | nan hst h => exact .nan (by simp [addNonFinite, hst]) (nan_concat _ h)
  | @infinity sign hst hnan hin hnot =>
    by_cases hs : sign = neg
    · rw [hs] at hst hnot
      refine .infinity ?_ (forall_mem_concat hnan hnotNaN) hm ?_
      · cases neg <;> simp [addNonFinite, hst, stateOf]
      · intro ho
        rcases mem_append.mp ho with ho | ho
        · exact hnot ho
        · exact hdiff (mem_singleton.mp ho)
    · refine .nan ?_ (.inr ?_)
      · cases neg <;> cases sign <;> simp_all [addNonFinite, stateOf]
      · intro other
        by_cases ho : other = neg
        · rw [ho]
          exact hm
        · have heq : other = sign := by cases neg <;> cases sign <;> cases other <;> simp_all
          rw [heq]
          exact mem_append_left _ hin
  | minusZero hst h _ => exact hfirst (finite_of_minusZero h) (by rw [hst]; rfl)
  | finite hst hfin _ _ => exact hfirst hfin (by rw [hst]; rfl)

/-- A finite double behind a NaN or an infinity. -/
theorem tracks_special (h : Tracks numbers acc) (hst : isSpecial acc.state = true)
    (hx : IsFinite x) :
    Tracks (numbers ++ [x]) acc := by
  cases h with
  | nan hcase h => exact .nan hcase (nan_concat x h)
  | infinity hcase hnan hin hnot =>
    refine .infinity hcase (forall_mem_concat hnan hx.not_special.1) (mem_append_left _ hin) ?_
    intro ho
    rcases mem_append.mp ho with ho | ho
    · exact hnot ho
    · exact hx.not_special.2 _ (mem_singleton.mp ho).symm
  | minusZero hcase _ _ | finite hcase _ _ _ =>
    rw [hcase] at hst
    cases hst

/-- The sum of finite doubles is in the words. -/
theorem Tracks.sum (h : Tracks numbers acc) (hst : isSpecial acc.state = false) :
    signedValue acc.limbs = exactSum numbers ∧ ∀ x ∈ numbers, IsFinite x := by
  cases h with
  | nan hcase _ =>
    rw [hcase] at hst
    cases hst
  | @infinity sign hcase _ _ _ =>
    rw [hcase] at hst
    cases sign <;> cases hst
  | minusZero _ h hsum => exact ⟨hsum.trans (exactSum_of_minusZero h).symm, finite_of_minusZero h⟩
  | finite _ hfin _ hsum => exact ⟨hsum, hfin⟩

/-- What one addition leaves: the sum of one more double, or no accumulator where this sum has no
place. -/
def Adds (numbers : List UInt64) : Option ExactSumAccumulator → Prop
  | some acc => acc.Sound ∧ Tracks numbers acc
  | none => (∀ x ∈ numbers, IsFinite x) ∧ ¬ HasPlace (exactSum numbers)

theorem adds_finite (hsound : acc.Sound) (h : Tracks numbers acc)
    (hst : isSpecial acc.state = false) (hx : IsFinite x) : Adds (numbers ++ [x]) (acc.add x) := by
  obtain ⟨hsum, hfin⟩ := h.sum hst
  have hall := forall_mem_concat hfin hx
  by_cases hz : magnitudeIndex x = 0
  · have hunits : units x = 0 := by
      rw [units, hz]
      cases isNegative x <;> rfl
    have hsum' : signedValue acc.limbs = exactSum (numbers ++ [x]) := by
      rw [exactSum_concat, hunits, Int.add_zero, hsum]
    rw [add_zero hz]
    by_cases hplus : acc.state = .minusZero ∧ ¬ isNegative x
    · rw [if_pos hplus]
      refine ⟨⟨hsound.nonempty, hsound.room⟩, .finite rfl hall ⟨x, by simp, ?_⟩ hsum'⟩
      rintro rfl
      exact hplus.2 (by decide)
    · rw [if_neg hplus]
      refine ⟨hsound, ?_⟩
      cases h with
      | minusZero hcase h' hv =>
        refine .minusZero hcase (forall_mem_concat h' ?_) hv
        have hneg : isNegative x = true := by
          by_contra hnot
          exact hplus ⟨hcase, hnot⟩
        rw [isNegative, decide_eq_true_iff] at hneg
        have hlt := x.toNat_lt
        apply UInt64.toNat_inj.mp
        rw [show minusZeroBits.toNat = 2 ^ 63 by decide]
        simp only [magnitudeIndex] at hz
        omega
      | finite hcase _ ho _ =>
        obtain ⟨y, hy, hne⟩ := ho
        exact .finite hcase hall ⟨y, mem_append_left _ hy, hne⟩ hsum'
      | nan hcase _ =>
        rw [hcase] at hst
        cases hst
      | @infinity sign hcase _ _ _ =>
        rw [hcase] at hst
        cases sign <;> cases hst
  · have haccumulates := accumulates_add hsound hst hx hz
    cases hrun : acc.add x with
    | none =>
      rw [hrun] at haccumulates
      refine ⟨hall, ?_⟩
      rw [exactSum_concat, ← hsum]
      exact haccumulates
    | some next =>
      rw [hrun] at haccumulates
      obtain ⟨hsound', hst', hv⟩ := haccumulates
      refine ⟨hsound', .finite hst' hall ⟨x, by simp, ?_⟩ ?_⟩
      · rintro rfl
        exact hz (by decide)
      · rw [hv, hsum, exactSum_concat]

theorem adds_add (hsound : acc.Sound) (h : Tracks numbers acc) (x : UInt64) :
    Adds (numbers ++ [x]) (acc.add x) := by
  rcases classify x with hnan | ⟨neg, rfl⟩ | hfin
  · rw [add_nan hnan]
    exact ⟨⟨hsound.nonempty, hsound.room⟩, tracks_nan hnan⟩
  · rw [add_infinity]
    refine ⟨?_, tracks_infinity h neg⟩
    rw [addNonFinite]
    split
    · exact ⟨hsound.nonempty, hsound.room⟩
    · exact ⟨hsound.nonempty, hsound.room⟩
  · cases hst : isSpecial acc.state with
    | false => exact adds_finite hsound h hst hfin
    | true =>
      rw [add_special hst hfin]
      exact ⟨hsound, tracks_special h hst hfin⟩

end Steps

/-! ## Whole runs -/

theorem sound_new : new.Sound := ⟨by decide, by decide⟩

theorem tracks_new : Tracks [] new := .minusZero rfl (by simp) (by decide)

theorem addAll_concat (acc : ExactSumAccumulator) (numbers : List UInt64) (x : UInt64) :
    acc.addAll (numbers ++ [x]) = (acc.addAll numbers).bind fun next => next.add x := by
  simp only [addAll, foldlM_append, foldlM_cons, foldlM_nil, bind_pure]
  rfl

/-- Whatever a run leaves is the sum of the doubles. -/
theorem tracks_of_addAll (numbers : List UInt64) :
    ∀ {acc : ExactSumAccumulator}, new.addAll numbers = some acc → acc.Sound ∧
    Tracks numbers acc := by
  induction numbers using reverseRecOn with
  | nil =>
    intro acc hrun
    rw [← Option.some.inj hrun]
    exact ⟨sound_new, tracks_new⟩
  | append_singleton numbers x ih =>
    intro acc hrun
    rw [addAll_concat] at hrun
    obtain ⟨pre, hb, hl⟩ := Option.bind_eq_some_iff.mp hrun
    obtain ⟨hsound, htracks⟩ := ih hb
    have hadds := adds_add hsound htracks x
    rw [hl] at hadds
    exact hadds

/-- A run ends early only where the sum of some first doubles has no place. -/
theorem addAll_isSome (numbers : List UInt64)
    (hplace : ∀ first, first <+: numbers → (∀ x ∈ first, IsFinite x) → HasPlace (exactSum first)) :
    ∃ acc, new.addAll numbers = some acc := by
  induction numbers using reverseRecOn with
  | nil => exact ⟨new, rfl⟩
  | append_singleton numbers x ih =>
    obtain ⟨pre, hb⟩ := ih fun first hfirst =>
      hplace first (hfirst.trans (prefix_append numbers [x]))
    obtain ⟨hsound, htracks⟩ := tracks_of_addAll numbers hb
    have hadds := adds_add hsound htracks x
    rw [addAll_concat, hb, Option.bind_some]
    cases hrun : pre.add x with
    | some acc => exact ⟨acc, rfl⟩
    | none =>
      rw [hrun] at hadds
      exact absurd (hplace _ (prefix_refl _) hadds.1) hadds.2

/-! ## Room for the sums -/

/-- The largest finite magnitude. -/
def largestUnits : Nat := (2 ^ 53 - 1) * 2 ^ 2045

theorem gridUnits_largest : gridUnits 52 (infinityIndex - 1) = largestUnits := by
  have hi : infinityIndex - 1 = 2045 * 2 ^ 52 + (2 ^ 53 - 1) := by decide
  rw [hi]
  exact gridUnits_normalized 52 2045 (by decide) (by decide)

theorem gridUnits_le {idx : Nat} (h : idx < infinityIndex) : gridUnits 52 idx ≤ largestUnits := by
  rw [← gridUnits_largest]
  exact (gridUnits_strictMono 52).monotone (Nat.le_pred_of_lt h)

theorem natAbs_units_le (h : IsFinite bits) : (units bits).natAbs ≤ largestUnits := by
  have hle := gridUnits_le h
  have hnatAbs : (units bits).natAbs = gridUnits 52 (magnitudeIndex bits) := by
    rw [units]
    cases isNegative bits with
    | false => exact Int.natAbs_natCast _
    | true =>
      simp only [signed, if_true]
      rw [Int.natAbs_neg, Int.natAbs_natCast]
  rw [hnatAbs]
  exact hle

theorem natAbs_exactSum_le (h : ∀ x ∈ numbers, IsFinite x) :
    (exactSum numbers).natAbs ≤ numbers.length * largestUnits := by
  induction numbers with
  | nil => simp [exactSum]
  | cons x rest ih =>
    have hhead := natAbs_units_le (h x mem_cons_self)
    have htail := ih fun y hy => h y (mem_cons_of_mem x hy)
    have hsum : exactSum (x :: rest) = units x + exactSum rest := by simp [exactSum]
    rw [hsum, length_cons, add_mul, one_mul]
    omega

/-- As many doubles as always leave their sum a place. -/
def roomyLength : Nat := 2 ^ 77 + 2 ^ 24

theorem hasPlace_iff (n : Int) :
    HasPlace n ↔ -((2 ^ 130 * 2 ^ 2045 : Nat) : Int) ≤ n ∧ n < (2 ^ 130 * 2 ^ 2045 : Nat) := by
  rw [← pow_add]
  rfl

theorem hasPlace_of_length (hlen : numbers.length ≤ roomyLength) (hfin : ∀ x ∈ numbers, IsFinite x)
    : HasPlace (exactSum numbers) := by
  have hle := le_trans (natAbs_exactSum_le hfin) (Nat.mul_le_mul_right _ hlen)
  have hfits : roomyLength * largestUnits < 2 ^ 130 * 2 ^ 2045 := by
    rw [largestUnits, ← mul_assoc]
    exact mul_lt_mul_of_pos_right (by decide) (Nat.two_pow_pos _)
  rw [hasPlace_iff]
  omega

/-- One more of the largest doubles has no place. -/
theorem not_hasPlace_largest :
    ¬ HasPlace (exactSum (List.replicate (roomyLength + 1) 0x7fefffffffffffff)) := by
  have hunits : units 0x7fefffffffffffff = largestUnits := by
    have hi : magnitudeIndex 0x7fefffffffffffff = infinityIndex - 1 := by decide
    rw [units, hi, gridUnits_largest]
    rfl
  have hsum : exactSum (replicate (roomyLength + 1) 0x7fefffffffffffff) =
      ((roomyLength + 1) * largestUnits : Nat) := by
    rw [exactSum, map_replicate, sum_replicate, hunits]
    rfl
  have hexceeds : 2 ^ 130 * 2 ^ 2045 ≤ (roomyLength + 1) * largestUnits := by
    rw [largestUnits, ← mul_assoc]
    exact Nat.mul_le_mul_right _ (by decide)
  rw [hasPlace_iff]
  omega

/-! ## Results -/

theorem negateWithCarry_spec (limbs : List UInt64) {carry : UInt64} (hcarry : carry.toNat ≤ 1) :
    (negateWithCarry limbs carry).length = limbs.length ∧
      ∃ last ≤ 1, limbsValue (negateWithCarry limbs carry) + limbBase ^ limbs.length * last +
        limbsValue limbs + 1 = limbBase ^ limbs.length + carry.toNat := by
  induction limbs generalizing carry with
  | nil => exact ⟨rfl, carry.toNat, hcarry, by simp [negateWithCarry]; omega⟩
  | cons limb rest ih =>
    have hsum := addWithCarry_spec (~~~limb) 0 carry hcarry
    obtain ⟨hlen, last, hl, hv⟩ := ih hsum.2
    refine ⟨by rw [negateWithCarry, length_cons, hlen, length_cons], last, hl, ?_⟩
    have hlt := limb.toNat_lt
    have hnot : (~~~limb).toNat + limb.toNat + 1 = 2 ^ 64 := by
      rw [UInt64.toNat_not]
      simp only [UInt64.size]
      omega
    have hfirst := hsum.1
    rw [UInt64.toNat_zero] at hfirst
    simp only [negateWithCarry, limbsValue_cons, length_cons]
    zify at *
    linear_combination hfirst + hnot + (2 : Int) ^ 64 * hv

/-- The magnitude of the words in use. -/
theorem limbsValue_magnitude {limbs : List UInt64} (hne : limbs ≠ []) :
    decide (signBit limbs ≠ 0) = decide (signedValue limbs < 0) ∧
      limbsValue (trimLimbs (if decide (signBit limbs ≠ 0) then negateWithCarry limbs 1 else
      limbs)) = (signedValue limbs).natAbs := by
  have hv := signedValue_signBit hne
  have hlt := limbsValue_lt limbs
  have hrange : ((limbBase ^ limbs.length : Nat) : Int) = 2 ^ (64 * limbs.length) := by
    rw [limbBase_pow]
    rfl
  rw [← hrange] at hv
  rw [limbsValue_trimLimbs]
  rcases signBit_cases limbs with h | h
  · rw [h, UInt64.toNat_zero] at hv
    have hplain : signedValue limbs = limbsValue limbs := by omega
    rw [h, hplain]
    exact ⟨by simp, rfl⟩
  · obtain ⟨hlen, last, hl, hnegated⟩ := negateWithCarry_spec limbs
      (by decide : (1 : UInt64).toNat ≤ 1)
    rw [h, UInt64.toNat_one] at hv
    rw [UInt64.toNat_one] at hnegated
    have hset : 0 < limbsValue limbs := by
      by_contra hz
      have hlow := (signedValue_range hne).1
      have hpow : (2 : Int) ^ (64 * limbs.length) = 2 * 2 ^ (64 * limbs.length - 1) := by
        have hlen' := length_pos_of_ne_nil hne
        rw [← pow_succ']
        congr 1
        omega
      omega
    have hz : last = 0 := by
      by_contra hone
      rw [show last = 1 by omega] at hnegated
      omega
    rw [hz] at hnegated
    have hone : decide ((1 : UInt64) ≠ 0) = true := by decide
    rw [h, hone, if_pos rfl]
    constructor
    · symm
      apply decide_eq_true
      omega
    · omega

theorem preciseSum_result (hsound : acc.Sound) (h : Tracks numbers acc) :
    PreciseSum numbers acc.result := by
  cases h with
  | nan hst h =>
    rw [result, hst]
    exact .nan h
  | @infinity neg hst hnan hin hnot =>
    have hres : acc.result = infinityOf neg := by
      rw [result, hst]
      cases neg <;> rfl
    rw [hres]
    exact .infinity hnan hin hnot
  | minusZero hst h _ =>
    rw [result, hst]
    exact .minusZero h
  | finite hst hfin ho hsum =>
    obtain ⟨hsign, hmag⟩ := limbsValue_magnitude hsound.nonempty
    rw [hsum] at hsign hmag
    have hcanon := canonical_trimLimbs
      (if decide (signBit acc.limbs ≠ 0) then negateWithCarry acc.limbs 1 else acc.limbs)
    have hmono := gridUnits_strictMono 52
    rw [result, hst]
    simp only
    rw [hsign] at hmag hcanon ⊢
    generalize trimLimbs (if decide (exactSum numbers < 0) then negateWithCarry acc.limbs 1
      else acc.limbs) = limbs at *
    split
    · rw [limbsValue_nil] at hmag
      have hi : RoundsTo (gridUnits 52) infinityIndex (exactSum numbers).natAbs 0 := by
        rw [← hmag]
        exact roundsTo_exact hmono (Nat.zero_le _)
      have hnearest := PreciseSum.nearest hfin ho hi
      rw [show exactSum numbers = 0 by omega] at hnearest
      exact hnearest
    next limb =>
      rw [limbsValue_cons, limbsValue_nil, Nat.mul_zero, Nat.add_zero] at hmag
      split
      next hsm =>
        rw [UInt64.lt_iff_toNat_lt, toNat_bit (by decide)] at hsm
        have hi : RoundsTo (gridUnits 52) infinityIndex (exactSum numbers).natAbs limb.toNat := by
          rw [← hmag]
          conv => arg 3; rw [← gridUnits_subnormal hsm.le]
          exact roundsTo_exact hmono (by simp only [infinityIndex]; omega)
        have hnearest := PreciseSum.nearest hfin ho hi
        rwa [withSign, UInt64.ofNat_toNat] at hnearest
      next hlarge =>
        rw [UInt64.lt_iff_toNat_lt, toNat_bit (by decide)] at hlarge
        obtain ⟨idx, hi, hbits⟩ := roundExactLimbs_spec hcanon
          (by rw [limbsValue_cons]; omega) (decide (exactSum numbers < 0))
        rw [limbsValue_cons, limbsValue_nil, Nat.mul_zero, hmag] at hi
        rw [hbits]
        exact .nearest hfin ho hi
    next hnil hsingle =>
      have hlong : 2 ≤ limbs.length := by
        rcases limbs with _ | ⟨limb, _ | ⟨high, rest⟩⟩
        · exact absurd rfl hnil
        · exact absurd rfl (hsingle limb)
        · simp
      have hnormal : 2 ^ 52 ≤ limbsValue limbs := by
        have hpow := hcanon.pow_le hnil
        have hword := Nat.pow_le_pow_right (n := limbBase) (by decide)
          (show 1 ≤ limbs.length - 1 by omega)
        exact Nat.le_trans (by decide) (Nat.le_trans hword hpow)
      obtain ⟨idx, hi, hbits⟩ := roundExactLimbs_spec hcanon hnormal (decide (exactSum numbers < 0))
      rw [hmag] at hi
      rw [hbits]
      exact .nearest hfin ho hi

/-! ## One sum -/

section Unique

variable {numbers : List UInt64}

/-- Finite doubles have no special sum. -/
theorem not_nan_of_finite (h : ∀ x ∈ numbers, IsFinite x) :
    ¬ ((∃ x ∈ numbers, IsNaN x) ∨ ∀ neg, infinityOf neg ∈ numbers) := by
  rintro (⟨x, hx, hnan⟩ | hboth)
  · exact (h x hx).not_special.1 hnan
  · exact (h _ (hboth true)).not_special.2 true rfl

theorem not_infinity_of_finite (h : ∀ x ∈ numbers, IsFinite x) (neg : Bool) :
    infinityOf neg ∉ numbers :=
  fun hm => (h _ hm).not_special.2 neg rfl

/-- An infinity of one sign alone is not NaN. -/
theorem not_nan_of_infinity {neg : Bool} (hnan : ∀ x ∈ numbers, ¬ IsNaN x)
    (hnot : infinityOf (!neg) ∉ numbers) :
    ¬ ((∃ x ∈ numbers, IsNaN x) ∨ ∀ neg, infinityOf neg ∈ numbers) := by
  rintro (⟨x, hx, hx'⟩ | hboth)
  · exact hnan x hx hx'
  · exact hnot (hboth _)

theorem PreciseSum.unique {first second : UInt64} (hfirst : PreciseSum numbers first)
    (hsec : PreciseSum numbers second) : first = second := by
  cases hfirst with
  | nan h =>
    cases hsec with
    | nan _ => rfl
    | infinity hnan _ hnot => exact absurd h (not_nan_of_infinity hnan hnot)
    | minusZero hz => exact absurd h (not_nan_of_finite (finite_of_minusZero hz))
    | nearest hfin _ _ => exact absurd h (not_nan_of_finite hfin)
  | @infinity neg hnan hm hnot =>
    cases hsec with
    | nan h => exact absurd h (not_nan_of_infinity hnan hnot)
    | @infinity other _ hm' _ =>
      by_cases hs : other = neg
      · rw [hs]
      · have ho : other = !neg := by cases other <;> cases neg <;> simp_all
        rw [ho] at hm'
        exact absurd hm' hnot
    | minusZero hz => exact absurd hm (not_infinity_of_finite (finite_of_minusZero hz) neg)
    | nearest hfin _ _ => exact absurd hm (not_infinity_of_finite hfin neg)
  | minusZero hz =>
    cases hsec with
    | nan h => exact absurd h (not_nan_of_finite (finite_of_minusZero hz))
    | infinity _ hm _ => exact absurd hm (not_infinity_of_finite (finite_of_minusZero hz) _)
    | minusZero _ => rfl
    | nearest _ ho _ =>
      obtain ⟨x, hx, hne⟩ := ho
      exact absurd (hz x hx) hne
  | nearest hfin ho hi =>
    cases hsec with
    | nan h => exact absurd h (not_nan_of_finite hfin)
    | infinity _ hm _ => exact absurd hm (not_infinity_of_finite hfin _)
    | minusZero hz =>
      obtain ⟨x, hx, hne⟩ := ho
      exact absurd (hz x hx) hne
    | nearest _ _ hi' => rw [hi.unique (gridUnits_strictMono 52) hi']

end Unique

/-- Up to a number of doubles that leaves every sum a place, the sum is exact up to one rounding,
and is the same in every order. -/
theorem sum_precise (numbers : List UInt64) (hlen : numbers.length ≤ roomyLength) :
    ∃ res, PreciseSum numbers res ∧ ∀ order : List UInt64, order.Perm numbers →
        (new.addAll order).map ExactSumAccumulator.result = some res := by
  -- every first part of every order is short enough
  have hplace : ∀ order : List UInt64, order.Perm numbers → ∀ first, first <+: order →
      (∀ x ∈ first, IsFinite x) → HasPlace (exactSum first) := by
    intro order hord first hfirst
    apply hasPlace_of_length
    have hle := hfirst.length_le
    rw [hord.length_eq] at hle
    exact hle.trans hlen
  have hres : ∀ order : List UInt64, order.Perm numbers →
      ∃ acc, new.addAll order = some acc ∧ PreciseSum numbers acc.result := by
    intro order hord
    obtain ⟨acc, hrun⟩ := addAll_isSome order (hplace order hord)
    obtain ⟨hsound, htracks⟩ := tracks_of_addAll order hrun
    exact ⟨acc, hrun, (preciseSum_result hsound htracks).perm hord⟩
  obtain ⟨acc, _, hprecise⟩ := hres numbers (List.Perm.refl _)
  refine ⟨acc.result, hprecise, ?_⟩
  intro order hord
  obtain ⟨other, hrun, ho⟩ := hres order hord
  rw [hrun, Option.map_some, ho.unique hprecise]

/-- `0.1 + 1e300 - 1e300` is `0.1` in every order. -/
theorem sum_precise_cancels :
    [(0x3fb999999999999a : UInt64), 0x7e37e43c8800759c, 0xfe37e43c8800759c].length ≤ roomyLength ∧
      ∃ res, PreciseSum [0x3fb999999999999a, 0x7e37e43c8800759c, 0xfe37e43c8800759c] res ∧
        ∀ order : List UInt64, order.Perm [0x3fb999999999999a, 0x7e37e43c8800759c,
        0xfe37e43c8800759c] → (new.addAll order).map ExactSumAccumulator.result = some res :=
  ⟨by decide, sum_precise _ (by decide)⟩

/-- Fewer than `2 ^ 78` doubles can have a sum outside of the accumulator. -/
theorem addAll_leaves :
    ¬ ∀ numbers : List UInt64, numbers.length < 2 ^ 78 → ∃ acc, new.addAll numbers = some acc := by
  intro h
  obtain ⟨acc, hrun⟩ := h (replicate (roomyLength + 1) 0x7fefffffffffffff) (by
    rw [length_replicate]
    decide)
  obtain ⟨hsound, htracks⟩ := tracks_of_addAll _ hrun
  have hfin : ∀ x ∈ replicate (roomyLength + 1) (0x7fefffffffffffff : UInt64), IsFinite x := by
    intro x hx
    rw [eq_of_mem_replicate hx]
    decide
  have hst : isSpecial acc.state = false := by
    cases htracks with
    | nan _ hnan => exact absurd hnan (not_nan_of_finite hfin)
    | infinity _ _ hm _ => exact absurd hm (not_infinity_of_finite hfin _)
    | minusZero hcase _ _ | finite hcase _ _ _ =>
      rw [hcase]
      rfl
  apply not_hasPlace_largest
  rw [← (htracks.sum hst).1]
  exact hsound.hasPlace

end ExactSumAccumulator

end TachyonEngine.Vm
