import TachyonEngine.Bytecode.Opcode
import TachyonEngine.Lib.Binary64
import TachyonEngine.Vm.Value

/-!
# Arithmetic on two representations

`numericBinaryInputs` stays with 32-bit integers where both operands and the result are such
integers. This agrees with the doubles except for zeros: a product or quotient that IEEE-754
makes negative zero becomes the integer zero. `numericBinaryInputs_exact_iff` says for which
operands the fast path is right.
-/

namespace TachyonEngine.Vm

open Bytecode (Opcode)
open Lib
open Float.Model.UnpackedFloat (Sign)
open Binary64

/-! ## Checked 32-bit arithmetic -/

/-- The integer, when it has 32 bits. -/
def checkedI32 (n : Int) : Option Int32 :=
  if -2 ^ 31 ≤ n ∧ n < 2 ^ 31 then some (Int32.ofInt n) else none

def checkedAdd (left right : Int32) : Option Int32 := checkedI32 (left.toInt + right.toInt)

def checkedSub (left right : Int32) : Option Int32 := checkedI32 (left.toInt - right.toInt)

def checkedMul (left right : Int32) : Option Int32 := checkedI32 (left.toInt * right.toInt)

/-- Division truncates; it fails for a zero divisor and where the quotient overflows. -/
def checkedDiv (left right : Int32) : Option Int32 :=
  if right = 0 then none else checkedI32 (left.toInt.tdiv right.toInt)

/-- The remainder fails where the division does. -/
def checkedRem (left right : Int32) : Option Int32 :=
  (checkedDiv left right).map fun _ => Int32.ofInt (left.toInt.tmod right.toInt)

def checkedNeg (value : Int32) : Option Int32 := checkedI32 (-value.toInt)

/-- `f64::from`. -/
def f64From (value : Int32) : F64 := Float.Model.ofInt value.toInt

/-! ## Numeric opcodes -/

/-- An operand that is a Number. -/
inductive NumericInput where
  | int32 (value : Int32)
  | float (value : F64)

namespace NumericInput

def decode (value : Value) : Option NumericInput :=
  (value.asI32.map .int32).orElse fun _ => value.asF64.map .float

def intoF64 : NumericInput → F64
  | .int32 value => f64From value
  | .float value => value

end NumericInput

/-- The operation on doubles; `none` for an opcode that the dispatch does not supply. -/
def floatBinary (op : Opcode) (left right : F64) : Option F64 :=
  match op with
  | .add => some (left + right)
  | .sub => some (left - right)
  | .mul => some (left * right)
  | .div => some (left / right)
  | _ => none

/-- The operation on integers, where it is exact. -/
def int32Binary (op : Opcode) (left right : Int32) : Option Int32 :=
  match op with
  | .add => checkedAdd left right
  | .sub => checkedSub left right
  | .mul => checkedMul left right
  | .div => if checkedRem left right = some 0 then checkedDiv left right else none
  | _ => none

/-- Keeps a 32-bit result when both operands are 32-bit integers. -/
def numericBinaryInputs (op : Opcode) (left right : NumericInput) : Option Value :=
  let integer :=
    match left, right with
    | .int32 left, .int32 right => int32Binary op left right
    | _, _ => none
  match integer with
  | some integer => some (.fromI32 integer)
  | none => (floatBinary op left.intoF64 right.intoF64).map .fromF64

/-- The double that is not a number. -/
def f64NaN : F64 := Float.Model.pack .notANumber

def numericBinary (op : Opcode) (left right : Value) : Option Value :=
  numericBinaryInputs op ((NumericInput.decode left).getD (.float f64NaN))
    ((NumericInput.decode right).getD (.float f64NaN))

/-- The path of the interpreter loop; the outer `none` leaves it. -/
def numericBinaryHot (op : Opcode) (left right : Value) : Option (Option Value) :=
  match NumericInput.decode left, NumericInput.decode right with
  | some left, some right => some (numericBinaryInputs op left right)
  | _, _ => none

def numericNegate (value : Value) : Value :=
  match value.asI32 with
  | some integer =>
    if integer = 0 then .fromF64 (Binary64.zero .negative)
    else
      match checkedNeg integer with
      | some integer => .fromI32 integer
      | none => .fromF64 (-f64From integer)
  | none =>
    match value.asF64 with
    | some number => .fromF64 (-number)
    | none =>
      .fromF64 (match value.asImmediate with
        | some .null | some .false => Binary64.zero .negative
        | some .true => -Float.Model.ofInt 1
        | _ => f64NaN)

/-! ## The fast path and the doubles -/

variable {r : Int32}

theorem checkedI32_eq_some {n : Int} (h : checkedI32 n = some r) : r.toInt = n := by
  simp only [checkedI32] at h
  split at h
  next hrange =>
    cases h
    exact Int32.toInt_ofInt_of_le hrange.1 hrange.2
  · cases h

theorem natAbs_toInt_lt (a : Int32) : a.toInt.natAbs < 2 ^ 53 := by
  have hlow := a.le_toInt
  have hhigh := a.toInt_lt
  omega

variable {a : Int32}

theorem toInt_ne_zero (h : a ≠ 0) : a.toInt ≠ 0 := by
  intro heq
  exact h (Int32.toInt_inj.mp heq)

variable {b : Int32}

/-- A quotient is taken only of a multiple. -/
theorem exact_of_checkedRem (hrem : checkedRem a b = some 0) (hdiv : checkedDiv a b = some r) :
    b ≠ 0 ∧ a.toInt = b.toInt * r.toInt := by
  simp only [checkedRem, hdiv, Option.map_some, Option.some.injEq] at hrem
  simp only [checkedDiv] at hdiv
  split_ifs at hdiv with hb
  refine ⟨hb, ?_⟩
  have hquot := checkedI32_eq_some hdiv
  have hlow := b.le_toInt
  have hhigh := b.toInt_lt
  have habs := Int.natAbs_tmod a.toInt b.toInt
  have hlt := Nat.mod_lt a.toInt.natAbs (Int.natAbs_pos.mpr (toInt_ne_zero hb))
  have hmod : a.toInt.tmod b.toInt = 0 := by
    rw [← @Int32.toInt_ofInt_of_le (a.toInt.tmod b.toInt) (by omega) (by omega), hrem]
    rfl
  have hsplit := Int.mul_tdiv_add_tmod a.toInt b.toInt
  rw [← hquot] at hsplit
  omega

/-- The operands whose zero result is negative. -/
def LosesNegativeZero (op : Opcode) (a b : Int32) : Prop :=
  (op = .mul ∧ ((a = 0 ∧ b.toInt < 0) ∨ (a.toInt < 0 ∧ b = 0))) ∨ (op = .div ∧ a = 0 ∧ b.toInt < 0)

variable {op : Opcode}

/-- Outside of these operands an integer result is the double of the operation. -/
theorem floatBinary_of_int32Binary (h : int32Binary op a b = some r)
    (hz : ¬LosesNegativeZero op a b) :
    floatBinary op (f64From a) (f64From b) = some (f64From r) := by
  have ha := natAbs_toInt_lt a
  have hb := natAbs_toInt_lt b
  have hr := natAbs_toInt_lt r
  cases op with
  | add =>
    have heq := checkedI32_eq_some h
    rw [heq] at hr
    simp only [f64From, heq]
    exact congrArg some (ofInt_add ha hb hr)
  | sub =>
    have heq := checkedI32_eq_some h
    rw [heq] at hr
    simp only [f64From, heq]
    exact congrArg some (ofInt_sub ha hb hr)
  | mul =>
    have heq := checkedI32_eq_some h
    rw [heq] at hr
    simp only [floatBinary, f64From, heq]
    have hcases : ¬((a = 0 ∧ b.toInt < 0) ∨ (a.toInt < 0 ∧ b = 0)) :=
      fun hloses => hz (Or.inl ⟨rfl, hloses⟩)
    by_cases ha0 : a = 0
    · have hb0 : ¬b.toInt < 0 := fun hneg => hcases (Or.inl ⟨ha0, hneg⟩)
      subst ha0
      rw [Int32.toInt_zero, zero_mul, zero_mul_ofInt _ hb, signOf, if_neg hb0]
      rfl
    · by_cases hb0 : b = 0
      · have ha1 : ¬a.toInt < 0 := fun hneg => hcases (Or.inr ⟨hneg, hb0⟩)
        subst hb0
        rw [Int32.toInt_zero, mul_zero, ofInt_mul_zero _ ha, signOf, if_neg ha1]
        rfl
      · exact congrArg some (ofInt_mul (toInt_ne_zero ha0) (toInt_ne_zero hb0) hr ha hb)
  | div =>
    simp only [int32Binary] at h
    split at h
    next hrem =>
      obtain ⟨hb0, hexact⟩ := exact_of_checkedRem hrem h
      simp only [floatBinary, f64From]
      by_cases ha0 : a = 0
      · have hb1 : ¬b.toInt < 0 := fun hneg => hz (Or.inr ⟨rfl, ha0, hneg⟩)
        subst ha0
        have hr0 : r.toInt = 0 := (mul_eq_zero.mp hexact.symm).resolve_left (toInt_ne_zero hb0)
        rw [hr0, Int32.toInt_zero, zero_div_ofInt (toInt_ne_zero hb0) hb, signOf, if_neg hb1]
        rfl
      · have hr0 : r.toInt ≠ 0 := by
          intro hr0
          rw [hr0, mul_zero] at hexact
          exact toInt_ne_zero ha0 hexact
        exact congrArg some (ofInt_div (toInt_ne_zero hb0) hr0 hexact ha hb hr)
    · cases h
  | _ => cases h

/-- The double of an integer is not negative zero. -/
theorem ofInt_ne_negative_zero {n : Int} (hn : n.natAbs < 2 ^ 53) :
    Float.Model.ofInt n ≠ zero .negative := by
  intro heq
  by_cases h0 : n = 0
  · subst h0
    exact zero_ne heq.symm
  · have hunpack := congrArg Float.Model.unpack heq
    rw [unpack_ofInt h0 hn, unpack_zero] at hunpack
    cases hunpack

/-- For these operands the double is negative zero and the fast path gives zero. -/
theorem floatBinary_of_loses (h : LosesNegativeZero op a b) :
    floatBinary op (f64From a) (f64From b) = some (zero .negative) ∧
      int32Binary op a b = some 0 := by
  have ha := natAbs_toInt_lt a
  have hb := natAbs_toInt_lt b
  rcases h with ⟨rfl, ⟨rfl, hneg⟩ | ⟨hneg, rfl⟩⟩ | ⟨rfl, rfl, hneg⟩
  · constructor
    · simp only [floatBinary, f64From]
      rw [Int32.toInt_zero, zero_mul_ofInt _ hb, signOf, if_pos hneg]
    · simp only [int32Binary, checkedMul, Int32.toInt_zero, zero_mul]
      rfl
  · constructor
    · simp only [floatBinary, f64From]
      rw [Int32.toInt_zero, ofInt_mul_zero _ ha, signOf, if_pos hneg]
    · simp only [int32Binary, checkedMul, Int32.toInt_zero, mul_zero]
      rfl
  · have hb0 : b ≠ 0 := by
      rintro rfl
      rw [Int32.toInt_zero] at hneg
      omega
    have hdiv : checkedDiv 0 b = some 0 := by
      simp only [checkedDiv, if_neg hb0, Int32.toInt_zero, Int.zero_tdiv]
      rfl
    have hrem : checkedRem 0 b = some 0 := by
      simp only [checkedRem, hdiv, Int32.toInt_zero, Int.zero_tmod]
      rfl
    constructor
    · simp only [floatBinary, f64From]
      rw [Int32.toInt_zero, zero_div_ofInt (toInt_ne_zero hb0) hb, signOf, if_pos hneg]
    · simp only [int32Binary, hrem, if_pos, hdiv]

/-! ## Observed numbers -/

/-- The Number a value stands for. -/
def Value.number : Value → Option F64
  | .float number => some number
  | .int32 value => some (f64From value)
  | _ => none

/-- The value represents the integer, either way. -/
def Represents (value : Value) (n : Int32) : Prop :=
  value = .fromI32 n ∨ value = .fromF64 (f64From n)

/-- The exact result of an operation. -/
def exactResult (op : Opcode) (a b : Int) : Option Rat :=
  match op with
  | .add => some (a + b)
  | .sub => some (a - b)
  | .mul => some (a * b)
  | .div => if b = 0 then none else some (a / b)
  | _ => none

theorem exactResult_of_int32Binary (h : int32Binary op a b = some r) :
    exactResult op a.toInt b.toInt = some (r.toInt : Rat) := by
  cases op with
  | add | sub | mul =>
    rw [checkedI32_eq_some h]
    simp [exactResult]
  | div =>
    simp only [int32Binary] at h
    split at h
    next hrem =>
      obtain ⟨hb, hexact⟩ := exact_of_checkedRem hrem h
      have hb0 : (b.toInt : Rat) ≠ 0 := Int.cast_ne_zero.mpr (toInt_ne_zero hb)
      simp only [exactResult, if_neg (toInt_ne_zero hb), hexact]
      push_cast
      rw [mul_div_cancel_left₀ _ hb0]
    · cases h
  | _ => cases h

/-- The arithmetic of two integers is that of the Numbers they are. -/
structure Int32PathExact (op : Opcode) (a b : Int32) : Prop where
  result : ∀ r, numericBinaryInputs op (.int32 a) (.int32 b) = some (.fromI32 r) →
    exactResult op a.toInt b.toInt = some (r.toInt : Rat) ∧
      floatBinary op (f64From a) (f64From b) ≠ some (Binary64.zero .negative)
  negateZero : numericNegate (.fromI32 0) = .fromF64 (Binary64.zero .negative)
  negateMin : numericNegate (.fromI32 Int32.minValue) = .fromF64 (Float.Model.ofInt 2147483648)
  negate : ∀ value, Represents value a → (numericNegate value).number = some (-f64From a)
  binary : ∀ left right, Represents left a → Represents right b →
    (numericBinary op left right).bind Value.number = floatBinary op (f64From a) (f64From b)
  hot : ∀ left right, Represents left a → Represents right b →
    numericBinaryHot op left right = some (numericBinary op left right)

theorem numericNegate_number {val : Value} (h : Represents val a) :
    (numericNegate val).number = some (-f64From a) := by
  rcases h with rfl | rfl
  · simp only [numericNegate, Value.fromI32, Value.asI32]
    by_cases h0 : a = 0
    · subst h0
      rfl
    · rw [if_neg h0]
      cases hneg : checkedNeg a with
      | none => rfl
      | some r =>
        have hr := checkedI32_eq_some hneg
        simp only [Value.number, f64From, hr]
        exact congrArg some (neg_ofInt (toInt_ne_zero h0) (natAbs_toInt_lt a)).symm
  · rfl

theorem numericNegate_minValue :
    numericNegate (.fromI32 Int32.minValue) = .fromF64 (Float.Model.ofInt 2147483648) := by
  have hz : Int32.minValue ≠ 0 := by decide
  have hneg : checkedNeg Int32.minValue = none := by
    rfl
  have hfloat : -f64From Int32.minValue = Float.Model.ofInt 2147483648 := by
    exact neg_ofInt (by decide) (by decide)
  simp only [numericNegate, Value.fromI32, Value.asI32, if_neg hz, hneg, hfloat]

theorem decode_of_represents {val : Value} (h : Represents val a) :
    NumericInput.decode val = some (.int32 a) ∨
      NumericInput.decode val = some (.float (f64From a)) := by
  rcases h with rfl | rfl
  · exact Or.inl rfl
  · exact Or.inr rfl

/-- Away from the lost zeros every pair of representations gives the double of the operation. -/
theorem numericBinaryInputs_number {left right : NumericInput} (hz : ¬LosesNegativeZero op a b)
    (hl : left = .int32 a ∨ left = .float (f64From a))
    (hr : right = .int32 b ∨ right = .float (f64From b)) :
    (numericBinaryInputs op left right).bind Value.number =
      floatBinary op (f64From a) (f64From b) := by
  have hfloat : ((floatBinary op (f64From a) (f64From b)).map Value.fromF64).bind Value.number =
      floatBinary op (f64From a) (f64From b) := by
    cases floatBinary op (f64From a) (f64From b) with
    | none | some number => rfl
  rcases hl with rfl | rfl
  · rcases hr with rfl | rfl
    · simp only [numericBinaryInputs]
      cases hint : int32Binary op a b with
      | none => exact hfloat
      | some r => exact (floatBinary_of_int32Binary hint hz).symm
    · exact hfloat
  · rcases hr with rfl | rfl
    · exact hfloat
    · exact hfloat

/-- The fast path is exact, the sign of zero included, if and only if the operands are not a
zero and a negative number of a product, nor a zero dividend with a negative divisor. -/
theorem numericBinaryInputs_exact_iff (op : Opcode) (a b : Int32) :
    Int32PathExact op a b ↔ ¬LosesNegativeZero op a b := by
  constructor
  · intro hexact hloses
    obtain ⟨hfloat, hint⟩ := floatBinary_of_loses hloses
    have hres : numericBinaryInputs op (.int32 a) (.int32 b) = some (.fromI32 0) := by
      simp only [numericBinaryInputs, hint]
    exact (hexact.result 0 hres).2 hfloat
  · intro hz
    refine ⟨?_, rfl, numericNegate_minValue, fun val => numericNegate_number, ?_, ?_⟩
    · intro r hr
      simp only [numericBinaryInputs] at hr
      cases hint : int32Binary op a b with
      | none =>
        rw [hint] at hr
        obtain ⟨number, -, heq⟩ := Option.map_eq_some_iff.mp hr
        cases heq
      | some integer =>
        rw [hint] at hr
        cases hr
        refine ⟨exactResult_of_int32Binary hint, ?_⟩
        rw [floatBinary_of_int32Binary hint hz]
        intro heq
        exact ofInt_ne_negative_zero (natAbs_toInt_lt r) (Option.some.inj heq)
    · intro left right hleft hright
      simp only [numericBinary]
      rcases decode_of_represents hleft with hl | hl
      · rcases decode_of_represents hright with hr | hr
        · rw [hl, hr]
          exact numericBinaryInputs_number hz (Or.inl rfl) (Or.inl rfl)
        · rw [hl, hr]
          exact numericBinaryInputs_number hz (Or.inl rfl) (Or.inr rfl)
      · rcases decode_of_represents hright with hr | hr
        · rw [hl, hr]
          exact numericBinaryInputs_number hz (Or.inr rfl) (Or.inl rfl)
        · rw [hl, hr]
          exact numericBinaryInputs_number hz (Or.inr rfl) (Or.inr rfl)
    · intro left right hleft hright
      simp only [numericBinaryHot, numericBinary]
      rcases decode_of_represents hleft with hl | hl
      · rcases decode_of_represents hright with hr | hr <;> rw [hl, hr] <;> rfl
      · rcases decode_of_represents hright with hr | hr <;> rw [hl, hr] <;> rfl

/-- Zero times minus one is the integer zero, and negative zero among the doubles. -/
theorem not_int32PathExact_zero_mul : ¬Int32PathExact .mul 0 (-1) := by
  intro hexact
  have hres : numericBinaryInputs .mul (.int32 0) (.int32 (-1)) = some (.fromI32 0) := rfl
  have hfloat : floatBinary .mul (f64From 0) (f64From (-1)) = some (Binary64.zero .negative) := rfl
  exact (hexact.result 0 hres).2 hfloat

end TachyonEngine.Vm
