import TachyonEngine.Vm.ExactSumRun
import TachyonEngine.Vm.Value

/-!
# The words of values

A value is one 64-bit word: a double as it is, with one NaN for all, and everything else below the
prefix of the negative quiet NaNs, as a tag and a payload. `boxing_unambiguous` says that a word is
read as what it was built from, and that the accessors and `decode` agree on every word.
-/

namespace TachyonEngine.Vm.Boxing

open ExactSumAccumulator (IsNaN magnitudeIndex infinityIndex)

def taggedMask : UInt64 := 0xfff8000000000000

def taggedPrefix : UInt64 := 0xfff8000000000000

def tagMask : UInt64 := 0x0007000000000000

def payloadMask : UInt64 := 0x0000ffffffffffff

def canonicalNanBits : UInt64 := 0x7ff8000000000000

def lowU32Mask : UInt64 := 0xffffffff

def smallBigintSignBit : UInt64 := 0x0000800000000000

def smallBigintMin : Int64 := -0x800000000000

def smallBigintMax : Int64 := 0x7fffffffffff

/-- A logical address, whose offset in its span is not zero. -/
structure RawHeapRef where
  offset : UInt32
  valid : offset.toUInt16 ≠ 0
  deriving DecidableEq

def RawHeapRef.new (offset : UInt32) : Option RawHeapRef :=
  if h : offset.toUInt16 ≠ 0 then some ⟨offset, h⟩ else none

def Immediate.code : Immediate → UInt8
  | .undefined => 0
  | .null => 1
  | .false => 2
  | .true => 3
  | .hole => 4
  | .uninitialized => 5

def Immediate.fromPayload (payload : UInt64) : Option Immediate :=
  match payload with
  | 0 => some .undefined
  | 1 => some .null
  | 2 => some .false
  | 3 => some .true
  | 4 => some .hole
  | 5 => some .uninitialized
  | _ => none

inductive Tag where
  | heapRef
  | int32
  | immediate
  | smallBigInt

def Tag.code : Tag → UInt8
  | .heapRef => 0
  | .int32 => 1
  | .immediate => 2
  | .smallBigInt => 3

def tagBits (bits : UInt64) : UInt8 := ((bits &&& tagMask) >>> 48).toUInt8

def Tag.fromBits (bits : UInt64) : Option Tag :=
  match tagBits bits with
  | 0 => some .heapRef
  | 1 => some .int32
  | 2 => some .immediate
  | 3 => some .smallBigInt
  | _ => none

/-- What a word stands for; a double is its bits. -/
inductive ValueKind where
  | number (bits : UInt64)
  | heapRef (reference : RawHeapRef)
  | int32 (value : Int32)
  | immediate (value : Immediate)
  | smallBigInt (value : Int64)

inductive DecodeError where
  | invalidHeapRefPayload (payload : UInt64)
  | invalidInt32Payload (payload : UInt64)
  | invalidImmediatePayload (payload : UInt64)
  | reservedTag (tag : UInt8)

def isTagged (bits : UInt64) : Bool := bits &&& taggedMask = taggedPrefix

def payload (bits : UInt64) : UInt64 := bits &&& payloadMask

def fromTagged (tag : Tag) (payload : UInt64) : UInt64 :=
  taggedPrefix ||| tag.code.toUInt64 <<< 48 ||| payload

def fromF64 (number : UInt64) : UInt64 := if IsNaN number then canonicalNanBits else number

def fromI32 (value : Int32) : UInt64 := fromTagged .int32 value.toUInt32.toUInt64

def fromHeapRef (reference : RawHeapRef) : UInt64 := fromTagged .heapRef reference.offset.toUInt64

def fromImmediate (immediate : Immediate) : UInt64 :=
  fromTagged .immediate (Immediate.code immediate).toUInt64

def fromSmallBigint (value : Int64) : Option UInt64 :=
  if value < smallBigintMin ∨ smallBigintMax < value then none
  else some (fromTagged .smallBigInt (value.toUInt64 &&& payloadMask))

def asF64 (bits : UInt64) : Option UInt64 := if isTagged bits then none else some bits

def asI32 (bits : UInt64) : Option Int32 :=
  if isTagged bits ∧ tagBits bits = Tag.int32.code ∧ payload bits &&& ~~~lowU32Mask = 0 then
    some (payload bits).toUInt32.toInt32
  else none

def asHeapRef (bits : UInt64) : Option RawHeapRef :=
  if ¬isTagged bits ∨ tagBits bits ≠ Tag.heapRef.code ∨ payload bits &&& ~~~lowU32Mask ≠ 0 then none
  else RawHeapRef.new (payload bits).toUInt32

def asImmediate (bits : UInt64) : Option Immediate :=
  if isTagged bits ∧ tagBits bits = Tag.immediate.code then Immediate.fromPayload
    (payload bits) else none

/-- The payload with its sign bit in all bits above it. -/
def signExtended (payload : UInt64) : UInt64 :=
  if payload &&& smallBigintSignBit = 0 then payload else payload ||| ~~~payloadMask

def asSmallBigint (bits : UInt64) : Option Int64 :=
  if ¬isTagged bits ∨ tagBits bits ≠ Tag.smallBigInt.code then none
  else some (signExtended (payload bits)).toInt64

def decodeHeapRef (payload : UInt64) : Except DecodeError ValueKind :=
  if payload &&& ~~~lowU32Mask ≠ 0 then .error (.invalidHeapRefPayload payload)
  else
    match RawHeapRef.new payload.toUInt32 with
    | some reference => .ok (.heapRef reference)
    | none => .error (.invalidHeapRefPayload payload)

def decodeInt32 (payload : UInt64) : Except DecodeError ValueKind :=
  if payload &&& ~~~lowU32Mask ≠ 0 then .error (.invalidInt32Payload payload)
  else .ok (.int32 payload.toUInt32.toInt32)

def decodeImmediate (payload : UInt64) : Except DecodeError ValueKind :=
  match Immediate.fromPayload payload with
  | some immediate => .ok (.immediate immediate)
  | none => .error (.invalidImmediatePayload payload)

/-- Reads a word. The last tag accepts every payload, as `asSmallBigint` does. -/
def decode (bits : UInt64) : Except DecodeError ValueKind :=
  match asF64 bits with
  | some number => .ok (.number number)
  | none =>
    match Tag.fromBits bits with
    | some .heapRef => decodeHeapRef (payload bits)
    | some .int32 => decodeInt32 (payload bits)
    | some .immediate => decodeImmediate (payload bits)
    | some .smallBigInt => .ok (.smallBigInt (signExtended (payload bits)).toInt64)
    | none => .error (.reservedTag (tagBits bits))

/-! ## What the words mean -/

/-- The word that is built from a value; only a wide BigInt has none. -/
def build : ValueKind → Option UInt64
  | .number number => some (fromF64 number)
  | .heapRef reference => some (fromHeapRef reference)
  | .int32 value => some (fromI32 value)
  | .immediate value => some (fromImmediate value)
  | .smallBigInt value => fromSmallBigint value

/-- The value with one NaN for all. -/
def ValueKind.canonical : ValueKind → ValueKind
  | .number bits => .number (if IsNaN bits then canonicalNanBits else bits)
  | kind => kind

/-- What the accessors give. -/
def accessors (bits : UInt64) : List ValueKind :=
  ((asF64 bits).map .number).toList ++ ((asI32 bits).map .int32).toList ++
    ((asHeapRef bits).map .heapRef).toList ++ ((asImmediate bits).map .immediate).toList ++
    ((asSmallBigint bits).map .smallBigInt).toList

structure Unambiguous : Prop where
  builds : ∀ kind, (∀ value, kind = .smallBigInt value → -2 ^ 47 ≤ value.toInt ∧
    value.toInt < 2 ^ 47) →
    (build kind).isSome
  decodes : ∀ kind bits, build kind = some bits → decode bits = .ok kind.canonical
  distinct : ∀ kind other bits, build kind = some bits → build other = some bits →
    kind.canonical = other.canonical
  agrees : ∀ bits, accessors bits = (decode bits).toOption.toList

/-! ## The fields of a word -/

theorem and_or_right (first second mask : UInt64) :
    (first ||| second) &&& mask = first &&& mask ||| second &&& mask :=
  UInt64.toNat_inj.mp (by simp only [UInt64.toNat_and, UInt64.toNat_or, Nat.and_or_distrib_right])

variable {data : UInt64}

/-- A mask that the payload does not meet clears it. -/
theorem fromTagged_and (tag : Tag) (hdata : data &&& payloadMask = data) {mask : UInt64} (hmask :
    payloadMask &&& mask = 0) :
    fromTagged tag data &&& mask = (taggedPrefix ||| tag.code.toUInt64 <<< 48) &&& mask := by
  have hclear : data &&& mask = 0 := by rw [← hdata, UInt64.and_assoc, hmask, UInt64.and_zero]
  rw [fromTagged, and_or_right, hclear, UInt64.or_zero]

theorem fromTagged_fields (tag : Tag) (hdata : data &&& payloadMask = data) :
    isTagged (fromTagged tag data) ∧ tagBits (fromTagged tag data) = tag.code ∧
      payload (fromTagged tag data) = data := by
  refine ⟨?_, ?_, ?_⟩
  · rw [isTagged, fromTagged_and tag hdata (by decide)]
    cases tag <;> decide
  · rw [tagBits, fromTagged_and tag hdata (by decide)]
    cases tag <;> decide
  · have hclear : (taggedPrefix ||| tag.code.toUInt64 <<< 48) &&& payloadMask = 0 := by
      cases tag <;> decide
    rw [payload, fromTagged, and_or_right, hclear, UInt64.zero_or, hdata]

variable {bits : UInt64}

theorem fromBits_iff {tag : Tag} : Tag.fromBits bits = some tag ↔ tagBits bits = tag.code := by
  constructor
  · intro h
    rw [Tag.fromBits] at h
    split at h <;> cases h <;> assumption
  · intro h
    rw [Tag.fromBits, h]
    cases tag <;> rfl

theorem decode_number (h : isTagged bits = false) : decode bits = .ok (.number bits) := by
  rw [decode, asF64, if_neg (by rw [h]; decide)]

/-- A word with the prefix is a NaN. -/
theorem isTagged_fromF64 (number : UInt64) : isTagged (fromF64 number) = false := by
  rw [fromF64]
  split_ifs with hnan
  · decide
  · refine decide_eq_false fun htagged => hnan ?_
    have hle := Nat.and_le_left (n := number.toNat) (m := taggedMask.toNat)
    rw [← UInt64.toNat_and, htagged, show taggedPrefix.toNat = 0xfff8 * 2 ^ 48 from rfl] at hle
    have hlt := number.toNat_lt
    simp only [IsNaN, magnitudeIndex, infinityIndex]
    omega

/-! ## Payloads -/

theorem toUInt64_and_low (n : UInt32) : n.toUInt64 &&& lowU32Mask = n.toUInt64 := by
  rw [← UInt64.toNat_inj, UInt64.toNat_and, show lowU32Mask.toNat = 2 ^ 32 - 1 from rfl,
    Nat.and_two_pow_sub_one_eq_mod]
  exact Nat.mod_eq_of_lt n.toNat_lt

theorem toUInt64_and_mask (n : UInt32) (mask : UInt64) :
    n.toUInt64 &&& mask = n.toUInt64 &&& (lowU32Mask &&& mask) := by
  rw [← UInt64.and_assoc, toUInt64_and_low]

theorem toUInt64_and_payload (n : UInt32) : n.toUInt64 &&& payloadMask = n.toUInt64 := by
  rw [toUInt64_and_mask]
  exact toUInt64_and_low n

theorem toUInt64_and_high (n : UInt32) : n.toUInt64 &&& ~~~lowU32Mask = 0 := by
  rw [toUInt64_and_mask, show lowU32Mask &&& ~~~lowU32Mask = 0 by decide, UInt64.and_zero]

variable {n : Int64}

theorem inRange_iff : ¬(n < smallBigintMin ∨ smallBigintMax < n) ↔
    -2 ^ 47 ≤ n.toInt ∧ n.toInt < 2 ^ 47 := by
  rw [Int64.lt_iff_toInt_lt, Int64.lt_iff_toInt_lt, show smallBigintMin.toInt = -2 ^ 47 from rfl,
    show smallBigintMax.toInt = 2 ^ 47 - 1 from rfl]
  omega

/-- The payload of a small BigInt, extended, is the BigInt. -/
theorem signExtended_payload (hlow : -2 ^ 47 ≤ n.toInt) (hhigh : n.toInt < 2 ^ 47) :
    signExtended (n.toUInt64 &&& payloadMask) = n.toUInt64 := by
  have hword : n.toInt = if 2 * n.toUInt64.toNat < 2 ^ 64 then (n.toUInt64.toNat : Int)
      else n.toUInt64.toNat - 2 ^ 64 := BitVec.toInt_eq_toNat_cond n.toBitVec
  have hlt := n.toUInt64.toNat_lt
  generalize n.toUInt64 = word at *
  have hpayload : (word &&& payloadMask).toNat = word.toNat % 2 ^ 48 := by
    rw [UInt64.toNat_and, show payloadMask.toNat = 2 ^ 48 - 1 from rfl,
      Nat.and_two_pow_sub_one_eq_mod]
  have hsign : word &&& payloadMask &&& smallBigintSignBit = 0 ↔ word.toNat / 2 ^ 47 % 2 = 0 := by
    rw [← UInt64.toNat_inj, UInt64.toNat_and, hpayload, show smallBigintSignBit.toNat =
      2 ^ 47 from rfl,
      Nat.and_two_pow, Nat.testBit_eq_decide_div_mod_eq,
      show word.toNat % 2 ^ 48 / 2 ^ 47 % 2 = word.toNat / 2 ^ 47 % 2 by omega]
    rcases Nat.mod_two_eq_zero_or_one (word.toNat / 2 ^ 47) with heven | hodd
    · rw [heven]
      decide
    · rw [hodd]
      decide
  rw [signExtended, ← UInt64.toNat_inj]
  split at hword
  · rw [if_pos (hsign.mpr (by omega)), hpayload]
    omega
  · rw [if_neg (mt hsign.mp (by omega)), UInt64.toNat_or, hpayload]
    have hor := Nat.shiftLeft_add_eq_or_of_lt
      (Nat.mod_lt word.toNat (by decide : 0 < 2 ^ 48)) 0xffff
    rw [Nat.or_comm, show (~~~payloadMask).toNat = 0xffff <<< 48 from rfl, ← hor]
    omega

/-! ## Reading what was built -/

theorem decode_build {kind : ValueKind} (h : build kind = some bits) :
    decode bits = .ok kind.canonical := by
  have htagged : ∀ tag data, data &&& payloadMask = data → decode (fromTagged tag data) =
      match tag with
      | .heapRef => decodeHeapRef data
      | .int32 => decodeInt32 data
      | .immediate => decodeImmediate data
      | .smallBigInt => .ok (.smallBigInt (signExtended data).toInt64) := by
    intro tag data hdata
    obtain ⟨hpre, htag, hpayload⟩ := fromTagged_fields tag hdata
    rw [decode, asF64, if_pos hpre, fromBits_iff.mpr htag, hpayload]
    cases tag <;> rfl
  cases kind with
  | number number =>
    cases h
    exact decode_number (isTagged_fromF64 number)
  | heapRef reference =>
    cases h
    rw [fromHeapRef, htagged _ _ (toUInt64_and_payload _)]
    rw [decodeHeapRef, toUInt64_and_high, if_neg (by decide), UInt32.toUInt32_toUInt64,
      RawHeapRef.new,
      dif_pos reference.valid]
    rfl
  | int32 value =>
    cases h
    rw [fromI32, htagged _ _ (toUInt64_and_payload _)]
    simp only [decodeInt32, toUInt64_and_high, UInt32.toUInt32_toUInt64, Int32.toInt32_toUInt32]
    rfl
  | immediate value =>
    cases h
    rw [fromImmediate, htagged _ _ (by cases value <;> decide)]
    cases value <;> rfl
  | smallBigInt value =>
    simp only [build, fromSmallBigint] at h
    split_ifs at h with hrange
    cases h
    rw [inRange_iff] at hrange
    rw [htagged _ _ (by rw [UInt64.and_assoc, UInt64.and_self]),
      signExtended_payload hrange.1 hrange.2,
      Int64.toInt64_toUInt64]
    rfl

/-- A word has the tag of one accessor at most, which judges the payload as the decoder does. -/
theorem accessors_eq (bits : UInt64) : accessors bits = (decode bits).toOption.toList := by
  cases htagged : isTagged bits with
  | false =>
    rw [decode_number htagged]
    simp [accessors, asF64, asI32, asHeapRef, asImmediate, asSmallBigint, htagged]
    rfl
  | true =>
    simp only [accessors, decode, asF64, asI32, asHeapRef, asImmediate, asSmallBigint, htagged]
    generalize payload bits = data
    cases htag : Tag.fromBits bits with
    | none =>
      have hreserved : ∀ tag, tagBits bits ≠ Tag.code tag := by
        intro tag hcode
        rw [fromBits_iff.mpr hcode] at htag
        cases htag
      simp [hreserved, Except.toOption]
    | some tag =>
      rw [fromBits_iff.mp htag]
      cases tag with
      | heapRef =>
        simp only [decodeHeapRef, Tag.code]
        by_cases hhigh : data &&& ~~~lowU32Mask = 0
        · cases RawHeapRef.new data.toUInt32 <;> simp [hhigh, Except.toOption]
        · simp [hhigh, Except.toOption]
      | int32 =>
        simp only [decodeInt32, Tag.code]
        by_cases hhigh : data &&& ~~~lowU32Mask = 0
        · simp [hhigh, Except.toOption]
        · simp [hhigh, Except.toOption]
      | immediate =>
        simp only [decodeImmediate, Tag.code]
        cases Immediate.fromPayload data <;> simp [Except.toOption]
      | smallBigInt => simp [Tag.code, Except.toOption]

/-- Words are unambiguous. -/
theorem boxing_unambiguous : Unambiguous := by
  refine ⟨?_, fun _ _ => decode_build, ?_, accessors_eq⟩
  · intro kind hrange
    cases kind with
    | smallBigInt value =>
      have hrange := inRange_iff.mpr (hrange value rfl)
      rw [build, fromSmallBigint, if_neg hrange]
      rfl
    | _ => rfl
  · intro kind other bits hkind hother
    have hsame := (decode_build hkind).symm.trans (decode_build hother)
    exact Except.ok.inj hsame

end TachyonEngine.Vm.Boxing
