import TachyonEngine.Bytecode.Verify

/-!
# The unchecked decoder

The interpreter decodes verified code without repeating the format and bounds
checks. A read past the words and a transmute of a number that is no opcode are
undefined behaviour in the source; the model returns `none` for them, so a
`some` result also says that neither happened.

`decodeUnchecked_eq_decodeInstruction` shows that at every instruction start of
a verified stream the two decoders return the same instruction.
-/

namespace TachyonEngine.Bytecode

open Lib.MachineWord Lib.CodeStream

/-- The opcode number of a header, in wrapping `u8` arithmetic. -/
def semanticOpcode (header : UInt32) : UInt8 :=
  let raw := header.toUInt8
  (raw &&& opcodeMask) +
    if raw &&& formatMask = escapeFormat then 64 + (header >>> UInt32.ofNat 8).toUInt8 * 64 else 0

/-- The transmute of a `u8` to an opcode; no opcode has a larger number than the
last one. -/
def transmuteOpcode (number : UInt8) : Option Opcode := Opcode.fromIndex number.toNat

def decodeCompactOperands (header : UInt32) (operandCount : Nat) : Vector UInt32 3 :=
  #v[if 0 < operandCount then header >>> UInt32.ofNat 8 &&& UInt32.ofNat (2 ^ 8 - 1) else 0,
     if 1 < operandCount then header >>> UInt32.ofNat 16 &&& UInt32.ofNat (2 ^ 8 - 1) else 0,
     if 2 < operandCount then header >>> UInt32.ofNat 24 else 0]

/-- An unchecked read that only happens when the operand is there. -/
def readOperandWord (words : List UInt32) (wanted : Bool) (index : Nat) : Option UInt32 :=
  if wanted then words[index]? else some 0

/-- Restores up to three packed `u16` operands. -/
def decodeNormalOperands (words : List UInt32) (start operandCount : Nat) :
    Option (Vector UInt32 3) := do
  let first ← readOperandWord words (0 < operandCount) (start + 1)
  let second ← readOperandWord words (2 < operandCount) (start + 2)
  some #v[if 0 < operandCount then first &&& UInt32.ofNat (2 ^ 16 - 1) else 0,
    if 1 < operandCount then first >>> UInt32.ofNat 16 else 0,
    if 2 < operandCount then second &&& UInt32.ofNat (2 ^ 16 - 1) else 0]

/-- Restores up to three full-width operands. -/
def decodeFullWidthOperands (words : List UInt32) (start operandCount : Nat) :
    Option (Vector UInt32 3) := do
  let first ← readOperandWord words (0 < operandCount) (start + 1)
  let second ← readOperandWord words (1 < operandCount) (start + 2)
  let third ← readOperandWord words (2 < operandCount) (start + 3)
  some #v[first, second, third]

def decodedInstruction (opcode : Opcode) (width : OperandWidth) (operands : Vector UInt32 3)
    (operandCount wordLen : Nat) : DecodedInstruction :=
  { opcode, width, operands, operandCount := UInt8.ofNat operandCount
    wordLen := UInt8.ofNat wordLen }

/-- Decodes one verifier-proven instruction without repeating format or bounds
validation. -/
def decodeUnchecked (words : List UInt32) (offset : WordOffset) :
    Option DecodedInstruction := do
  let start := offset.index.toNat
  let header ← words[start]?
  let opcode ← transmuteOpcode (semanticOpcode header)
  let format := header.toUInt8 &&& formatMask
  let operandCount := opcode.operandCount
  if format = 0 then
    some (decodedInstruction opcode .compact (decodeCompactOperands header operandCount)
      operandCount 1)
  else if format = normalFormat then
    let operands ← decodeNormalOperands words start operandCount
    some (decodedInstruction opcode .normal operands operandCount (1 + (operandCount + 1) / 2))
  else
    let operands ← decodeFullWidthOperands words start operandCount
    some (decodedInstruction opcode .wide operands operandCount (1 + operandCount))

/-! ## The opcode number -/

theorem opcodeMask_lt (raw : UInt8) : (raw &&& opcodeMask).toNat < 64 := by
  exact Nat.and_lt_two_pow raw.toNat (n := 6) (by decide)

variable {header : UInt32} {op : Opcode}

/-- Where the header names an opcode, the wrapping number is its discriminant:
an escaped page is at most one, so no step wraps. -/
theorem semanticOpcode_eq_discriminant (h : headerOpcode header = some op) :
    (semanticOpcode header).toNat = op.discriminant := by
  have hmask := opcodeMask_lt header.toUInt8
  have hc := op.discriminant_lt_count
  simp only [headerOpcode] at h
  simp only [semanticOpcode]
  split_ifs at h with hescape
  · have hdisc := Opcode.discriminant_of_fromExtended h
    rw [if_pos hescape]
    have hpage : (header >>> UInt32.ofNat 8).toUInt8.toNat = (header >>> UInt32.ofNat 8).toNat := by
      rw [UInt32.toNat_toUInt8]
      simp only [Opcode.count, Opcode.baseOpcodeCount] at hc hdisc
      omega
    simp only [UInt8.toNat_add, UInt8.toNat_mul, Opcode.count, Opcode.baseOpcodeCount] at hc hdisc ⊢
    simp only [UInt8.reduceToNat]
    omega
  · rw [if_neg hescape, Opcode.discriminant_of_fromBase h]
    simp only [UInt8.toNat_add, UInt8.reduceToNat]
    omega

theorem transmuteOpcode_semanticOpcode (h : headerOpcode header = some op) :
    transmuteOpcode (semanticOpcode header) = some op := by
  rw [transmuteOpcode, semanticOpcode_eq_discriminant h, Opcode.fromIndex_discriminant]

/-! ## Operands -/

theorem fillOperands_eq_vector (cnt : Nat) (operand : Nat → UInt32) :
    fillOperands cnt operand =
      #v[if 0 < cnt then operand 0 else 0, if 1 < cnt then operand 1 else 0,
         if 2 < cnt then operand 2 else 0] := by
  refine Vector.ext fun idx hi => ?_
  match idx, hi with
  | 0, _ => simp [fillOperands]
  | 1, _ => simp [fillOperands]
  | 2, _ => simp [fillOperands]

/-- The top byte or half of a word needs no mask. -/
theorem shiftRight_and_top (word : UInt32) {k m : Nat} (hk : k < 32) (hm : m < 32)
    (hsum : k + m = 32) :
    word >>> UInt32.ofNat k &&& UInt32.ofNat (2 ^ m - 1) = word >>> UInt32.ofNat k := by
  apply UInt32.toNat_inj.mp
  have hk' : k % 2 ^ 32 % 32 = k := by omega
  have htop : word.toNat / 2 ^ k < 2 ^ m := by
    rw [Nat.div_lt_iff_lt_mul (Nat.two_pow_pos k), ← pow_add, add_comm, hsum]
    exact word.toNat_lt
  rw [toNat_shiftRight_and hk hm, Nat.mod_eq_of_lt htop, UInt32.toNat_shiftRight,
    UInt32.toNat_ofNat', hk', Nat.shiftRight_eq_div_pow]

theorem shiftRight_zero (word : UInt32) : word >>> UInt32.ofNat 0 = word := by
  simp

theorem decodeCompactOperands_eq (header : UInt32) (cnt : Nat) :
    decodeCompactOperands header cnt = fillOperands cnt fun idx =>
        header >>> UInt32.ofNat (8 * (idx + 1)) &&& UInt32.ofNat (2 ^ 8 - 1) := by
  have htop := shiftRight_and_top header (k := 24) (m := 8) (by decide) (by decide) (by decide)
  rw [fillOperands_eq_vector, htop]
  rfl

variable {words : List UInt32}

/-- Reads inside the stream are the defaulted reads of the checked decoder. -/
theorem readOperandWord_eq {idx : Nat} {wanted : Bool} (h : wanted = true → idx < words.length) :
    readOperandWord words wanted idx = some (if wanted then words.getD idx 0 else 0) := by
  unfold readOperandWord
  cases wanted with
  | false => rfl
  | true =>
    have hin := h rfl
    rw [if_pos rfl, if_pos rfl, List.getElem?_eq_getElem hin, List.getD_eq_getElem words 0 hin]

variable {start cnt : Nat}

theorem decodeFullWidthOperands_eq (hin : start + (1 + cnt) ≤ words.length) :
    decodeFullWidthOperands words start cnt =
      some (fillOperands cnt fun idx => words.getD (start + 1 + idx) 0) := by
  rw [fillOperands_eq_vector]
  simp only [decodeFullWidthOperands]
  rw [readOperandWord_eq (by simp; omega), readOperandWord_eq (by simp; omega),
    readOperandWord_eq (by simp; omega)]
  simp [add_assoc]

theorem decodeNormalOperands_eq (hin : start + (1 + (cnt + 1) / 2) ≤ words.length) :
    decodeNormalOperands words start cnt =
      some (fillOperands cnt fun idx =>
        words.getD (start + 1 + idx / 2) 0 >>> UInt32.ofNat (16 * (idx % 2))
          &&& UInt32.ofNat (2 ^ 16 - 1)) := by
  have htop := shiftRight_and_top (words.getD (start + 1) 0) (k := 16) (m := 16)
    (by decide) (by decide) (by decide)
  rw [fillOperands_eq_vector]
  simp only [decodeNormalOperands]
  rw [readOperandWord_eq (by simp; omega), readOperandWord_eq (by simp; omega)]
  simp only [Nat.reduceMod, Nat.mul_zero, mul_one, htop,
    shiftRight_zero, Option.bind_eq_bind, Option.bind_some, decide_eq_true_eq]
  by_cases h0 : 0 < cnt <;> by_cases h1 : 1 < cnt <;> by_cases h2 : 2 < cnt <;>
    first | omega | simp only [h0, h1, h2, if_true, if_false]

/-! ## Agreement -/

/-- Wherever the checked decoder succeeds, the unchecked one reads only existing
words and returns the same instruction. -/
theorem decodeUnchecked_of_decodeInstruction {off : WordOffset} {instr : DecodedInstruction} (h :
    decodeInstruction words off = .ok instr) : decodeUnchecked words off = some instr := by
  obtain ⟨header, op, hget, hop, hform⟩ := decodeInstruction_cases h
  simp only [decodeUnchecked, hget, Option.bind_eq_bind, Option.bind_some,
    transmuteOpcode_semanticOpcode hop]
  rcases hform with ⟨hfm, rfl⟩ | ⟨hfm, hdec⟩ | ⟨hfm, hdec⟩
  · rw [if_pos hfm, decodeCompactOperands_eq]
    rfl
  · obtain ⟨hin, rfl⟩ := decodeNormal_ok hdec
    rw [if_neg (by rw [hfm]; decide), if_pos hfm, decodeNormalOperands_eq hin]
    rfl
  · obtain ⟨hin, rfl⟩ := decodeEscape_ok hdec
    -- The wide and escape formats share the full-width reader.
    rw [if_neg (by rcases hfm with e | e <;> rw [e] <;> decide),
      if_neg (by rcases hfm with e | e <;> rw [e] <;> decide),
      decodeFullWidthOperands_eq hin]
    rfl

/-- On verified code the unchecked decoder agrees with the checked one at every
instruction start: it reads existing words only, its opcode number is that of an
opcode, and it returns exactly the checked decoder's instruction. -/
theorem decodeUnchecked_eq_decodeInstruction (bytecode : Bytecode) (ctx : VerifyContext)
    (code : VerifiedBytecode) (hverify : verify bytecode ctx = .ok code)
    (off : WordOffset) (hst : code.isInstructionStart off = true) :
    ∃ header instr, code.bytecode.words[off.index.toNat]? = some header ∧
      (semanticOpcode header).toNat < Opcode.count ∧
      decodeUnchecked code.bytecode.words off = some instr ∧
      decodeInstruction code.bytecode.words off = .ok instr := by
  obtain ⟨-, trace, hcode⟩ := verify_stream hverify
  obtain ⟨instr, hm⟩ := (hcode.starts_iff off.index.toNat).mp hst
  obtain ⟨hin, hdec⟩ := hcode.decode_start hm
  have hdec' : decodeInstruction code.bytecode.words off = .ok instr := by
    rw [decodeAt, WordOffset.new_index_toNat] at hdec
    exact hdec
  obtain ⟨header, op, hheader, hop, -⟩ := decodeInstruction_cases hdec'
  refine ⟨header, instr, hheader, ?_, decodeUnchecked_of_decodeInstruction hdec', hdec'⟩
  rw [semanticOpcode_eq_discriminant hop]
  exact op.discriminant_lt_count

/-- A jump back to an escaped instruction: both decoders read the delete at
offset zero. -/
theorem decodeUnchecked_eq_decodeInstruction_delete :
    ∃ code header instr, verify ⟨[0xc0, 0, 1, 0, 9]⟩
        { registerCount := 2, constants := [], functionCount := 0, scopeNameCount := 1
          maxEnvironmentSlotCount := 0 } = .ok code ∧
      code.bytecode.words[0]? = some header ∧ (semanticOpcode header).toNat < Opcode.count ∧
      decodeUnchecked code.bytecode.words ⟨0⟩ = some instr ∧
      decodeInstruction code.bytecode.words ⟨0⟩ = .ok instr := by
  have hverify : verify ⟨[0xc0, 0, 1, 0, 9]⟩
      { registerCount := 2, constants := [], functionCount := 0, scopeNameCount := 1
        maxEnvironmentSlotCount := 0 } =
      .ok ⟨⟨[0xc0, 0, 1, 0, 9]⟩, [true, false, false, false, true]⟩ := by rfl
  obtain ⟨header, instr, hheader, hnumber, hunchecked, hcheck⟩ :=
    decodeUnchecked_eq_decodeInstruction _ _ _ hverify ⟨0⟩ rfl
  exact ⟨_, header, instr, hverify, hheader, hnumber, hunchecked, hcheck⟩

end TachyonEngine.Bytecode
