import TachyonEngine.Bytecode.Unchecked

/-!
# The words of a decoded instruction

Where no bit is ignored, the words that a decoder consumes are those of the number that opcode, form
and operands determine. The normal, wide and escape forms reject their reserved bits; the compact
form does not look at the bytes behind its last operand.
-/

namespace TachyonEngine.Bytecode

open Lib.MachineWord

/-- An operand of an instruction; those behind the last one are zero. -/
def operandAt (operands : Vector UInt32 3) (index : Nat) :
    Nat := (operands.toList.getD index 0).toNat

/-- The number of the header of an instruction without reserved bits. -/
def headerNumber (op : Opcode) (width : OperandWidth) (operands : Vector UInt32 3) : Nat :=
  if Opcode.baseOpcodeCount ≤ op.discriminant then
    let extension := op.discriminant - Opcode.baseOpcodeCount
    256 * (extension / Opcode.baseOpcodeCount) + (192 + extension % Opcode.baseOpcodeCount)
  else
    match width with
    | .compact =>
      op.discriminant + 2 ^ 8 * operandAt operands 0 + 2 ^ 16 * operandAt operands 1 +
        2 ^ 24 * operandAt operands 2
    | .normal => 64 + op.discriminant
    | .wide => 128 + op.discriminant

/-- The number of a word behind the header. -/
def operandNumber (width : OperandWidth) (operands : Vector UInt32 3) (index : Nat) : Nat :=
  match width with
  | .compact => 0
  | .normal => operandAt operands (2 * index) + 2 ^ 16 * operandAt operands (2 * index + 1)
  | .wide => operandAt operands index

/-- The number of a word of an instruction without reserved bits. -/
def wordNumber (op : Opcode) (width : OperandWidth) (operands : Vector UInt32 3) : Nat → Nat
  | 0 => headerNumber op width operands
  | index + 1 => operandNumber width operands index

/-! ## Headers -/

theorem operandAt_fillOperands (cnt : Nat) (hc : cnt ≤ 3) (operand : Nat → UInt32) (idx : Nat) :
    operandAt (fillOperands cnt operand) idx = if idx < cnt then (operand idx).toNat else 0 := by
  rw [operandAt, fillOperands_eq_vector]
  match idx with
  | 0 => by_cases h : 0 < cnt <;> simp [h]
  | 1 => by_cases h : 1 < cnt <;> simp [h]
  | 2 => by_cases h : 2 < cnt <;> simp [h]
  | idx + 3 =>
    have hnot : ¬ idx + 3 < cnt := by omega
    simp [hnot]

/-- The two fields of the first byte. -/
theorem toNat_raw (raw : UInt8) :
    raw.toNat = (raw &&& formatMask).toNat + (raw &&& opcodeMask).toNat := by
  have hfields : ∀ n < 256, n = (n &&& 192) + (n &&& 63) := by decide +kernel
  exact hfields raw.toNat raw.toNat_lt

variable {header : UInt32} {op : Opcode}

/-- A header that names a base opcode. -/
theorem toNat_raw_base (hop : headerOpcode header = some op) (hfm : header.toUInt8 &&& formatMask ≠
    escapeFormat) :
    header.toNat % 256 = (header.toUInt8 &&& formatMask).toNat + op.discriminant ∧
      op.discriminant < Opcode.baseOpcodeCount := by
  rw [headerOpcode] at hop
  simp only [if_neg hfm] at hop
  have hdiscriminant := Opcode.discriminant_of_fromBase hop
  rw [← UInt32.toNat_toUInt8, toNat_raw header.toUInt8, hdiscriminant]
  exact ⟨rfl, opcodeMask_lt _⟩

theorem toNat_header_escape (hop : headerOpcode header = some op) (hfm : header.toUInt8 &&&
    formatMask = escapeFormat) (width : OperandWidth) (ops : Vector UInt32 3) :
    header.toNat = headerNumber op width ops := by
  rw [headerOpcode] at hop
  simp only [if_pos hfm] at hop
  have hdiscriminant := Opcode.discriminant_of_fromExtended hop
  have hraw := toNat_raw header.toUInt8
  have hpage : (header >>> UInt32.ofNat 8).toNat = header.toNat / 256 := by
    exact Nat.shiftRight_eq_div_pow _ _
  rw [hfm, UInt32.toNat_toUInt8] at hraw
  rw [headerNumber.eq_def, if_pos (by omega)]
  simp only [Opcode.baseOpcodeCount, escapeFormat, UInt8.reduceToNat] at *
  omega

/-- A header without bits above its first byte. -/
theorem lt_of_header_and (h : header &&& 0xffffff00 = 0) : header.toNat < 256 := by
  have hand : header.toNat &&& 4294967040 = 0 := by
    have hnumber := congrArg UInt32.toNat h
    rwa [UInt32.toNat_and] at hnumber
  have hhigh : (header.toNat / 2 ^ 8) &&& (2 ^ 24 - 1) = 0 := by
    have hdiv : (header.toNat &&& 4294967040) / 2 ^ 8 = 0 := by
      rw [hand]
      rfl
    rwa [Nat.and_div_two_pow] at hdiv
  rw [Nat.and_two_pow_sub_one_eq_mod, Nat.mod_eq_of_lt] at hhigh
  · omega
  · have hlt := header.toNat_lt
    omega

/-! ## Accepted instructions -/

variable {words : List UInt32} {off : WordOffset} {instr : DecodedInstruction}

/-- A normal or wide header is accepted without bits above its first byte. -/
theorem header_and_of_decode (h : decodeInstruction words off = .ok instr) (hheader :
    words[off.index.toNat]? = some header) (hescape : header.toUInt8 &&& formatMask ≠ escapeFormat)
    (hcompact : header.toUInt8 &&& formatMask ≠ 0) : header &&& 0xffffff00 = 0 := by
  simp only [decodeInstruction, hheader] at h
  split at h
  · cases h
  · rw [if_neg hescape] at h
    split at h
    · cases h
    · next hbits => exact Decidable.not_not.mp fun hne => hbits ⟨hcompact, hne⟩

/-- The half of a normal word that no operand takes is zero. -/
theorem half_of_decodeNormal (h : decodeNormal words off op = .ok instr) (hodd : op.operandCount % 2
    = 1) : words.getD (off.index.toNat + (op.operandCount + 1) / 2) 0 >>> UInt32.ofNat 16 = 0 := by
  simp only [decodeNormal] at h
  split at h
  · cases h
  · split_ifs at h
    next hhalf => exact Decidable.not_not.mp fun hne => hhalf ⟨hodd, hne⟩

section Words

variable {words : List UInt32} {off : WordOffset} {op : Opcode} {instr : DecodedInstruction}

variable {idx : Nat}

theorem toNat_operandWord_wide (h : decodeEscape words off op = .ok instr) (hi : idx <
    op.operandCount) :
    (words.getD (off.index.toNat + 1 + idx) 0).toNat = operandNumber .wide instr.operands idx := by
  obtain ⟨-, rfl⟩ := decodeEscape_ok h
  simp only [operandNumber]
  rw [operandAt_fillOperands _ op.operandCount_le_three, if_pos hi]

theorem toNat_operandWord_normal (h : decodeNormal words off op = .ok instr) (hi : idx <
    (op.operandCount + 1) / 2) : (words.getD (off.index.toNat + 1 + idx) 0).toNat =
      operandNumber .normal instr.operands idx := by
  have hhalf := half_of_decodeNormal h
  obtain ⟨-, rfl⟩ := decodeNormal_ok h
  have hc := op.operandCount_le_three
  have hlow : 2 * idx < op.operandCount := by omega
  simp only [operandNumber]
  rw [operandAt_fillOperands _ hc, operandAt_fillOperands _ hc, if_pos hlow,
    show 2 * idx / 2 = idx by omega, show (2 * idx + 1) / 2 = idx by omega,
    show 16 * (2 * idx % 2) = 0 by omega, show 16 * ((2 * idx + 1) % 2) = 16 by omega,
    toNat_shiftRight_and (by decide) (by decide), toNat_shiftRight_and (by decide) (by decide)]
  have hlt := (words.getD (off.index.toNat + 1 + idx) 0).toNat_lt
  by_cases hhigh : 2 * idx + 1 < op.operandCount
  · rw [if_pos hhigh]
    omega
  · -- the last word of an odd number of operands
    rw [if_neg hhigh]
    have hz := congrArg UInt32.toNat (hhalf (by omega))
    rw [show off.index.toNat + (op.operandCount + 1) / 2 = off.index.toNat + 1 + idx by omega,
      UInt32.toNat_zero] at hz
    have hdiv : (words.getD (off.index.toNat + 1 + idx) 0).toNat / 2 ^ 16 = 0 := by
      rw [← hz]
      exact (Nat.shiftRight_eq_div_pow _ _).symm
    omega

variable {header : UInt32}

/-- A compact header of which every byte is used. -/
theorem toNat_header_compact (hop : headerOpcode header = some op) (hfm : header.toUInt8 &&&
    formatMask = 0) (hc : op.operandCount = 3) :
    header.toNat = headerNumber op .compact (decodeCompact header op).operands := by
  have hne : header.toUInt8 &&& formatMask ≠ escapeFormat := by
    rw [hfm]
    decide
  obtain ⟨hraw, hbase⟩ := toNat_raw_base hop hne
  have hlt := header.toNat_lt
  rw [hfm, UInt8.toNat_zero] at hraw
  rw [headerNumber, if_neg (not_le.mpr hbase)]
  simp only [decodeCompact]
  rw [operandAt_fillOperands _ hc.le, operandAt_fillOperands _ hc.le,
    operandAt_fillOperands _ hc.le, hc, if_pos (by decide), if_pos (by decide),
    if_pos (by decide), toNat_shiftRight_and (by decide) (by decide),
    toNat_shiftRight_and (by decide) (by decide), toNat_shiftRight_and (by decide) (by decide)]
  omega

/-- A normal or a wide header of a base opcode. -/
theorem toNat_header_base (h : decodeInstruction words off = .ok instr) (hheader :
    words[off.index.toNat]? = some header) (hop : headerOpcode header = some op) (hescape :
    header.toUInt8 &&& formatMask ≠ escapeFormat) (hcompact : header.toUInt8 &&& formatMask ≠ 0) :
    header.toNat = (header.toUInt8 &&& formatMask).toNat + op.discriminant ∧
      op.discriminant < Opcode.baseOpcodeCount := by
  obtain ⟨hraw, hbase⟩ := toNat_raw_base hop hescape
  have hsm := lt_of_header_and (header_and_of_decode h hheader hescape hcompact)
  rw [Nat.mod_eq_of_lt hsm] at hraw
  exact ⟨hraw, hbase⟩

/-- Where every byte of a compact header is used, each consumed word is the one that opcode, form
and operands determine. -/
theorem toNat_consumed (h : decodeInstruction words off = .ok instr) (hused : instr.width = .compact
    → instr.opcode.operandCount = 3) (hi : idx < instr.wordLen.toNat) :
    (words.getD (off.index.toNat + idx) 0).toNat =
      wordNumber instr.opcode instr.width instr.operands idx := by
  obtain ⟨header, op, hheader, hop, hform⟩ := decodeInstruction_cases h
  have hfirst : words.getD (off.index.toNat + 0) 0 = header := by
    rw [add_zero, List.getD_eq_getElem?_getD, hheader, Option.getD_some]
  have hc := op.operandCount_le_three
  rcases hform with ⟨hfm, rfl⟩ | ⟨hfm, hnormal⟩ | ⟨hfm, hwide⟩
  · -- one word, and three operands fill it
    obtain rfl : idx = 0 := Nat.lt_one_iff.mp hi
    rw [hfirst]
    exact toNat_header_compact hop hfm (hused rfl)
  · have hlen := (decodeNormal_ok hnormal).2
    have hbase := toNat_header_base h hheader hop (by rw [hfm]; decide) (by rw [hfm]; decide)
    cases idx with
    | zero =>
      rw [hfirst, hlen, wordNumber, headerNumber, if_neg (not_le.mpr hbase.2), hbase.1, hfm]
      rfl
    | succ idx =>
      rw [hlen] at hi
      have hdata : idx < (op.operandCount + 1) / 2 := by
        have hword : (UInt8.ofNat (1 + (op.operandCount + 1) / 2)).toNat =
            1 + (op.operandCount + 1) / 2 := by
          rw [UInt8.toNat_ofNat', Nat.mod_eq_of_lt (by omega)]
        simp only [hword] at hi
        omega
      have hword := toNat_operandWord_normal hnormal hdata
      rw [show off.index.toNat + (idx + 1) = off.index.toNat + 1 + idx by omega, hword, hlen]
      rfl
  · have hlen := (decodeEscape_ok hwide).2
    cases idx with
    | zero =>
      rw [hfirst, hlen, wordNumber]
      rcases hfm with hfm | hfm
      · have hbase := toNat_header_base h hheader hop (by rw [hfm]; decide) (by rw [hfm]; decide)
        rw [headerNumber, if_neg (not_le.mpr hbase.2), hbase.1, hfm]
        rfl
      · exact toNat_header_escape hop hfm _ _
    | succ idx =>
      rw [hlen] at hi
      have hdata : idx < op.operandCount := by
        have hword : (UInt8.ofNat (1 + op.operandCount)).toNat = 1 + op.operandCount := by
          rw [UInt8.toNat_ofNat', Nat.mod_eq_of_lt (by omega)]
        simp only [hword] at hi
        omega
      have hword := toNat_operandWord_wide hwide hdata
      rw [show off.index.toNat + (idx + 1) = off.index.toNat + 1 + idx by omega, hword, hlen]
      rfl

end Words

/-! ## Streams that decode alike -/

/-- Every stream that decodes somewhere to the opcode, the form and the operands of an instruction
has the words there that the instruction was decoded from. -/
def IgnoresNoBits (words : List UInt32) (off : WordOffset) (instr : DecodedInstruction) : Prop :=
  ∀ (others : List UInt32) (place : WordOffset) (other : DecodedInstruction),
    decodeInstruction others place = .ok other → other.opcode = instr.opcode →
    other.width = instr.width → other.operands = instr.operands →
    other.wordLen = instr.wordLen ∧ ∀ index < instr.wordLen.toNat,
      others.getD (place.index.toNat + index) 0 = words.getD (off.index.toNat + index) 0

/-- The number of words follows from the opcode and the form. -/
theorem wordLen_eq (h : decodeInstruction words off = .ok instr) :
    instr.wordLen = match instr.width with
      | .compact => 1
      | .normal => UInt8.ofNat (1 + (instr.opcode.operandCount + 1) / 2)
      | .wide => UInt8.ofNat (1 + instr.opcode.operandCount) := by
  obtain ⟨header, op, -, -, ⟨-, rfl⟩ | ⟨-, hnormal⟩ | ⟨-, hwide⟩⟩ := decodeInstruction_cases h
  · rfl
  · rw [(decodeNormal_ok hnormal).2]
  · rw [(decodeEscape_ok hwide).2]

/-- A compact instruction with less than three operands does not see the highest byte. -/
theorem decode_otherTopByte {other : UInt32} (ho : other.toNat % 2 ^ 24 = header.toNat % 2 ^ 24)
    (hop : headerOpcode header = some op) (hfm : header.toUInt8 &&& formatMask = 0) (hc :
    op.operandCount < 3) : decodeInstruction [other] ⟨0⟩ = .ok (decodeCompact header op) := by
  have hraw : other.toUInt8 = header.toUInt8 := by
    apply UInt8.toNat_inj.mp
    rw [UInt32.toNat_toUInt8, UInt32.toNat_toUInt8]
    omega
  have hplain : ¬ header.toUInt8 &&& formatMask = escapeFormat := by
    rw [hfm]
    decide
  have hs : headerOpcode other = some op := by
    rw [← hop, headerOpcode, headerOpcode, hraw]
    simp only [if_neg hplain]
  have hbyte : ∀ idx < 2, other >>> UInt32.ofNat (8 * (idx + 1)) &&& UInt32.ofNat (2 ^ 8 - 1) =
      header >>> UInt32.ofNat (8 * (idx + 1)) &&& UInt32.ofNat (2 ^ 8 - 1) := by
    intro idx hi
    apply UInt32.toNat_inj.mp
    rw [toNat_shiftRight_and (by omega) (by decide), toNat_shiftRight_and (by omega) (by decide)]
    rcases idx with _ | _ | idx
    · omega
    · omega
    · omega
  have hcompact : decodeCompact other op = decodeCompact header op := by
    have hl : ¬ 2 < op.operandCount := by omega
    simp only [decodeCompact, fillOperands_eq_vector, hbyte 0 (by decide), hbyte 1 (by decide),
      if_neg hl]
  have hword : [other][(⟨0⟩ : WordOffset).index.toNat]? = some other := rfl
  simp only [decodeInstruction, hword, hs, hraw, if_neg hplain, hcompact]
  rw [if_neg fun hreserved => hreserved.1 hfm, if_pos hfm]

/-- No bit of a decoded instruction is ignored exactly where it is not a compact one with less than
three operands. -/
theorem ignoresNoBits_iff {words : List UInt32} {off : WordOffset} {instr : DecodedInstruction}
    (h : decodeInstruction words off = .ok instr) :
    IgnoresNoBits words off instr ↔ (instr.width = .compact → instr.opcode.operandCount = 3) := by
  constructor
  · intro hall hcompact
    obtain ⟨header, op, hheader, hop, hform⟩ := decodeInstruction_cases h
    rcases hform with ⟨hfm, rfl⟩ | ⟨-, hnormal⟩ | ⟨-, hwide⟩
    · -- the same instr from a header that differs above the operands
      have hc := op.operandCount_le_three
      by_contra hless
      obtain ⟨other, htop⟩ : ∃ other : UInt32, other.toNat = (header.toNat + 2 ^ 31) % 2 ^ 32 :=
        ⟨UInt32.ofNat (header.toNat + 2 ^ 31), UInt32.toNat_ofNat'⟩
      have ho := decode_otherTopByte (show other.toNat % 2 ^ 24 = header.toNat % 2 ^ 24 by omega)
        hop hfm (Nat.lt_of_le_of_ne hc hless)
      obtain ⟨-, hwords⟩ := hall _ _ _ ho rfl rfl rfl
      have hfirst := hwords 0 Nat.one_pos
      rw [Nat.add_zero, Nat.add_zero, List.getD_eq_getElem?_getD, List.getD_eq_getElem?_getD,
        hheader] at hfirst
      have hnumber : other.toNat = header.toNat := congrArg UInt32.toNat hfirst
      omega
    · rw [(decodeNormal_ok hnormal).2] at hcompact
      cases hcompact
    · rw [(decodeEscape_ok hwide).2] at hcompact
      cases hcompact
  · intro hused others place other ho hop hwidth hops
    have hlen : other.wordLen = instr.wordLen := by
      rw [wordLen_eq ho, wordLen_eq h, hop, hwidth]
    refine ⟨hlen, ?_⟩
    intro idx hi
    apply UInt32.toNat_inj.mp
    rw [toNat_consumed h hused hi, toNat_consumed ho (by rw [hwidth, hop]; exact hused)
      (by rw [hlen]; exact hi), hop, hwidth, hops]

/-- An addition of three registers in one word, and an escaped instruction of two words. -/
theorem ignoresNoBits_add :
    IgnoresNoBits [0x03020104] ⟨0⟩ ⟨.add, .compact, #v[1, 2, 3], 3, 1⟩ ∧
      IgnoresNoBits [0xc5, 7] ⟨0⟩ ⟨.loadArgumentsLength, .wide, #v[7, 0, 0], 1, 2⟩ :=
  ⟨(ignoresNoBits_iff (by decide)).mpr (by decide), (ignoresNoBits_iff (by decide)).mpr (by decide)⟩

/-- The upper bytes of a compact instruction without operands are not looked at. -/
theorem not_ignoresNoBits_nop :
    decodeInstruction [0] ⟨0⟩ = .ok ⟨.nop, .compact, #v[0, 0, 0], 0, 1⟩ ∧
      decodeInstruction [0xffffff00] ⟨0⟩ = .ok ⟨.nop, .compact, #v[0, 0, 0], 0, 1⟩ ∧
      ¬ IgnoresNoBits [0] ⟨0⟩ ⟨.nop, .compact, #v[0, 0, 0], 0, 1⟩ := by
  refine ⟨by decide, by decide, ?_⟩
  intro hall
  obtain ⟨-, hwords⟩ := hall [0xffffff00] ⟨0⟩ ⟨.nop, .compact, #v[0, 0, 0], 0, 1⟩
    (by decide) rfl rfl rfl
  exact absurd (hwords 0 (by decide)) (by decide)

end TachyonEngine.Bytecode
