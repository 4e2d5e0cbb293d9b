import TachyonEngine.Bytecode.Encoding
import Mathlib.Data.List.Induction
import Mathlib.Tactic.Linarith

/-!
# Decoding undoes encoding

An encoded instruction decodes to itself at any position of a word stream,
whatever words surround it (`decodeInstruction_encodeInstruction`), and a base
opcode takes the narrowest operand form that holds every operand. Each of the
four physical forms has its own round-trip lemma: `decode_escaped`,
`decode_compact`, `decode_normal` and `decode_wide`.
-/

namespace TachyonEngine.Bytecode

open Lib.MachineWord

/-- Bits an operand form has for one operand. -/
def OperandWidth.bits : OperandWidth → Nat
  | .compact => 8
  | .normal => 16
  | .wide => 32

/-- Every operand fits the form. -/
def OperandWidth.Holds (width : OperandWidth) (ops : List UInt32) : Prop :=
  ∀ operand ∈ ops, operand.toNat < 2 ^ width.bits

/-- The operand array of an instruction, padded with zeros. -/
def paddedOperands (ops : List UInt32) : Vector UInt32 3 :=
  Vector.ofFn fun index => ops.getD index.val 0

section

variable (ops : List UInt32)

theorem narrowestWidth_holds : (narrowestWidth ops).Holds ops := by
  intro operand hm
  unfold narrowestWidth
  by_cases h8 : ops.all (fun operand => operand ≤ 0xff) = true
  · rw [if_pos h8]
    have h := List.all_eq_true.mp h8 operand hm
    have h' : operand.toNat ≤ 255 := by simpa [UInt32.le_iff_toNat_le] using h
    show operand.toNat < 2 ^ 8
    omega
  · rw [if_neg h8]
    by_cases h16 : ops.all (fun operand => operand ≤ 0xffff) = true
    · rw [if_pos h16]
      have h := List.all_eq_true.mp h16 operand hm
      have h' : operand.toNat ≤ 65535 := by simpa [UInt32.le_iff_toNat_le] using h
      show operand.toNat < 2 ^ 16
      omega
    · rw [if_neg h16]
      exact operand.toNat_lt

/-- A form that holds every operand is at least as wide as the one chosen. -/
theorem narrowestWidth_minimal (width : OperandWidth) (hwidth : width.Holds ops) :
    (narrowestWidth ops).bits ≤ width.bits := by
  have hall : ∀ bound : UInt32, 2 ^ width.bits ≤ bound.toNat + 1 →
      ops.all (fun operand => operand ≤ bound) = true := by
    intro bound hbound
    refine List.all_eq_true.mpr fun operand hm => ?_
    have h := hwidth operand hm
    simp only [decide_eq_true_eq, UInt32.le_iff_toNat_le]
    omega
  unfold narrowestWidth
  cases width with
  | compact =>
    rw [if_pos (hall 0xff (by decide))]
  | normal =>
    rw [if_pos (hall 0xffff (by decide))]
    split <;> decide
  | wide =>
    split
    · decide
    · split <;> decide

/-! ## Reading inside a stream -/

/-- Inside the middle part of a stream, reads see that part. -/
theorem getD_stream (pre code suf : List UInt32) {k : Nat} (hk : k < code.length) :
    (pre ++ code ++ suf).getD (pre.length + k) 0 = code.getD k 0 := by
  rw [List.append_assoc, List.getD_append_right _ _ _ _ (Nat.le_add_right _ _),
    Nat.add_sub_cancel_left, List.getD_append _ _ _ _ hk]

theorem getElem?_stream (pre : List UInt32) (header : UInt32) (rest suf : List UInt32) :
    (pre ++ (header :: rest) ++ suf)[pre.length]? = some header := by
  simp

/-- The bounds test of the operand decoders passes inside a stream. -/
theorem stream_not_truncated (pre code suf : List UInt32) {n : Nat} (hn : n ≤ code.length) :
    ¬ (pre ++ code ++ suf).length - pre.length < n := by
  simp only [List.length_append]
  omega

/-- A filled operand array is the padded operand list when every entry is. -/
theorem fillOperands_eq_padded {ops : List UInt32} {operand : Nat → UInt32}
    (h : ∀ idx < ops.length, operand idx = ops.getD idx 0) :
    fillOperands ops.length operand = paddedOperands ops := by
  refine Vector.ext fun idx hi => ?_
  simp only [fillOperands, paddedOperands, Vector.getElem_ofFn]
  by_cases hlt : idx < ops.length
  · rw [if_pos hlt, h idx hlt]
  · rw [if_neg hlt, List.getD_eq_default _ _ (Nat.le_of_not_lt hlt)]

/-! ## Headers -/

/-- The escape header of an extended opcode. -/
def escapeHeader (op : Opcode) : UInt32 :=
  (escapeFormat ||| UInt8.ofNat ((op.discriminant - Opcode.baseOpcodeCount) %
      Opcode.baseOpcodeCount)).toUInt32 |||
    UInt32.ofNat ((op.discriminant - Opcode.baseOpcodeCount) / Opcode.baseOpcodeCount)
      <<< UInt32.ofNat 8

theorem escapeHeader_facts (op : Opcode) (hext : Opcode.baseOpcodeCount ≤ op.discriminant) :
    (escapeHeader op).toUInt8 &&& formatMask = escapeFormat ∧
      headerOpcode (escapeHeader op) = some op := by
  cases op <;> first | exact absurd hext (by decide) | exact ⟨by decide, by decide⟩

/-- Or-ing a format into a base number leaves the opcode and sets the format. -/
theorem formattedHeader_facts (op : Opcode)
    (hbase : op.discriminant < Opcode.baseOpcodeCount) (format : UInt8)
    (hfm : format = normalFormat ∨ format = wideFormat) :
    (UInt8.ofNat op.discriminant ||| format).toUInt32.toUInt8 &&& formatMask = format ∧
      (UInt8.ofNat op.discriminant ||| format).toUInt32 &&& 0xffffff00 = 0 ∧
      headerOpcode (UInt8.ofNat op.discriminant ||| format).toUInt32 = some op := by
  rcases hfm with rfl | rfl <;> cases op <;>
    first | exact absurd hbase (by decide) | exact ⟨by decide, by decide, by decide⟩

/-- A header whose low byte is a base number is compact and names that opcode. -/
theorem compactHeader_facts (op : Opcode)
    (hbase : op.discriminant < Opcode.baseOpcodeCount) {header : UInt32}
    (hraw : header.toUInt8 = UInt8.ofNat op.discriminant) :
    header.toUInt8 &&& formatMask = 0 ∧ headerOpcode header = some op := by
  have hmask : UInt8.ofNat op.discriminant &&& formatMask = 0 ∧
      Opcode.fromBase (UInt8.ofNat op.discriminant &&& opcodeMask).toNat = some op := by
    cases op <;> first | exact absurd hbase (by decide) | exact ⟨by decide, by decide⟩
  refine ⟨by rw [hraw]; exact hmask.1, ?_⟩
  simp only [headerOpcode, hraw, hmask.1]
  exact hmask.2

/-! ## Packed operands -/

/-- Two 16-bit operands or-ed into one word are its lower and upper halves. -/
theorem pairWord_facts (first second : UInt32) (hfirst : first.toNat < 2 ^ 16)
    (hsec : second.toNat < 2 ^ 16) :
    (first ||| second <<< UInt32.ofNat 16) >>> UInt32.ofNat (16 * 0)
        &&& UInt32.ofNat (2 ^ 16 - 1) = first ∧
      (first ||| second <<< UInt32.ofNat 16) >>> UInt32.ofNat (16 * 1)
        &&& UInt32.ofNat (2 ^ 16 - 1) = second := by
  have hword := toNat_or_shiftLeft (k := 16) (by decide) hfirst (x := second) (by omega)
  constructor <;> apply UInt32.toNat_inj.mp
  · rw [toNat_shiftRight_and (by decide) (by decide)]
    omega
  · rw [toNat_shiftRight_and (by decide) (by decide)]
    omega

/-- The data words of the normal form hold every 16-bit operand, and the upper
half of an odd last word is zero. -/
theorem packPairs_facts (hfits : OperandWidth.normal.Holds ops) :
    (packPairs ops).length = (ops.length + 1) / 2 ∧ (∀ idx < ops.length,
        (packPairs ops).getD (idx / 2) 0 >>> UInt32.ofNat (16 * (idx % 2))
          &&& UInt32.ofNat (2 ^ 16 - 1) = ops.getD idx 0) ∧ (ops.length % 2 = 1 →
        (packPairs ops).getD ((ops.length + 1) / 2 - 1) 0 >>> UInt32.ofNat 16 = 0) := by
  fun_induction packPairs ops with
  | case1 => simp
  | case2 first =>
    have hfirst : first.toNat < 2 ^ 16 := hfits first (by simp)
    obtain ⟨hlower, -⟩ := pairWord_facts first 0 hfirst (by decide)
    refine ⟨by simp, ?_, ?_⟩
    · intro idx hi
      have e : idx = 0 := by simpa using hi
      subst e
      exact hlower
    · intro _
      apply UInt32.toNat_inj.mp
      have hword := toNat_or_shiftLeft (k := 16) (by decide) hfirst (x := 0) (by decide)
      simp only [List.length_singleton, Nat.sub_self, List.getD_cons_zero]
      rw [UInt32.toNat_shiftRight, hword, Nat.shiftRight_eq_div_pow]
      show (first.toNat + 0 * 2 ^ 16) / 2 ^ 16 = 0
      omega
  | case3 first second rest ih =>
    have hfirst : first.toNat < 2 ^ 16 := hfits first (by simp)
    have hsec : second.toNat < 2 ^ 16 := hfits second (by simp)
    obtain ⟨hlower, hupper⟩ := pairWord_facts first second hfirst hsec
    obtain ⟨hlen, hread, hodd⟩ := ih fun operand hm => hfits operand (by simp [hm])
    refine ⟨?_, ?_, ?_⟩
    · simp only [List.length_cons]
      omega
    · intro idx hi
      match idx with
      | 0 => exact hlower
      | 1 => exact hupper
      | idx + 2 =>
        have hdiv : (idx + 2) / 2 = idx / 2 + 1 := by omega
        have hmod : (idx + 2) % 2 = idx % 2 := by omega
        rw [hdiv, hmod]
        exact hread idx (by simpa using hi)
    · intro hone
      simp only [List.length_cons] at hone ⊢
      have e : (rest.length + 1 + 1 + 1) / 2 - 1 = ((rest.length + 1) / 2 - 1) + 1 := by omega
      rw [e]
      exact hodd (by omega)

theorem packCompact_append (base : UInt32) (ops : List UInt32) (last : UInt32) :
    packCompact base (ops ++ [last]) =
      packCompact base ops ||| last <<< UInt32.ofNat (8 * (ops.length + 1)) := by
  simp [packCompact, List.zipIdx_append]

/-- A compact word keeps its base in the low byte and each operand in the byte
above it; the bytes past the last operand are zero. -/
theorem packCompact_toNat {base : UInt32} (hthree : ops.length ≤ 3)
    (hbase : base.toNat < 2 ^ 8) (hfits : OperandWidth.compact.Holds ops) :
    (packCompact base ops).toNat < 2 ^ (8 * (ops.length + 1)) ∧
      (packCompact base ops).toNat % 2 ^ 8 = base.toNat ∧ ∀ idx < ops.length,
        (packCompact base ops).toNat / 2 ^ (8 * (idx + 1)) % 2 ^ 8 = (ops.getD idx 0).toNat := by
  induction ops using List.reverseRecOn with
  | nil => exact ⟨hbase, Nat.mod_eq_of_lt hbase, fun idx hi => absurd hi (by simp)⟩
  | append_singleton ops last ih =>
    simp only [List.length_append, List.length_singleton] at hthree ⊢
    obtain ⟨hlt, hlow, hread⟩ := ih (by omega) fun operand hm => hfits operand (by simp [hm])
    have hl : last.toNat < 2 ^ 8 := hfits last (by simp)
    -- The new operand lands in the first byte the word does not use yet.
    have hroom : last.toNat * 2 ^ (8 * (ops.length + 1)) < 2 ^ (8 * (ops.length + 1 + 1)) := by
      rw [Nat.mul_succ 8 (ops.length + 1), pow_add, mul_comm]
      exact mul_lt_mul_of_pos_left hl (Nat.two_pow_pos _)
    have hcap : 2 ^ (8 * (ops.length + 1 + 1)) ≤ 2 ^ 32 :=
      Nat.pow_le_pow_right (by decide) (by omega)
    have hword := toNat_or_shiftLeft (k := 8 * (ops.length + 1)) (by omega) hlt
      (lt_of_lt_of_le hroom hcap)
    rw [packCompact_append, hword]
    refine ⟨?_, ?_, ?_⟩
    · rw [Nat.mul_succ 8 (ops.length + 1), pow_add]
      nlinarith [Nat.two_pow_pos (8 * (ops.length + 1))]
    · rw [Nat.mul_succ 8 ops.length, pow_add, ← mul_assoc, Nat.add_mul_mod_self_right, hlow]
    · intro idx hi
      rcases Nat.lt_succ_iff_lt_or_eq.mp hi with hold | rfl
      · have e : 8 * (ops.length + 1) = 8 * (idx + 1) + (8 + 8 * (ops.length - 1 - idx)) := by omega
        rw [e, pow_add, pow_add, mul_left_comm,
          Nat.add_mul_div_left _ _ (Nat.two_pow_pos _), mul_left_comm,
          Nat.add_mul_mod_self_left, hread idx hold, List.getD_append _ _ _ _ hold]
      · rw [Nat.add_mul_div_right _ _ (Nat.two_pow_pos _), Nat.div_eq_of_lt hlt, zero_add,
          Nat.mod_eq_of_lt hl, List.getD_append_right _ _ _ _ (le_refl _)]
        simp

end

/-! ## The four forms -/

/-- What the decoder returns for an instruction of the given form and length. -/
def decodedAs (op : Opcode) (width : OperandWidth) (ops : List UInt32)
    (wordLen : Nat) : DecodedInstruction :=
  { opcode := op, width, operands := paddedOperands ops
    operandCount := UInt8.ofNat ops.length, wordLen := UInt8.ofNat wordLen }

section Forms

variable (op : Opcode) (ops : List UInt32)
  (hcount : ops.length = op.operandCount) (pre suf : List UInt32)
  (hpre : pre.length < 2 ^ 32)

include hcount hpre

/-- Full-width operands behind any header are read back. -/
theorem decodeEscape_stream (header : UInt32) :
    decodeEscape (pre ++ (header :: ops) ++ suf) (WordOffset.new pre.length) op =
      .ok (decodedAs op .wide ops (header :: ops).length) := by
  have hread : ∀ idx < ops.length,
      (pre ++ (header :: ops) ++ suf).getD (pre.length + 1 + idx) 0 = ops.getD idx 0 := by
    intro idx hi
    rw [add_assoc, getD_stream pre (header :: ops) suf (by simp; omega),
      add_comm 1 idx, List.getD_cons_succ]
  have hlen : 1 + ops.length ≤ (header :: ops).length := by simp; omega
  simp only [decodeEscape, index_toNat_new hpre, ← hcount]
  rw [if_neg (stream_not_truncated pre (header :: ops) suf hlen), fillOperands_eq_padded hread]
  simp [decodedAs, add_comm]

theorem decode_escaped (hext : Opcode.baseOpcodeCount ≤ op.discriminant) :
    decodeInstruction (pre ++ (escapeHeader op :: ops) ++ suf) (WordOffset.new pre.length) =
      .ok (decodedAs op .wide ops (escapeHeader op :: ops).length) := by
  obtain ⟨hfm, hop⟩ := escapeHeader_facts op hext
  simp only [decodeInstruction, index_toNat_new hpre, getElem?_stream, hop, hfm, if_true]
  exact decodeEscape_stream op ops hcount pre suf hpre _

section

variable (hbase : op.discriminant < Opcode.baseOpcodeCount)

include hbase

theorem decode_wide : decodeInstruction
        (pre ++ ((UInt8.ofNat op.discriminant ||| wideFormat).toUInt32 :: ops) ++ suf)
        (WordOffset.new pre.length) = .ok (decodedAs op .wide ops (ops.length + 1)) := by
  obtain ⟨hfm, hreserved, hop⟩ := formattedHeader_facts op hbase wideFormat (.inr rfl)
  simp only [decodeInstruction, index_toNat_new hpre, getElem?_stream, hop, hfm, hreserved]
  rw [if_neg (by decide), if_neg (by simp), if_neg (by decide), if_neg (by decide), if_pos trivial]
  exact decodeEscape_stream op ops hcount pre suf hpre _

theorem decode_normal (hfits : OperandWidth.normal.Holds ops) : decodeInstruction
        (pre ++ ((UInt8.ofNat op.discriminant ||| normalFormat).toUInt32 ::
          packPairs ops) ++ suf) (WordOffset.new pre.length) =
      .ok (decodedAs op .normal ops ((packPairs ops).length + 1)) := by
  obtain ⟨hfm, hreserved, hop⟩ := formattedHeader_facts op hbase normalFormat (.inl rfl)
  obtain ⟨hlen, hread, hodd⟩ := packPairs_facts ops hfits
  generalize (UInt8.ofNat op.discriminant ||| normalFormat).toUInt32 = header at *
  have hword : ∀ k < (ops.length + 1) / 2,
      (pre ++ (header :: packPairs ops) ++ suf).getD (pre.length + 1 + k) 0 =
        (packPairs ops).getD k 0 := by
    intro k hk
    rw [add_assoc, getD_stream pre (header :: packPairs ops) suf (by simp; omega),
      add_comm 1 k, List.getD_cons_succ]
  have hfill : ∀ idx < ops.length,
      (pre ++ (header :: packPairs ops) ++ suf).getD (pre.length + 1 + idx / 2) 0
        >>> UInt32.ofNat (16 * (idx % 2)) &&& UInt32.ofNat (2 ^ 16 - 1) =
        ops.getD idx 0 := by
    intro idx hi
    rw [hword (idx / 2) (by omega), hread idx hi]
  have hclear : ¬ (ops.length % 2 = 1 ∧ (pre ++ (header :: packPairs ops) ++ suf).getD
        (pre.length + (ops.length + 1) / 2) 0 >>> UInt32.ofNat 16 ≠ 0) := by
    rintro ⟨hone, hne⟩
    have e : pre.length + (ops.length + 1) / 2 =
        pre.length + 1 + ((ops.length + 1) / 2 - 1) := by omega
    rw [e, hword _ (by omega)] at hne
    exact hne (hodd hone)
  have hbound : 1 + (ops.length + 1) / 2 ≤ (header :: packPairs ops).length := by
    simp only [List.length_cons]
    omega
  simp only [decodeInstruction, index_toNat_new hpre, getElem?_stream, hop, hfm, hreserved]
  rw [if_neg (by decide), if_neg (by simp), if_neg (by decide)]
  simp only [decodeNormal, index_toNat_new hpre, ← hcount]
  rw [if_neg (stream_not_truncated pre _ suf hbound), if_neg hclear, fillOperands_eq_padded hfill]
  simp [decodedAs, hlen, add_comm]

theorem decode_compact (hfits : OperandWidth.compact.Holds ops) : decodeInstruction
        (pre ++ [packCompact (UInt8.ofNat op.discriminant).toUInt32 ops] ++ suf)
        (WordOffset.new pre.length) = .ok (decodedAs op .compact ops 1) := by
  have hthree : ops.length ≤ 3 := hcount ▸ op.operandCount_le_three
  have hsm : (UInt8.ofNat op.discriminant).toUInt32.toNat < 2 ^ 8 := by
    exact UInt8.toNat_lt _
  obtain ⟨-, hlow, hbyte⟩ := packCompact_toNat ops hthree hsm hfits
  have hread : ∀ idx < ops.length, packCompact (UInt8.ofNat op.discriminant).toUInt32 ops
        >>> UInt32.ofNat (8 * (idx + 1)) &&& UInt32.ofNat (2 ^ 8 - 1) =
        ops.getD idx 0 := by
    intro idx hi
    apply UInt32.toNat_inj.mp
    rw [toNat_shiftRight_and (by omega) (by decide), hbyte idx hi]
  have hraw : (packCompact (UInt8.ofNat op.discriminant).toUInt32 ops).toUInt8 =
      UInt8.ofNat op.discriminant := by
    apply UInt8.toNat_inj.mp
    rw [UInt32.toNat_toUInt8, hlow, UInt8.toNat_toUInt32]
  obtain ⟨hfm, hop⟩ := compactHeader_facts op hbase hraw
  simp only [decodeInstruction, index_toNat_new hpre, getElem?_stream, hop, hfm]
  simp only [decodeCompact, ← hcount]
  rw [fillOperands_eq_padded hread]
  rfl

end

end Forms

/-! ## Round trip -/

/-- The form in which an instruction is encoded. -/
def encodedWidth (op : Opcode) (ops : List UInt32) : OperandWidth :=
  if Opcode.baseOpcodeCount ≤ op.discriminant then .wide else narrowestWidth ops

/-- An instruction with the right number of operands encodes, and its code
decodes to it in every stream. -/
theorem decode_encoded (op : Opcode) (ops : List UInt32)
    (hcount : ops.length = op.operandCount) (pre suf : List UInt32)
    (hpre : pre.length < 2 ^ 32) : ∃ code, encodeInstruction op ops = .ok code ∧
      decodeInstruction (pre ++ code ++ suf) (WordOffset.new pre.length) =
        .ok (decodedAs op (encodedWidth op ops) ops code.length) := by
  simp only [encodeInstruction, encodedWidth]
  rw [if_neg (not_not.mpr hcount)]
  by_cases hext : Opcode.baseOpcodeCount ≤ op.discriminant
  · rw [if_pos hext, if_pos hext]
    exact ⟨_, rfl, decode_escaped op ops hcount pre suf hpre hext⟩
  · rw [if_neg hext, if_neg hext]
    have hbase : op.discriminant < Opcode.baseOpcodeCount := Nat.lt_of_not_le hext
    have hfits := narrowestWidth_holds ops
    cases hwidth : narrowestWidth ops with
    | compact =>
      rw [hwidth] at hfits
      exact ⟨_, rfl, decode_compact op ops hcount pre suf hpre hbase hfits⟩
    | normal =>
      rw [hwidth] at hfits
      exact ⟨_, rfl, decode_normal op ops hcount pre suf hpre hbase hfits⟩
    | wide => exact ⟨_, rfl, decode_wide op ops hcount pre suf hpre hbase⟩

/-- An encoding is a header and at most three operand words. -/
theorem encodeInstruction_length_le {op : Opcode} {ops code : List UInt32}
    (h : encodeInstruction op ops = .ok code) : code.length ≤ 4 := by
  have hthree := op.operandCount_le_three
  simp only [encodeInstruction] at h
  split at h
  · cases h
  · split at h
    · cases h
      simp only [List.length_cons]
      omega
    · have hfits := narrowestWidth_holds ops
      cases hwidth : narrowestWidth ops with
      | compact =>
        rw [hwidth] at h
        cases h
        simp only [List.length_singleton]
        omega
      | normal =>
        rw [hwidth] at h hfits
        cases h
        have hlen := (packPairs_facts ops hfits).1
        simp only [List.length_cons]
        omega
      | wide =>
        rw [hwidth] at h
        cases h
        simp only [List.length_cons]
        omega

/-- Decoding undoes encoding anywhere in a stream: opcode, zero-padded operands,
operand count and word length come back, and a base opcode uses the narrowest
form that holds every operand. -/
theorem decodeInstruction_encodeInstruction (op : Opcode) (ops : List UInt32)
    (hcount : ops.length = op.operandCount) (pre suf : List UInt32) (hpre : pre.length < 2 ^ 32) :
    ∃ code decoded, encodeInstruction op ops = .ok code ∧
      decodeInstruction (pre ++ code ++ suf) (WordOffset.new pre.length) = .ok decoded ∧
      decoded.opcode = op ∧
      (∀ idx (h : idx < 3), decoded.operands[idx] = ops.getD idx 0) ∧
      decoded.operandCount.toNat = ops.length ∧
      decoded.wordLen.toNat = code.length ∧
      (op.discriminant < Opcode.baseOpcodeCount → decoded.width.Holds ops ∧
          ∀ width : OperandWidth, width.Holds ops → decoded.width.bits ≤ width.bits) := by
  obtain ⟨code, hcode, hdec⟩ := decode_encoded op ops hcount pre suf hpre
  have hthree : ops.length ≤ 3 := hcount ▸ op.operandCount_le_three
  have hlen : code.length ≤ 4 := encodeInstruction_length_le hcode
  refine ⟨code, _, hcode, hdec, rfl, ?_, ?_, ?_, ?_⟩
  · simp [decodedAs, paddedOperands]
  · show (UInt8.ofNat ops.length).toNat = ops.length
    rw [UInt8.toNat_ofNat']
    omega
  · show (UInt8.ofNat code.length).toNat = code.length
    rw [UInt8.toNat_ofNat']
    omega
  · intro hbase
    have e : encodedWidth op ops = narrowestWidth ops := if_neg (Nat.not_le_of_lt hbase)
    show (encodedWidth op ops).Holds ops ∧ _
    rw [e]
    exact ⟨narrowestWidth_holds ops, narrowestWidth_minimal ops⟩

/-- A three-operand addition between two other words: the middle operand needs
16 bits, so the normal form is chosen. -/
theorem decodeInstruction_encodeInstruction_add :
    ∃ code decoded, encodeInstruction .add [1, 700, 3] = .ok code ∧
      decodeInstruction ([5] ++ code ++ [9]) (WordOffset.new [(5 : UInt32)].length) = .ok decoded ∧
      decoded.opcode = .add ∧ decoded.operandCount.toNat = 3 ∧ decoded.wordLen.toNat = 3 := by
  obtain ⟨code, decoded, hcode, hdec, hop, -, hops, hwords, -⟩ :=
    decodeInstruction_encodeInstruction .add [1, 700, 3] (by decide) [5] [9] (by decide)
  have hlen : code.length = 3 := by
    have e : encodeInstruction .add [1, 700, 3] = .ok [68, 45875201, 3] := by decide
    rw [e] at hcode
    cases hcode
    rfl
  exact ⟨code, decoded, hcode, hdec, hop, hops, hwords.trans hlen⟩

end TachyonEngine.Bytecode
