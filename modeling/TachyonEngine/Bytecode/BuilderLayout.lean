import TachyonEngine.Bytecode.BuilderSteps
import Mathlib.Data.List.Forall2

/-!
# Label patching keeps the program

The words of a builder are the codes of the emitted instructions one after another (`Laid`), and
every waiting operand is a whole word of its instruction. So writing the offsets of the labels turns
each instruction into one of the same length with another operand (`patchWords_code`), and the
stream decodes to these instructions if they are aligned (`exists_trace`), which an abrupt jump with
another opcode need not be (`exists_not_isProgram_add`).
-/

namespace TachyonEngine.Bytecode

open Lib Lib.CodeStream EmittedInstruction List

/-- Two lists related entry by entry, with the membership of the second entry. -/
theorem forall₂_with_mem {α β : Type} {R : α → β → Prop} {first : List α} {second : List β}
    (h : List.Forall₂ R first second) : List.Forall₂ (fun a b => b ∈ second ∧ R a b) first second :=
  List.Forall₂.flip ((forall₂_and_left _ _).mpr ⟨fun _ hm => hm, List.Forall₂.flip h⟩)

/-! ## Decoding one emitted instruction -/

/-- A decoded instruction has the opcode and the operands of an emitted one. -/
structure Decodes (decoded : DecodedInstruction) (instr : EmittedInstruction) : Prop where
  opcode : decoded.opcode = instr.opcode
  count : decoded.operandCount.toNat = instr.operands.length
  operands : ∀ index (h : index < 3), decoded.operands[index] = instr.operands.getD index 0

/-- The wide header of an opcode below 128 is that of a base opcode, or the escape header. -/
theorem wideHeader_cases {op : Opcode} (h : op.discriminant < 128) :
    op.discriminant < Opcode.baseOpcodeCount ∨ Opcode.baseOpcodeCount ≤ op.discriminant ∧
        BytecodeBuilder.wideHeader op = escapeHeader op := by
  have hpage : ∀ number < 128, 64 ≤ number → (UInt8.ofNat number ||| wideFormat).toUInt32 =
      (escapeFormat ||| UInt8.ofNat ((number - 64) % 64)).toUInt32 |||
        UInt32.ofNat ((number - 64) / 64) <<< UInt32.ofNat 8 := by decide +kernel
  rcases lt_or_ge op.discriminant Opcode.baseOpcodeCount with hbase | hext
  · exact .inl hbase
  · exact .inr ⟨hext, hpage _ h hext⟩

variable {instr : EmittedInstruction}

theorem EmittedInstruction.WellFormed.decode (h : instr.WellFormed) (haligned : instr.Aligned) (pre
    rest : List UInt32) (hb : pre.length < 2 ^ 32) :
    ∃ decoded, decodeInstruction (pre ++ instr.words ++ rest) (.new pre.length) = .ok decoded ∧
      decoded.length = instr.words.length ∧ Decodes decoded instr := by
  have hc := h.length_eq haligned
  obtain ⟨off, op, ops, label, span⟩ := instr
  replace hc : ops.length = op.operandCount := hc
  cases label with
  | none =>
    obtain ⟨code, decoded, hcode, hdec, hop, hops, hlen, hwords, -⟩ :=
      decodeInstruction_encodeInstruction op ops hc pre rest hb
    simp only [EmittedInstruction.words, hcode]
    exact ⟨decoded, hdec, hwords, hop, hlen, hops⟩
  | some waiting =>
    simp only [EmittedInstruction.words]
    have hthree : ops.length ≤ 3 := hc ▸ op.operandCount_le_three
    refine ⟨decodedAs op .wide ops (ops.length + 1), ?_, ?_, rfl, ?_, ?_⟩
    · rcases wideHeader_cases (haligned waiting rfl).2 with hbase | ⟨hext, hheader⟩
      · exact decode_wide op ops hc pre rest hb hbase
      · rw [hheader]
        exact decode_escaped op ops hc pre rest hb hext
    · show (UInt8.ofNat (ops.length + 1)).toNat = ops.length + 1
      rw [UInt8.toNat_ofNat']
      omega
    · show (UInt8.ofNat ops.length).toNat = ops.length
      rw [UInt8.toNat_ofNat']
      omega
    · simp [decodedAs, paddedOperands]

/-! ## Instructions one after another -/

/-- The codes of instructions. -/
def codeOf (instructions : List EmittedInstruction) : List UInt32 :=
  instructions.flatMap EmittedInstruction.words

/-- Well formed instructions, each at the offset behind the one before. -/
def LaidFrom : Nat → List EmittedInstruction → Prop
  | _, [] => True
  | start, instr :: rest =>
    instr.offset = .new start ∧ instr.WellFormed ∧ LaidFrom (start + instr.words.length) rest

variable {start : Nat} {instructions : List EmittedInstruction}

theorem LaidFrom.append (h : LaidFrom start instructions) (hoff : instr.offset = .new (start +
    (codeOf instructions).length)) (hformed : instr.WellFormed) :
    LaidFrom start (instructions ++ [instr]) := by
  induction instructions generalizing start with
  | nil => exact ⟨hoff, hformed, trivial⟩
  | cons first rest ih =>
    obtain ⟨hfirst, hformedFirst, hrest⟩ := h
    refine ⟨hfirst, hformedFirst, ih hrest ?_⟩
    rw [hoff, codeOf, flatMap_cons, length_append, ← add_assoc]
    rfl

theorem LaidFrom.formed (h : LaidFrom start instructions) :
    ∀ instr ∈ instructions, instr.WellFormed := by
  induction instructions generalizing start with
  | nil => exact fun _ hm => absurd hm not_mem_nil
  | cons first rest ih => exact forall_mem_cons.mpr ⟨h.2.1, ih h.2.2⟩

/-- The stream of well formed instructions decodes to them. -/
theorem exists_trace (instructions : List EmittedInstruction) (pre : List UInt32)
    (hlaid : LaidFrom pre.length instructions) (haligned : ∀ instr ∈ instructions, instr.Aligned)
    (hroom : (pre ++ codeOf instructions).length < 2 ^ 32) :
    ∃ trace, InstructionTrace (pre ++ codeOf instructions) pre.length trace ∧
      List.Forall₂ (fun visited instr =>
        visited.1 = instr.offset.index.toNat ∧ Decodes visited.2 instr) trace instructions := by
  induction instructions generalizing pre with
  | nil =>
    refine ⟨[], .done ?_, .nil⟩
    simp [codeOf]
  | cons instr rest ih =>
    obtain ⟨hoff, hformed, hrest⟩ := hlaid
    have hcode : pre ++ codeOf (instr :: rest) = pre ++ instr.words ++ codeOf rest := by
      rw [codeOf, append_assoc]
      rfl
    rw [hcode] at hroom ⊢
    have hb : pre.length < 2 ^ 32 := by
      simp only [length_append] at hroom
      omega
    rw [← length_append] at hrest
    obtain ⟨hfirst, haligned⟩ := forall_mem_cons.mp haligned
    obtain ⟨trace, htr, hdecodes⟩ := ih (pre ++ instr.words) hrest haligned hroom
    obtain ⟨decoded, hdec, hlen, hdecoded⟩ := hformed.decode hfirst pre (codeOf rest) hb
    obtain ⟨hpos, -, hwi⟩ := decodeAt_extent hb hdec
    refine ⟨(pre.length, decoded) :: trace, .step (by omega) (decodeOption_eq_some.mpr hdec) ?_,
      .cons ⟨?_, hdecoded⟩ hdecodes⟩
    · rwa [hlen, ← length_append]
    · rw [hoff, index_toNat_new hb]

/-! ## Patching -/

/-- The offset that was recorded for a label. -/
def targetOf (labels : List (Option WordOffset)) (label : Label) : Option WordOffset :=
  labels[label.index.toNat]?.join

namespace EmittedInstruction

/-- The instruction with the offset of its label. -/
def resolve (labels : List (Option WordOffset)) (instr : EmittedInstruction) : EmittedInstruction :=
  match instr.label with
  | none => instr
  | some (label, index) =>
    { instr with operands := instr.operands.set index ((targetOf labels label).elim 0 (·.index)) }

variable {labels : List (Option WordOffset)} {instr : EmittedInstruction}

@[simp]
theorem resolve_offset : (instr.resolve labels).offset = instr.offset := by
  simp only [resolve]
  split
  · rfl
  · rfl

@[simp]
theorem resolve_opcode : (instr.resolve labels).opcode = instr.opcode := by
  simp only [resolve]
  split
  · rfl
  · rfl

theorem resolve_words_length : (instr.resolve labels).words.length = instr.words.length := by
  obtain ⟨off, op, ops, label | ⟨label, idx⟩, span⟩ := instr
  · rfl
  · simp [resolve, words]

theorem WellFormed.resolve (h : instr.WellFormed) : (instr.resolve labels).WellFormed := by
  obtain ⟨off, op, ops, label | ⟨label, idx⟩, span⟩ := instr
  · exact h
  · have hlen : ((resolve labels ⟨off, op, ops, some (label, idx), span⟩).operands).length =
        ops.length := length_set ..
    exact .of_label rfl (hlen ▸ h.waiting _ rfl) fun hn => hlen.trans (h.abrupt hn)

theorem Aligned.resolve (h : instr.Aligned) : (instr.resolve labels).Aligned := by
  obtain ⟨off, op, ops, label | ⟨label, idx⟩, span⟩ := instr
  · exact h
  · exact fun _ hsome => ⟨(length_set ..).trans (h _ hsome).1, (h _ hsome).2⟩

end EmittedInstruction

theorem LaidFrom.resolve (h : LaidFrom start instructions) (labels : List (Option WordOffset)) :
    LaidFrom start (instructions.map (·.resolve labels)) := by
  induction instructions generalizing start with
  | nil => trivial
  | cons instr rest ih =>
    obtain ⟨hoff, hformed, hrest⟩ := h
    refine ⟨by rw [resolve_offset, hoff], hformed.resolve, ?_⟩
    rw [resolve_words_length]
    exact ih hrest

/-- Patching succeeds only when every label is bound, and puts its offset into each instruction. -/
theorem patchWords_code (labels : List (Option WordOffset)) (instructions : List EmittedInstruction)
    (pre words : List UInt32) (hlaid : LaidFrom pre.length instructions)
    (hroom : (pre ++ codeOf instructions).length < 2 ^ 32)
    (hpatch : BytecodeBuilder.patchWords labels (instructions.filterMap patch)
      (pre ++ codeOf instructions) = .ok words) :
    words = pre ++ codeOf (instructions.map (·.resolve labels)) ∧
      ∀ instr ∈ instructions, ∀ waiting, instr.label = some waiting →
        ∃ tgt, targetOf labels waiting.1 = some tgt := by
  induction instructions generalizing pre with
  | nil =>
    cases hpatch
    exact ⟨rfl, fun _ hm => absurd hm not_mem_nil⟩
  | cons instr rest ih =>
    obtain ⟨hoff, hformed, hrest⟩ := hlaid
    have hcode : pre ++ codeOf (instr :: rest) = pre ++ instr.words ++ codeOf rest := by
      rw [codeOf, append_assoc]
      rfl
    have hres : ∀ code : List UInt32, code.length = instr.words.length →
        LaidFrom (pre ++ code).length rest ∧ (pre ++ code ++ codeOf rest).length < 2 ^ 32 := by
      intro code hlen
      rw [hcode] at hroom
      simp only [length_append, hlen] at hroom ⊢
      exact ⟨hrest, hroom⟩
    rw [hcode] at hpatch
    cases hlabel : instr.label with
    | none =>
      have hpatchless : instr.patch = none := by rw [patch, hlabel]; rfl
      have hs : instr.resolve labels = instr := by
        simp only [EmittedInstruction.resolve, hlabel]
      rw [filterMap_cons_none hpatchless] at hpatch
      obtain ⟨hlaid, hroom⟩ := hres instr.words rfl
      obtain ⟨rfl, hbound⟩ := ih _ hlaid hroom hpatch
      refine ⟨?_, ?_⟩
      · rw [map_cons, hs, codeOf, codeOf, flatMap_cons, append_assoc]
      · intro other hm waiting hwait
        rcases mem_cons.mp hm with rfl | hm
        · rw [hlabel] at hwait
          cases hwait
        · exact hbound other hm waiting hwait
    | some waiting =>
      have hi := hformed.waiting waiting hlabel
      have hpatched : instr.patch =
          some ⟨waiting.1, ⟨instr.offset.index + UInt32.ofNat (waiting.2 + 1)⟩⟩ := by
        rw [patch, hlabel]
        rfl
      rw [filterMap_cons_some hpatched, BytecodeBuilder.patchWords] at hpatch
      split at hpatch
      · cases hpatch
      · cases hpatch
      next tgt ht =>
        have hjoin : targetOf labels waiting.1 = some tgt := by rw [targetOf, ht]; rfl
        -- The patched word is an operand of this instruction.
        have hwords : instr.words = BytecodeBuilder.wideHeader instr.opcode :: instr.operands := by
          simp only [EmittedInstruction.words, hlabel]
        have hplace : (instr.offset.index + UInt32.ofNat (waiting.2 + 1)).toNat =
            pre.length + (waiting.2 + 1) := by
          have hwi : pre.length + (1 + instr.operands.length) < 2 ^ 32 := by
            rw [hcode, hwords] at hroom
            simp only [length_append, length_cons] at hroom
            omega
          rw [UInt32.toNat_add, hoff, index_toNat_new (by omega), UInt32.toNat_ofNat']
          omega
        have hset : (pre ++ instr.words ++ codeOf rest).set (pre.length + (waiting.2 + 1))
            tgt.index = pre ++ (instr.resolve labels).words ++ codeOf rest := by
          rw [append_assoc, set_append_right _ _ (Nat.le_add_right _ _),
            Nat.add_sub_cancel_left]
          simp only [EmittedInstruction.resolve, EmittedInstruction.words, hlabel, hjoin,
            cons_append, set_cons_succ, set_append_left _ _ hi, Option.elim_some,
            append_assoc]
        rw [hplace, hset] at hpatch
        obtain ⟨hlaid, hroom⟩ := hres _ resolve_words_length
        obtain ⟨rfl, hbound⟩ := ih _ hlaid hroom hpatch
        refine ⟨?_, ?_⟩
        · rw [map_cons, codeOf, codeOf, flatMap_cons, append_assoc]
        · intro other hm waiting' hwait
          rcases mem_cons.mp hm with rfl | hm
          · rw [hlabel] at hwait
            cases hwait
            exact ⟨tgt, hjoin⟩
          · exact hbound other hm waiting' hwait

/-! ## Builders -/

/-- What a builder keeps of the calls that led to it. -/
structure Laid (builder : BytecodeBuilder) (log : BuilderLog) : Prop where
  words : builder.words = codeOf log.emitted
  room : builder.words.length < 2 ^ 32
  laid : LaidFrom 0 log.emitted
  patches : builder.patches = log.emitted.filterMap EmittedInstruction.patch
  sourceMap : builder.sourceMap = log.emitted.map fun instr => ⟨instr.offset, instr.span⟩
  labels : ∀ label, log.bound.filter (fun bound => bound.1 = label) =
    (targetOf builder.labels label).toList.map fun target => (label, target)

variable {builder : BytecodeBuilder} {log : BuilderLog}

theorem Laid.step {post : BytecodeBuilder} {event : BuilderEvent} (h : Laid builder log)
    (heffect : BuilderEffect builder event post) : Laid post (log ++ [event]) := by
  have hmore : (log ++ [event]).emitted = log.emitted ++ BuilderLog.emitted [event] :=
    filterMap_append
  have hbound : (log ++ [event]).bound = log.bound ++ BuilderLog.bound [event] := filterMap_append
  have hs : BuilderLog.emitted [event] = [] → (log ++ [event]).emitted = log.emitted := by
    intro hn
    rw [hmore, hn, append_nil]
  cases heffect with
  | created hroom =>
    replace hs := hs rfl
    refine ⟨hs ▸ h.words, h.room, hs ▸ h.laid, hs ▸ h.patches, hs ▸ h.sourceMap, ?_⟩
    intro label
    have ht : targetOf (builder.labels ++ [none]) label = targetOf builder.labels label := by
      rw [targetOf, targetOf, getElem?_append]
      split_ifs with hout
      · rfl
      · rw [getElem?_eq_none (Nat.le_of_not_lt hout)]
        cases label.index.toNat - builder.labels.length with
        | zero | succ n => rfl
    rw [hbound, filter_append, h.labels]
    exact (append_nil _).trans (by rw [ht])
  | bound label hfree =>
    replace hs := hs rfl
    refine ⟨hs ▸ h.words, h.room, hs ▸ h.laid, hs ▸ h.patches, hs ▸ h.sourceMap, ?_⟩
    intro other
    have hin : label.index.toNat < builder.labels.length := (List.getElem?_eq_some_iff.mp hfree).1
    rw [hbound, filter_append, h.labels]
    simp only [BuilderLog.bound, filterMap_cons, filterMap_nil, targetOf]
    by_cases ho : label = other
    · subst ho
      simp [hfree, getElem?_set_self hin]
    · have hi : label.index.toNat ≠ other.index.toNat := by
        intro heq
        apply ho
        exact congrArg Label.mk (UInt32.toNat_inj.mp heq)
      simp [ho, getElem?_set_ne hi]
  | emitted instr cnt hformed hoff hroom hc hnoted =>
    replace hmore : (log ++ [BuilderEvent.emitted instr]).emitted = log.emitted ++ [instr] := hmore
    refine ⟨?_, ?_, ?_, ?_, ?_, ?_⟩
    · rw [hmore, codeOf, flatMap_append, append, h.words, codeOf, flatMap_singleton]
    · simpa [append] using hroom
    · rw [hmore]
      apply h.laid.append _ hformed
      rw [hoff, h.words, zero_add]
    · rw [hmore, append, h.patches]
      cases hpatch : instr.patch <;> simp [hpatch]
    · rw [hmore, map_append, append, h.sourceMap]
      rfl
    · intro label
      rw [hbound, filter_append, h.labels]
      exact append_nil _

theorem BuilderRun.laid (run : BuilderRun builder log) : Laid builder log := by
  induction run with
  | start => exact ⟨rfl, by decide, trivial, rfl, rfl, fun _ => rfl⟩
  | call _ step ih => exact ih.step (BuilderCall.run_effect step)

/-! ## The finished code -/

/-- A decoded instruction is the emitted one: at its offset, with the operands that were given, and
with the offset of the one binding of its label at the place that waited. -/
structure IsEmitted (log : BuilderLog) (visited : Nat × DecodedInstruction)
    (instr : EmittedInstruction) :
    Prop where
  offset : visited.1 = instr.offset.index.toNat
  opcode : visited.2.opcode = instr.opcode
  count : visited.2.operandCount.toNat = instr.operands.length
  given : ∀ index (h : index < 3), (∀ label, instr.label ≠ some (label, index)) →
    visited.2.operands[index] = instr.operands.getD index 0
  target : ∀ label index, instr.label = some (label, index) →
    ∃ (h : index < 3) (offset : WordOffset),
      log.bound.filter (fun bound => bound.1 = label) = [(label, offset)] ∧
        visited.2.operands[index] = offset.index

/-- The finished words are the emitted program, and the source map has one entry an instruction. -/
structure IsProgram (log : BuilderLog) (words : List UInt32) (sourceMap : List SourceMapEntry) :
    Prop where
  decodes : ∃ trace, InstructionTrace words 0 trace ∧ List.Forall₂ (IsEmitted log) trace log.emitted
  entries : sourceMap = log.emitted.map fun instr => ⟨instr.offset, instr.span⟩
  increasing : sourceMap.Pairwise fun earlier later => earlier.offset.index < later.offset.index

/-- Resolved instructions that decode are the emitted ones. -/
theorem isEmitted_of_resolve (h : Laid builder log) {visited : Nat × DecodedInstruction} (hformed :
    instr.WellFormed) (haligned : instr.Aligned) (hbound : ∀ waiting, instr.label = some waiting → ∃
    tgt, targetOf builder.labels waiting.1 = some tgt) (hoff : visited.1 = instr.offset.index.toNat)
    (hdecodes : Decodes visited.2 (instr.resolve builder.labels)) :
    IsEmitted log visited instr := by
  cases hlabel : instr.label with
  | none =>
    have hs : instr.resolve builder.labels = instr := by
      simp only [EmittedInstruction.resolve, hlabel]
    rw [hs] at hdecodes
    refine ⟨hoff, hdecodes.opcode, hdecodes.count, fun idx hin _ => hdecodes.operands idx hin, ?_⟩
    intro label idx hsome
    rw [hlabel] at hsome
    cases hsome
  | some waiting =>
    obtain ⟨tgt, ht⟩ := hbound waiting hlabel
    have hi := hformed.waiting waiting hlabel
    have hthree : instr.operands.length ≤ 3 :=
      hformed.length_eq haligned ▸ instr.opcode.operandCount_le_three
    have hres : instr.resolve builder.labels =
        { instr with operands := instr.operands.set waiting.2 tgt.index } := by
      simp only [EmittedInstruction.resolve, hlabel, ht, Option.elim_some]
    rw [hres] at hdecodes
    refine ⟨hoff, hdecodes.opcode, hdecodes.count.trans (length_set ..), ?_, ?_⟩
    · intro idx hin ho
      have hne : waiting.2 ≠ idx := fun heq => ho waiting.1 (hlabel.trans (by rw [← heq]))
      rw [hdecodes.operands idx hin]
      simp only [getD_eq_getElem?_getD, getElem?_set_ne hne]
    · intro label idx hsome
      obtain rfl := Option.some.inj (hlabel.symm.trans hsome)
      have hin : idx < 3 := lt_of_lt_of_le hi hthree
      refine ⟨hin, tgt, ?_, ?_⟩
      · rw [h.labels, ht]
        rfl
      · rw [hdecodes.operands idx hin]
        simp only [getD_eq_getElem?_getD, getElem?_set_self hi, Option.getD_some]

variable {words : List UInt32} {sourceMap : List SourceMapEntry} {registerCount : UInt32}

/-- The finished words decode to the resolved instructions, and every label of them is bound. -/
theorem Laid.decodes (h : Laid builder log) (haligned : ∀ instr ∈ log.emitted, instr.Aligned)
    (hfin : builder.finish = .ok (words, sourceMap, registerCount)) :
    ∃ trace, InstructionTrace words 0 trace ∧ List.Forall₂ (fun visited instr =>
        visited.1 = instr.offset.index.toNat ∧ Decodes visited.2 (instr.resolve builder.labels))
      trace log.emitted ∧ ∀ instr ∈ log.emitted, ∀ waiting, instr.label = some waiting →
        ∃ tgt, targetOf builder.labels waiting.1 = some tgt := by
  have hroom := h.room
  rw [h.words] at hroom
  cases hpatch : BytecodeBuilder.patchWords builder.labels builder.patches builder.words with
  | error err =>
    rw [BytecodeBuilder.finish, hpatch] at hfin
    cases hfin
  | ok patched =>
    rw [BytecodeBuilder.finish, hpatch] at hfin
    cases hfin
    rw [h.patches, h.words] at hpatch
    obtain ⟨rfl, hbound⟩ := patchWords_code builder.labels log.emitted [] words h.laid hroom hpatch
    have hlen : (codeOf (log.emitted.map (·.resolve builder.labels))).length =
        (codeOf log.emitted).length := by
      simp only [codeOf, length_flatMap, map_map, Function.comp_def,
        EmittedInstruction.resolve_words_length]
    obtain ⟨trace, htr, hdecodes⟩ := exists_trace _ [] (h.laid.resolve builder.labels)
      (forall_mem_map.mpr fun instr hm => (haligned instr hm).resolve) (hlen.trans_lt hroom)
    rw [forall₂_map_right_iff] at hdecodes
    refine ⟨trace, htr, hdecodes.imp fun visited instr hdecoded => ?_, hbound⟩
    rwa [resolve_offset] at hdecoded

/-- Where every label jump has a form that decodes to it, the finished code is the emitted
program. -/
theorem isProgram_of_finish {builder : BytecodeBuilder} {log : BuilderLog}
    (run : BuilderRun builder log) (haligned : ∀ instr ∈ log.emitted, instr.Aligned)
    {words : List UInt32} {sourceMap : List SourceMapEntry} {registerCount : UInt32}
    (hfin : builder.finish = .ok (words, sourceMap, registerCount)) :
    IsProgram log words sourceMap := by
  have hlaid := run.laid
  obtain ⟨trace, htr, hdecodes, hbound⟩ := hlaid.decodes haligned hfin
  have hemitted : List.Forall₂ (IsEmitted log) trace log.emitted := by
    refine (forall₂_with_mem hdecodes).imp ?_
    rintro visited instr ⟨hm, hoff, hdecoded⟩
    exact isEmitted_of_resolve hlaid (hlaid.laid.formed instr hm) (haligned instr hm)
      (hbound instr hm)
      hoff hdecoded
  have hmap : sourceMap = builder.sourceMap := by
    rw [BytecodeBuilder.finish] at hfin
    cases hpatch : BytecodeBuilder.patchWords builder.labels builder.patches builder.words with
    | error err =>
      rw [hpatch] at hfin
      cases hfin
    | ok patched =>
      rw [hpatch] at hfin
      cases hfin
      rfl
  subst hmap
  refine ⟨⟨trace, htr, hemitted⟩, hlaid.sourceMap, ?_⟩
  have hoffsets : trace.map (·.1) = log.emitted.map (·.offset.index.toNat) := by
    rw [← forall₂_eq_eq_eq, forall₂_map_left_iff, forall₂_map_right_iff]
    exact hemitted.imp fun _ _ h => h.offset
  have hincr := pairwise_map.mpr htr.increasing
  rw [hoffsets, pairwise_map] at hincr
  rw [hlaid.sourceMap, pairwise_map]
  exact hincr.imp fun h => UInt32.lt_iff_toNat_lt.mpr h

/-- A jump forward over an instruction, and a break to the same label behind both. -/
theorem isProgram_forwardJump :
    ∃ builder log words sourceMap registerCount, BuilderRun builder log ∧
      BytecodeBuilder.finish builder = .ok (words, sourceMap, registerCount) ∧
      words = [0x80 ||| 9, 6, 0, 0xc8, 6, 0, 46] ∧ IsProgram log words sourceMap := by
  have run := BuilderRun.start.perform (show performCalls
    [.newLabel, .emitJump ⟨0⟩ ⟨0, 5⟩, .emit .nop [] ⟨5, 6⟩,
      .emitAbruptJump .breakThroughFinally ⟨0⟩ 0 ⟨6, 7⟩, .bindLabel ⟨0⟩,
      .emit .returnUndefined [] ⟨7, 8⟩] (.empty, []) = some (_, _) from rfl)
  refine ⟨_, _, _, _, _, run, rfl, rfl, isProgram_of_finish run ?_ rfl⟩
  refine forall_mem_cons.mpr ⟨?_, forall_mem_cons.mpr ⟨?_, forall_mem_cons.mpr ⟨?_, ?_⟩⟩⟩
  · exact fun _ _ => ⟨rfl, by decide⟩
  · exact fun _ hsome => by cases hsome
  · exact fun _ _ => ⟨rfl, by decide⟩
  · exact forall_mem_singleton.mpr fun _ hsome => by cases hsome

/-- An abrupt jump with the opcode of a sum, which takes three operands: the instruction behind it
is read as the third one. -/
theorem exists_not_isProgram_add :
    ∃ builder log words sourceMap registerCount, BuilderRun builder log ∧
      BytecodeBuilder.finish builder = .ok (words, sourceMap, registerCount) ∧
      ¬ IsProgram log words sourceMap := by
  have run := BuilderRun.start.perform (show performCalls
    [.newLabel, .emitAbruptJump .add ⟨0⟩ 0 ⟨0, 5⟩, .emit .nop [] ⟨5, 6⟩, .bindLabel ⟨0⟩,
      .emit .returnUndefined [] ⟨6, 7⟩] (.empty, []) = some (_, _) from rfl)
  refine ⟨_, _, _, _, _, run, rfl, ?_⟩
  rintro ⟨⟨trace, htr, hemitted⟩, -, -⟩
  cases hemitted with
  | cons hfirst _ =>
    cases htr with
    | step _ hdec _ =>
      cases hdec
      cases hfirst.count

end TachyonEngine.Bytecode
