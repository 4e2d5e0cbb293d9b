import TachyonEngine.Bytecode.EnvironmentDepth
import TachyonEngine.Vm.Finalizers

/-!
# What validation says of a handler table

The entries that `validateHandlers` and `validateFinallyInstructions` accept, in terms of the ranges
and bodies of handlers: their ends are instruction boundaries, a body ends behind a
`resumeCompletion`, and an `enterFinally` stands in the range of a finalizer.
-/

namespace TachyonEngine.Vm

open Bytecode Lib Lib.CodeStream

/-- The checked table of a function and the instructions that refer to it. -/
structure TableChecked (fn : CompiledFunction) (trace : List (Nat × DecodedInstruction)) :
    Prop where
  valid : HandlersValid fn.metadata.handlers
  starts : ∀ entry ∈ fn.metadata.handlers, fn.StartsAt entry.handler.index.toNat
  range : ∀ entry ∈ fn.metadata.handlers, ∀ pc instruction, (pc, instruction) ∈ trace →
    pc < entry.range.hi → pc + instruction.length ≤ entry.range.hi
  body : ∀ entry ∈ fn.metadata.handlers, entry.kind.isFinalizer = true →
    ∀ pc instruction, (pc, instruction) ∈ trace →
      pc < entry.body.hi → pc + instruction.length ≤ entry.body.hi
  enters : ∀ pc instruction, (pc, instruction) ∈ trace → instruction.opcode = .enterFinally →
    ∃ entry ∈ fn.metadata.handlers, entry.kind.isFinalizer = true ∧ entry.range.Contains pc
  resumes : ∀ pc instruction, (pc, instruction) ∈ trace → instruction.opcode = .resumeCompletion →
    ∃ entry ∈ fn.metadata.handlers, entry.kind.isFinalizer = true ∧
      entry.body.Contains pc ∧ entry.body.hi = pc + instruction.length

section Function

variable {fn : CompiledFunction} {trace : List (Nat × DecodedInstruction)}

/-- A boundary of the code is not inside an instruction. -/
theorem instruction_le_boundary (hst : VerifiedStream fn.bytecode trace) {boundary pc : Nat}
    {instr : DecodedInstruction} (hboundary : boundary = fn.words.length ∨ fn.StartsAt boundary)
    (hm : (pc, instr) ∈ trace) (hlt : pc < boundary) : pc + instr.length ≤ boundary := by
  rcases hboundary with rfl | hstart
  · obtain ⟨hin, hdec⟩ := hst.decode_start hm
    have hsm := hst.small
    exact (decodeAt_extent (Nat.lt_trans hin hsm) hdec).2.2
  · obtain ⟨other, ho⟩ := (startsAt_iff_mem hst).mp hstart
    exact hst.trace_zero.disjoint hm ho hlt

/-- What `validateHandler` checks of one entry. -/
theorem validateHandler_ok {id : FunctionId} {handler : HandlerEntry}
    (h : validateHandler id fn.bytecode handler = .ok ()) :
    (handler.protectedEnd.index = UInt32.ofNat fn.words.length ∨
        fn.bytecode.isInstructionStart handler.protectedEnd = true) ∧
      handlerKindIsValid fn.bytecode handler = true ∧
      handler.protectedStart.index < handler.protectedEnd.index ∧
      ¬(handler.protectedStart.index ≤ handler.handler.index ∧
        handler.handler.index < handler.protectedEnd.index) := by
  simp only [validateHandler] at h
  split at h
  · cases h
  next hval =>
    split_ifs at h with hout
    · cases h
    · simp only [Bool.or_eq_true, Bool.not_eq_true', decide_eq_true_eq, not_or,
        Bool.not_eq_false, UInt32.not_le] at hval
      obtain ⟨⟨⟨⟨⟨-, hend⟩, -⟩, -⟩, hk⟩, hrange⟩ := hval
      exact ⟨hend, hk, hrange, hout⟩

theorem tableChecked (hfn : CheckedFunction fn)
    (hst : VerifiedStream fn.bytecode trace) : TableChecked fn trace := by
  obtain ⟨depth, hhandlers⟩ := hfn.handlers
  have hes : ∀ ent ∈ fn.metadata.handlers, validateHandler fn.id fn.bytecode ent = .ok () := by
    obtain ⟨_, hall, -⟩ := bind_ok hhandlers
    exact forAll_ok hall
  have hfinally : ∀ pc instr, (pc, instr) ∈ trace → ∃ environmentDepth,
      finallyInstructionIsValid fn.metadata.handlers environmentDepth pc instr =
        true := by
    intro pc instr hm
    obtain ⟨_, hscan, -⟩ := bind_ok hfn.finallyInstructions
    obtain ⟨environmentDepth, _, hchecks⟩ := foldBody_mem (scanInstructions_fold hst hscan) hm
    refine ⟨environmentDepth, ?_⟩
    split_ifs at hchecks with hval
    · cases hchecks
    · simpa only [Bool.not_eq_true', Bool.not_eq_false] using hval
  have hsm : fn.words.length < 2 ^ 32 := hst.small
  have hends : ∀ ent ∈ fn.metadata.handlers, ent.kind.isFinalizer = true →
      ent.handler.index < ent.handlerEnd.index ∧ fn.StartsAt ent.handlerEnd.index.toNat := by
    intro ent he hfin
    obtain ⟨-, hkd, -⟩ := validateHandler_ok (hes ent he)
    refine ⟨?_, startsAt_finalizerEnd hst ((validateHandlers_entry hhandlers he).2 hfin)⟩
    cases hk : ent.kind with
    | catch_ =>
      rw [hk] at hfin
      cases hfin
    | finally_ | iteratorClose =>
      simp only [handlerKindIsValid, hk, Bool.and_eq_true, decide_eq_true_eq] at hkd
      exact hkd.1
  constructor
  case valid =>
    constructor
    case range =>
      intro ent he
      exact UInt32.lt_iff_toNat_lt.mp (validateHandler_ok (hes ent he)).2.2.1
    case outside =>
      intro ent he hcon
      obtain ⟨-, -, -, hout⟩ := validateHandler_ok (hes ent he)
      exact hout ⟨UInt32.le_iff_toNat_le.mpr hcon.1, UInt32.lt_iff_toNat_lt.mpr hcon.2⟩
    case body =>
      intro ent he hfin
      exact UInt32.lt_iff_toNat_lt.mp (hends ent he hfin).1
  case starts =>
    intro ent he
    exact startsAt_of_isInstructionStart hst (validateHandlers_entry hhandlers he).1
  case range =>
    intro ent he pc instr hm hlt
    refine instruction_le_boundary hst ?_ hm hlt
    rcases (validateHandler_ok (hes ent he)).1 with hlen | hstart
    · left
      have hi := congrArg UInt32.toNat hlen
      rw [UInt32.toNat_ofNat_of_lt' hsm] at hi
      exact hi
    · exact .inr (startsAt_of_isInstructionStart hst hstart)
  case body =>
    intro ent he hfin pc instr hm hlt
    exact instruction_le_boundary hst (.inr (hends ent he hfin).2) hm hlt
  case enters =>
    intro pc instr hm hop
    obtain ⟨environmentDepth, hval⟩ := hfinally pc instr hm
    simp only [finallyInstructionIsValid, hop, List.any_eq_true, Bool.and_eq_true,
      decide_eq_true_eq] at hval
    obtain ⟨ent, he, ⟨hfin, hlo⟩, hhi⟩ := hval
    exact ⟨ent, he, hfin, hlo, hhi⟩
  case resumes =>
    intro pc instr hm hop
    obtain ⟨environmentDepth, hval⟩ := hfinally pc instr hm
    simp only [finallyInstructionIsValid, hop, List.any_eq_true, Bool.and_eq_true,
      decide_eq_true_eq] at hval
    obtain ⟨ent, he, ⟨hfin, hlo⟩, hhi⟩ := hval
    have hpos := hst.trace_zero.width_pos hm
    refine ⟨ent, he, hfin, ⟨hlo, ?_⟩, hhi⟩
    simp only [HandlerEntry.body]
    omega

end Function

end TachyonEngine.Vm
