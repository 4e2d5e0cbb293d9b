import TachyonEngine.Bytecode.Module

/-!
# Control flow of verified code

`ControlEdge` lists every transfer of control the interpreter makes inside one
function: falling through, jumping, replaying a saved break or continue,
entering a handler, leaving a finalizer after `resumeCompletion`, and resuming
a suspended frame. `new_controlFlow` shows that in a module that `CompiledModule.new`
accepted, offset zero is an instruction start, every edge from a start leads to
a start strictly inside the words, and so every run decodes at starts only.
-/

namespace TachyonEngine.Bytecode

open Lib.CodeStream

/-- The words of a compiled function. -/
abbrev CompiledFunction.words (fn : CompiledFunction) : List UInt32 := fn.bytecode.bytecode.words

/-- An instruction of the function starts at the offset. -/
def CompiledFunction.StartsAt (fn : CompiledFunction) (off : Nat) : Prop :=
  off < fn.words.length ∧ fn.bytecode.isInstructionStart (WordOffset.new off) = true

/-- One transfer of control inside a function, from the offset of the executed
instruction to the next offset. Handlers and suspended frames may be entered
from anywhere. -/
inductive ControlEdge (fn : CompiledFunction) : Nat → Nat → Prop where
  | fallThrough {pc : Nat} {instr : DecodedInstruction} (hdec : decodeAt fn.words pc = .ok instr)
      (hop : instr.opcode.isTerminal = false) :
      ControlEdge fn pc (pc + instr.length)
  | jump {pc : Nat} {instr : DecodedInstruction} {target : UInt32}
      (hdec : decodeAt fn.words pc = .ok instr)
      (ht : jumpTarget instr.opcode instr.operands = some target) :
      ControlEdge fn pc target.toNat
  | replay {pc origin : Nat} {instr : DecodedInstruction} {target : UInt32}
      (horigin : fn.StartsAt origin)
      (hdec : decodeAt fn.words origin = .ok instr)
      (ht : jumpTarget instr.opcode instr.operands = some target) :
      ControlEdge fn pc target.toNat
  | handler {pc : Nat} {entry : HandlerEntry} (he : entry ∈ fn.metadata.handlers) :
      ControlEdge fn pc entry.handler.index.toNat
  | finalizerEnd {pc : Nat} {entry : HandlerEntry} {instr : DecodedInstruction}
      (hdec : decodeAt fn.words pc = .ok instr)
      (hop : instr.opcode = .resumeCompletion)
      (he : entry ∈ fn.metadata.handlers)
      (hfin : entry.kind.isFinalizer = true) :
      ControlEdge fn pc entry.handlerEnd.index.toNat
  | resume {pc : Nat} {point : SuspendPoint} (hpoint : point ∈ fn.metadata.suspendPoints) :
      ControlEdge fn pc point.resumeOffset.index.toNat

section Function

variable {fn : CompiledFunction} {trace : List (Nat × DecodedInstruction)}

variable {off : Nat}

theorem startsAt_iff_mem (hstream : VerifiedStream fn.bytecode trace) :
    fn.StartsAt off ↔ ∃ instr, (off, instr) ∈ trace := by
  have hsm : fn.words.length < 2 ^ 32 := hstream.small
  constructor
  · rintro ⟨hin, hst⟩
    rw [VerifiedBytecode.isInstructionStart, index_toNat_new (by omega)] at hst
    exact (hstream.starts_iff off).mp hst
  · rintro ⟨instr, hm⟩
    obtain ⟨hin, -⟩ := hstream.decode_start hm
    have hin' : off < fn.words.length := hin
    refine ⟨hin, ?_⟩
    rw [VerifiedBytecode.isInstructionStart, index_toNat_new (by omega)]
    exact (hstream.starts_iff off).mpr ⟨instr, hm⟩

/-- A start recorded for a word offset is a start of the trace. -/
theorem startsAt_of_isInstructionStart (hstream : VerifiedStream fn.bytecode trace)
    {off : WordOffset} (h : fn.bytecode.isInstructionStart off = true) :
    fn.StartsAt off.index.toNat :=
  (startsAt_iff_mem hstream).mpr ((hstream.starts_iff off.index.toNat).mp h)

variable {instr : DecodedInstruction}

section

variable (hstream : VerifiedStream fn.bytecode trace)

include hstream

/-- The instruction recorded at a start is the one that decodes there. -/
theorem mem_of_decodeAt (hst : fn.StartsAt off) (hdec : decodeAt fn.words off = .ok instr) :
    (off, instr) ∈ trace := by
  obtain ⟨found, hm⟩ := (startsAt_iff_mem hstream).mp hst
  obtain ⟨-, hf⟩ := hstream.decode_start hm
  rw [hdec] at hf
  cases hf
  exact hm

theorem startsAt_zero : fn.StartsAt 0 := by
  obtain ⟨off, instr, hl, -⟩ := hstream.terminal_last
  obtain ⟨hin, -⟩ := hstream.decode_start (List.mem_of_getLast? hl)
  exact (startsAt_iff_mem hstream).mpr (hstream.trace_zero.start_mem (by omega))

/-- A non-terminal instruction is never the last, so the next one exists. -/
theorem startsAt_fallThrough (hm : (off, instr) ∈ trace) (hop : instr.opcode.isTerminal = false) :
    fn.StartsAt (off + instr.length) := by
  rcases hstream.trace_zero.next_mem hm with hn | hl
  · exact (startsAt_iff_mem hstream).mpr hn
  · obtain ⟨last, lastInstruction, hl', hterminal⟩ := hstream.terminal_last
    rw [hl] at hl'
    cases hl'
    rw [hop] at hterminal
    cases hterminal

theorem startsAt_jump {tgt : UInt32} (hst : fn.StartsAt off)
    (hdec : decodeAt fn.words off = .ok instr)
    (ht : jumpTarget instr.opcode instr.operands = some tgt) : fn.StartsAt tgt.toNat := by
  have hm := mem_of_decodeAt hstream hst hdec
  have hjump := hstream.jump_start off instr tgt hm ht
  exact (startsAt_iff_mem hstream).mpr ((hstream.starts_iff tgt.toNat).mp hjump)

/-- The end of a finalizer follows a `resumeCompletion`, which is not terminal. -/
theorem startsAt_finalizerEnd {stop : WordOffset}
    (h : finalizerEndsWithResume fn.bytecode stop = true) : fn.StartsAt stop.index.toNat := by
  obtain ⟨resume, instr, hm, hop, hstop⟩ :=
    finalizerEndsWithResumeFrom_mem hstream.small (Nat.zero_le _) hstream.trace_zero h
  rw [← hstop]
  exact startsAt_fallThrough hstream hm (by rw [hop]; rfl)

end

/-- Every edge from a start leads to a start. -/
theorem startsAt_controlEdge (hfn : CheckedFunction fn)
    (hstream : VerifiedStream fn.bytecode trace) {pc tgt : Nat}
    (hst : fn.StartsAt pc) (hedge : ControlEdge fn pc tgt) : fn.StartsAt tgt := by
  cases hedge with
  | fallThrough hdec hop =>
    exact startsAt_fallThrough hstream (mem_of_decodeAt hstream hst hdec) hop
  | jump hdec ht => exact startsAt_jump hstream hst hdec ht
  | replay horigin hdec ht => exact startsAt_jump hstream horigin hdec ht
  | handler he =>
    obtain ⟨depth, hhandlers⟩ := hfn.handlers
    exact startsAt_of_isInstructionStart hstream (validateHandlers_entry hhandlers he).1
  | finalizerEnd hdec hop he hfin =>
    obtain ⟨depth, hhandlers⟩ := hfn.handlers
    exact startsAt_finalizerEnd hstream ((validateHandlers_entry hhandlers he).2 hfin)
  | resume hpoint =>
    exact startsAt_of_isInstructionStart hstream
      (validateSuspendPoints_entry hfn.suspendPoints hpoint)

/-- Every run from offset zero stays on starts. -/
theorem startsAt_run (hfn : CheckedFunction fn)
    (hstream : VerifiedStream fn.bytecode trace) {pc : Nat}
    (hrun : Relation.ReflTransGen (ControlEdge fn) 0 pc) : fn.StartsAt pc := by
  induction hrun with
  | refl => exact startsAt_zero hstream
  | tail _ hedge ih => exact startsAt_controlEdge hfn hstream ih hedge

end Function

/-- In every function of a built module, offset zero is an instruction start,
every control edge from a start leads to a start strictly inside the words, and
every run along these edges decodes an instruction at each offset it reaches. -/
theorem new_controlFlow (source : String) (constants : List BytecodeConstant)
    (scopeNames : List String) (templates : List CompiledFunctionTemplate)
    (entryFunction : FunctionId) (mdl : CompiledModule)
    (hnew : CompiledModule.new source constants scopeNames templates entryFunction = .ok mdl)
    (fn : CompiledFunction) (hfn : fn ∈ mdl.functions) :
    fn.StartsAt 0 ∧ (∀ pc tgt, fn.StartsAt pc → ControlEdge fn pc tgt → fn.StartsAt tgt) ∧
      ∀ pc, Relation.ReflTransGen (ControlEdge fn) 0 pc →
        fn.StartsAt pc ∧ ∃ instr, decodeAt fn.words pc = .ok instr := by
  have hcheck := new_functions hnew fn hfn
  obtain ⟨bytecode, ctx, hverify⟩ := hcheck.verified
  obtain ⟨-, trace, hstream⟩ := verify_stream hverify
  refine ⟨startsAt_zero hstream, ?_, ?_⟩
  · intro pc tgt hst hedge
    exact startsAt_controlEdge hcheck hstream hst hedge
  · intro pc hrun
    have hst := startsAt_run hcheck hstream hrun
    obtain ⟨instr, hm⟩ := (startsAt_iff_mem hstream).mp hst
    exact ⟨hst, instr, (hstream.decode_start hm).2⟩

/-- A finalizer at offset one that protects the instruction before it. -/
def finalizerHandler : HandlerEntry :=
  { protectedStart := ⟨0⟩, protectedEnd := ⟨1⟩, handler := ⟨1⟩, handlerEnd := ⟨2⟩
    kind := .finally_, environmentDepth := 0 }

/-- A function whose protected first instruction enters the finalizer, which
resumes and falls through to the return. -/
def finalizerFunction : CompiledFunction :=
  { id := ⟨0⟩
    bytecode := ⟨⟨[0xc6, 0xc7, 46]⟩, [true, true, true]⟩
    metadata :=
      { kind := .script, role := .ordinary, strictness := .sloppy
        layout := { maxHandlerDepth := 1, maxCompletionDepth := 1 }
        sourceMap := [], handlers := [finalizerHandler], suspendPoints := []
        feedbackSites := [], bindingPlan := [], environmentSlots := [] }
    sourceRange := .unavailable }

/-- The finalizer function builds, and its run from the protected instruction
through the handler and the finalizer's end reaches the return. -/
theorem new_controlFlow_finalizer :
    ∃ mdl,
      CompiledModule.new "" [] [] [{ id := ⟨0⟩, bytecode := finalizerFunction.bytecode.bytecode
                                     metadata := finalizerFunction.metadata
                                     sourceRange := .unavailable }] ⟨0⟩ = .ok mdl ∧
      finalizerFunction ∈ mdl.functions ∧
      Relation.ReflTransGen (ControlEdge finalizerFunction) 0 2 ∧
      finalizerFunction.StartsAt 2 := by
  have hnew : CompiledModule.new "" [] []
      [{ id := ⟨0⟩, bytecode := finalizerFunction.bytecode.bytecode
         metadata := finalizerFunction.metadata, sourceRange := .unavailable }] ⟨0⟩ =
      .ok { source := "", constants := [], scopeNames := [], functions := [finalizerFunction]
            entryFunction := ⟨0⟩ } := by rfl
  have he : finalizerHandler ∈ finalizerFunction.metadata.handlers := List.mem_cons_self
  have hfirst : ControlEdge finalizerFunction 0 1 := ControlEdge.handler he
  have hsec : ControlEdge finalizerFunction 1 2 := ControlEdge.finalizerEnd rfl rfl he rfl
  have hpath : Relation.ReflTransGen (ControlEdge finalizerFunction) 0 2 :=
    .tail (.tail .refl hfirst) hsec
  obtain ⟨-, -, hrun⟩ :=
    new_controlFlow _ _ _ _ _ _ hnew finalizerFunction List.mem_cons_self
  exact ⟨_, hnew, List.mem_cons_self, hpath, (hrun 2 hpath).1⟩

end TachyonEngine.Bytecode
