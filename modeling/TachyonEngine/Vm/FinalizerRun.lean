import TachyonEngine.Vm.FinalizerDispatch

/-!
# Runs of a frame through its finalizers

A frame runs ordinary instructions, waits for native trampolines, enters finalizers, replays their
completions and dispatches abrupt ones. `finalizers_in_lockstep` says along which runs the saved
completions and the active finalizers of the frame correspond in every state, and that no action
then fails for want of a saved completion.
-/

namespace TachyonEngine.Vm

open Bytecode Lib List
open Gc (RawHeapRef)

variable {ν : Type}

/-! ## What a frame has saved -/

def CompletionEntry.record? : CompletionEntry ν → Option CompletionRecord
  | .language record => some record
  | .native _ => none

/-- The language records above the base of a frame. -/
def CompletionStack.languageRecords (completions : CompletionStack ν) (base : Nat) :
    List CompletionRecord :=
  (completions.entries.drop base).filterMap CompletionEntry.record?

/-- The active handlers of the running frame. -/
def Fiber.activeHandlers (fiber : Fiber ν) : List ActiveHandler :=
  fiber.handlers.entries.filter fun active => active.frameDepth == fiber.frames.len

/-- The finalizers of the running frame with what they have saved, the innermost first. -/
def Fiber.savedFinalizers (fiber : Fiber ν) (handlers : List HandlerEntry) (frame : Frame) :
    List Saved :=
  ((fiber.activeHandlers.filterMap fun active => handlers[active.handlerIndex]?).zip
    (fiber.completions.languageRecords frame.completionBase)).reverse

/-- The saved completions and the active handlers of the running frame correspond one to one and in
the same order, and each active handler is a finalizer whose body contains the program counter. -/
def FinalizersInLockstep (fn : CompiledFunction) (fiber : Fiber ν) : Prop :=
  ∃ frame, fiber.frames.last = some frame ∧ List.Forall₂
      (fun active record => ∃ handler, fn.metadata.handlers[active.handlerIndex]? = some handler ∧
        handler.kind.isFinalizer = true ∧ handler.bodyContains frame.pc = true ∧
        RecordFits fn.metadata.handlers handler record)
      fiber.activeHandlers (fiber.completions.languageRecords frame.completionBase)

/-- A relation between lists is one between members of the second. -/
theorem forall₂_mem_right {α β : Type} {R : α → β → Prop} {left : List α} {right : List β}
    (h : List.Forall₂ R left right) : List.Forall₂ (fun a b => b ∈ right ∧ R a b) left right := by
  induction h with
  | nil => exact .nil
  | cons hrel _ ih =>
    refine .cons ⟨mem_cons_self, hrel⟩ (ih.imp ?_)
    rintro a b ⟨hm, hab⟩
    exact ⟨mem_cons_of_mem _ hm, hab⟩

section Stacked

variable {handlers : List HandlerEntry} {fiber : Fiber ν} {base : Nat} {saved : List Saved}
  {natives : List (CompletionEntry ν)}

theorem Stacked.languageRecords (h : Stacked handlers fiber base saved natives) :
    fiber.completions.languageRecords base = saved.map (·.2) := by
  obtain ⟨below, rfl, hes⟩ := h.completions
  have hnatives : natives.filterMap CompletionEntry.record? = [] := by
    rw [filterMap_eq_nil_iff]
    intro ent he
    have hnative := h.native ent he
    cases ent with
    | language rec => cases hnative
    | native continuation => rfl
  rw [CompletionStack.languageRecords, hes, append_assoc, drop_left,
    filterMap_append, hnatives, append_nil, savedEntries, filterMap_map]
  exact congrFun (filterMap_eq_map' (f := fun s : Saved => s.2)) saved

theorem Stacked.activeHandlers (h : Stacked handlers fiber base saved natives) :
    List.Forall₂ (ActiveHandler.Names fiber.frames.len handlers) fiber.activeHandlers saved := by
  obtain ⟨below, own, hes, hbl, hown⟩ := h.active
  have hn : below.filter (fun active => active.frameDepth == fiber.frames.len) = [] := by
    rw [filter_eq_nil_iff]
    intro active hact
    simpa using hbl active hact
  have hall : own.filter (fun active => active.frameDepth == fiber.frames.len) = own := by
    rw [filter_eq_self]
    intro active hact
    simpa using ((forall₂_and_left own saved).mp hown).1 active hact
  rw [Fiber.activeHandlers, hes, filter_append, hn, hall]
  exact hown

theorem ActiveHandler.Names.filterMap {depth : Nat} {own : List ActiveHandler}
    (h : List.Forall₂ (ActiveHandler.Names depth handlers) own saved) :
    own.filterMap (fun active => handlers[active.handlerIndex]?) = saved.map (·.1) := by
  induction h with
  | nil => rfl
  | cons hnames _ ih => rw [filterMap_cons, hnames.2, ih, map_cons]

/-- The pairs that are read off the stacks are the ones of the list. -/
theorem Stacked.savedFinalizers {frame : Frame}
    (h : Stacked handlers fiber frame.completionBase saved natives) :
    fiber.savedFinalizers handlers frame = saved.reverse := by
  rw [Fiber.savedFinalizers, ActiveHandler.Names.filterMap h.activeHandlers, h.languageRecords,
    zip_map']
  exact congrArg reverse (map_id saved)

end Stacked

/-- A frame that stands at an instruction has its two stacks in lockstep. -/
theorem Standing.inLockstep {codes : List LoadedCode} {fn : CompiledFunction} {fiber : Fiber ν}
    {frame : Frame} {saved : List Saved} {natives : List (CompletionEntry ν)}
    (h : Standing codes fn fiber frame saved natives) : FinalizersInLockstep fn fiber := by
  refine ⟨frame, h.running, ?_⟩
  rw [h.stacked.languageRecords, forall₂_map_right_iff]
  have hact := h.stacked.activeHandlers
  refine List.Forall₂.imp ?_ (forall₂_mem_right hact)
  rintro active s ⟨hs, -, he⟩
  obtain ⟨-, hfin⟩ := h.lockstep.entries s hs
  exact ⟨s.1, he, hfin,
    HandlerEntry.bodyContains_iff.mpr (h.lockstep.contains (h.lockstep.around_of_mem hs)),
    h.lockstep.records s hs⟩

/-! ## Actions -/

/-- What a frame does at an instruction, as far as its finalizers are concerned. A move brings the
fiber that the instruction leaves: its environments, registers and anything else may have
changed. -/
inductive FrameAction (ν : Type) where
  | moves (next : WordOffset) (after : Fiber ν)
  | pushesNative (continuation : ν)
  | popsNative
  | entersFinally
  | resumesCompletion
  | completes (completion : CompletionRecord)

/-- The offset behind an instruction. -/
def nextOffset (fn : CompiledFunction) (pc : WordOffset) : WordOffset :=
  match decodeAt fn.words pc.index.toNat with
  | .error _ => pc
  | .ok instruction => WordOffset.new (pc.index.toNat + instruction.length)

/-- Performs an action. The program counter is moved behind the instruction before it runs. -/
def perform (host : Host) (fn : CompiledFunction) (fiber : Fiber ν) (action : FrameAction ν) :
    Option (Except ExecutionError (AbruptExit × Fiber ν)) :=
  match fiber.frames.last with
  | none => none
  | some frame =>
    let advanced := fiber.setPc (nextOffset fn frame.pc)
    match action with
    | .moves next after => some (.ok (.resumed, after.setPc next))
    | .pushesNative continuation =>
      some (match fiber.completions.pushNative continuation with
        | (.error e, _) => .error e
        | (.ok (), completions) => .ok (.resumed, { fiber with completions := completions }))
    | .popsNative =>
      some (match fiber.completions.popNative with
        | none => .error .missingNativeContinuation
        | some (_, completions) => .ok (.resumed, { fiber with completions := completions }))
    | .entersFinally =>
      (enterFinally host advanced frame.pc).map fun result =>
        result.map fun fiber => (.resumed, fiber)
    | .resumesCompletion => resumeCompletion host advanced frame.pc
    | .completes completion => dispatchAbrupt host advanced completion frame.pc

/-- An instruction moves to the next one or jumps, without a completion. -/
inductive OrdinaryMove (fn : CompiledFunction) (pc next : Nat) : Prop where
  | fallThrough {instruction : DecodedInstruction}
      (decodes : decodeAt fn.words pc = .ok instruction)
      (ordinary : instruction.opcode.isTerminal = false)
      (plain : instruction.opcode ≠ .enterFinally ∧ instruction.opcode ≠ .resumeCompletion)
      (next_eq : next = pc + instruction.length)
  | jump {instruction : DecodedInstruction} {target : UInt32}
      (decodes : decodeAt fn.words pc = .ok instruction)
      (targets : jumpTarget instruction.opcode instruction.operands = some target)
      (plain : instruction.opcode.isAbruptTransfer = false)
      (next_eq : next = target.toNat)

/-- The completions that an instruction raises: a throw, a return, or the break or continue that it
encodes. -/
inductive Raises (fn : CompiledFunction) (pc : Nat) : CompletionRecord → Prop where
  | throws (value : Value) : Raises fn pc (.throw value)
  | returns (value : Value) : Raises fn pc (.returnValue value)
  | transfers {instruction : DecodedInstruction} {target : UInt32} {completion : CompletionRecord}
      (decodes : decodeAt fn.words pc = .ok instruction)
      (targets : jumpTarget instruction.opcode instruction.operands = some target)
      (kind : instruction.opcode = .breakThroughFinally ∧
          completion = .breakTarget none ⟨target⟩ (instruction.operands.get 1).toNat ∨
        instruction.opcode = .continueThroughFinally ∧
          completion = .continueTarget none ⟨target⟩ (instruction.operands.get 1).toNat) :
      Raises fn pc completion

/-- The actions of the instruction at the program counter. An ordinary instruction leaves the two
stacks alone, and a trampoline is popped by the frame that has pushed it. -/
def Acts (fn : CompiledFunction) (fiber : Fiber ν) (frame : Frame) : FrameAction ν → Prop
  | .moves next after =>
    OrdinaryMove fn frame.pc.index.toNat next.index.toNat ∧ KeepsFinalizers fiber after
  | .pushesNative _ => True
  | .popsNative => frame.completionBase < fiber.completions.len
  | .entersFinally => ∃ instruction,
      decodeAt fn.words frame.pc.index.toNat = .ok instruction ∧ instruction.opcode = .enterFinally
  | .resumesCompletion => ∃ instruction, decodeAt fn.words frame.pc.index.toNat = .ok instruction ∧
        instruction.opcode = .resumeCompletion
  | .completes completion => Raises fn frame.pc.index.toNat completion

/-- The condition under which an action keeps the stacks in lockstep: a move stays in the same
finalizers; a finalizer is entered normally from inside of the finalizers around its range, with no
trampoline pending; behind its end begins no other finalizer; a jump leads into no finalizer, and
what is dispatched fits the saved completions. -/
def ActionFits (fn : CompiledFunction) (fiber : Fiber ν) (frame : Frame) :
    FrameAction ν → Prop
  | .moves next _ =>
    ∀ around ∈ fn.metadata.handlers, around.kind.isFinalizer = true →
      (around.body.Contains next.index.toNat ↔ around.body.Contains frame.pc.index.toNat)
  | .pushesNative _ => True
  | .popsNative => True
  | .entersFinally =>
    (∀ entry ∈ fiber.completions.entries.drop frame.completionBase, entry.isNative = false) ∧
    ∀ found, findCoveringFinally fn.metadata.handlers frame.pc = some found →
      ∀ around ∈ fn.metadata.handlers, around.kind.isFinalizer = true →
        around.body.Contains frame.pc.index.toNat → found.2.range.Within around.body
  | .resumesCompletion =>
    (∀ around ∈ fn.metadata.handlers, around.kind.isFinalizer = true →
      around.body.Contains (nextOffset fn frame.pc).index.toNat →
        around.body.Contains frame.pc.index.toNat) ∧
    ∀ s outer, fiber.savedFinalizers fn.metadata.handlers frame = s :: outer →
      s.2.kind ≠ .normal → DispatchFits fn.metadata.handlers outer frame.pc s.2
  | .completes completion =>
    (∀ target, completion.target = some target → ∀ around ∈ fn.metadata.handlers,
      around.kind.isFinalizer = true → around.body.Contains target.index.toNat →
        around.body.Contains frame.pc.index.toNat) ∧
    DispatchFits fn.metadata.handlers
      (fiber.savedFinalizers fn.metadata.handlers frame) frame.pc completion

/-- One action of the running frame that stays in the frame. -/
def FrameStep (codes : List LoadedCode) (fn : CompiledFunction) (before after : Fiber ν) :
    Prop :=
  ∃ heap frame action, before.frames.last = some frame ∧ Acts fn before frame action ∧
    perform (EnvironmentHeap.host heap codes) fn before action = some (.ok (.resumed, after))

/-- The same of an action that fits. -/
def FittingStep (codes : List LoadedCode) (fn : CompiledFunction) (before after : Fiber ν) :
    Prop :=
  ∃ heap frame action, before.frames.last = some frame ∧ Acts fn before frame action ∧
    ActionFits fn before frame action ∧
    perform (EnvironmentHeap.host heap codes) fn before action = some (.ok (.resumed, after))

section Function

variable {codes : List LoadedCode} {fn : CompiledFunction} {fiber : Fiber ν} {frame : Frame}
  {saved : List Saved} {natives : List (CompletionEntry ν)}
  {trace : List (Nat × DecodedInstruction)}

section

variable (hstream : VerifiedStream fn.bytecode trace)

include hstream

/-- The offset behind an instruction of the trace. -/
theorem nextOffset_eq {pc : WordOffset} {instr : DecodedInstruction}
    (hm : (pc.index.toNat, instr) ∈ trace) :
    (nextOffset fn pc).index.toNat = pc.index.toNat + instr.length := by
  obtain ⟨hin, hdec⟩ := hstream.decode_start hm
  have hsm := hstream.small
  have hextent := (decodeAt_extent (lt_trans hin hsm) hdec).2.2
  rw [nextOffset, hdec]
  exact index_toNat_new (lt_of_le_of_lt hextent hsm)

variable {pc : Nat}

/-- An ordinary move leads to an instruction. -/
theorem OrdinaryMove.startsAt {next : Nat} (h : OrdinaryMove fn pc next) (hst : fn.StartsAt pc) :
    fn.StartsAt next := by
  cases h with
  | fallThrough hdec hordinary _ hn =>
    rw [hn]
    exact startsAt_fallThrough hstream (mem_of_decodeAt hstream hst hdec) hordinary
  | jump hdec ht _ hn =>
    rw [hn]
    exact startsAt_jump hstream hst hdec ht

/-- A completion that an instruction raises can be dispatched. -/
theorem Raises.fits {completion : CompletionRecord} (h : Raises fn pc completion) (hst : fn.StartsAt
    pc) (hout : ∀ tgt, completion.target = some tgt → ∀ around ∈ fn.metadata.handlers,
    around.kind.isFinalizer = true → around.body.Contains tgt.index.toNat → around.body.Contains pc)
    : CompletionFits fn.metadata.handlers none pc completion ∧
      TargetStarts fn completion := by
  cases h with
  | throws val | returns val => exact ⟨⟨val, rfl⟩, nofun⟩
  | @transfers instr tgt _ hdec ht hk =>
    have htargetStart := startsAt_jump hstream hst hdec ht
    rcases hk with ⟨-, rfl⟩ | ⟨-, rfl⟩
    · refine ⟨⟨⟨tgt⟩, rfl, hout _ rfl⟩, ?_⟩
      intro other ho
      cases ho
      exact htargetStart
    · refine ⟨⟨⟨tgt⟩, rfl, hout _ rfl⟩, ?_⟩
      intro other ho
      cases ho
      exact htargetStart

/-- Moving within the same finalizers. -/
theorem Standing.moves (h : Standing codes fn fiber frame saved natives) {next : WordOffset}
    {after : Fiber ν} (hmove : OrdinaryMove fn frame.pc.index.toNat next.index.toNat)
    (hkeeps : KeepsFinalizers fiber after)
    (hs : ∀ around ∈ fn.metadata.handlers, around.kind.isFinalizer = true →
      (around.body.Contains next.index.toNat ↔ around.body.Contains frame.pc.index.toNat)) :
    Stands codes fn (after.setPc next) := by
  obtain ⟨last, hlast, hruns, hstacked⟩ := hkeeps.stacked h.running h.runs h.stacked
  refine ⟨_, saved, natives, Fiber.modifyTop_last hlast _, hruns, hstacked.modifyTop _, ?_,
    hmove.startsAt hstream h.starts, h.targets⟩
  refine ⟨h.lockstep.entries, h.lockstep.nested, h.lockstep.records, ?_, nofun⟩
  intro ent he hfin
  exact (hs ent he hfin).trans (h.lockstep.active ent he hfin)

end

variable {handlers : List HandlerEntry} {base : Nat} {continuation : ν}
  {completions : CompletionStack ν}

theorem Stacked.pushNative (h : Stacked handlers fiber base saved natives) (hpushed :
    completions.entries = fiber.completions.entries ++ [.native continuation]) :
    Stacked handlers { fiber with completions := completions } base saved
      (natives ++ [.native continuation]) := by
  obtain ⟨below, hbl, hes⟩ := h.completions
  refine ⟨?_, ⟨below, hbl, ?_⟩, h.active⟩
  · intro ent he
    rcases mem_append.mp he with he | he
    · exact h.native ent he
    · obtain rfl := mem_singleton.mp he
      rfl
  · rw [hpushed, hes, append_assoc]

/-- A frame without pending trampolines. -/
theorem Stacked.natives_eq_nil (h : Stacked handlers fiber base saved natives) (hn : ∀ ent ∈
    fiber.completions.entries.drop base, ent.isNative = false) : natives = [] := by
  obtain ⟨below, rfl, hes⟩ := h.completions
  rw [eq_nil_iff_forall_not_mem]
  intro ent he
  have hnot := hn ent (by
    rw [hes, append_assoc, drop_left]
    exact mem_append.mpr (.inr he))
  rw [h.native ent he] at hnot
  cases hnot

/-- Trampolines of the frame stand above its saved completions. -/
theorem Stacked.popNative (h : Stacked handlers fiber base saved natives) (hbase : base <
    fiber.completions.len) (hpop : fiber.completions.popNative = some (continuation, completions)) :
    ∃ rest, Stacked handlers { fiber with completions := completions } base saved rest := by
  obtain ⟨below, hbl, hes⟩ := h.completions
  simp only [CompletionStack.popNative] at hpop
  split at hpop
  next top htop =>
    cases hpop
    have hstack : fiber.completions.stack.entries = below ++ savedEntries ν saved ++ natives := hes
    rcases eq_nil_or_concat natives with rfl | ⟨rest, last, rfl⟩
    · -- the top is a saved completion then, or is of another frame
      rw [Stack.last, hstack, append_nil] at htop
      rcases eq_nil_or_concat saved with rfl | ⟨others, last, rfl⟩
      · rw [CompletionStack.len, hes, ← hbl] at hbase
        simp [savedEntries] at hbase
      · rw [concat_eq_append, savedEntries_concat, ← append_assoc,
          getLast?_concat] at htop
        cases htop
    · refine ⟨rest, ?_, ⟨below, hbl, ?_⟩, h.active⟩
      · intro ent he
        exact h.native ent (by simp [he])
      · show fiber.completions.stack.entries.dropLast = _
        rw [hstack, concat_eq_append, ← append_assoc, dropLast_concat]
  · cases hpop

theorem Standing.perform (htb : FinalizerTable fn) (hcheck : TableChecked fn trace)
    (hstream : VerifiedStream fn.bytecode trace) (heap : EnvironmentHeap)
    (h : Standing codes fn fiber frame saved natives) {action : FrameAction ν}
    (hacts : Acts fn fiber frame action) (hfits : ActionFits fn fiber frame action) :
    ∃ res, Vm.perform (heap.host codes) fn fiber action = some res ∧
      Meets NotMissing (StandsOrLeaves codes fn) res := by
  rw [Vm.perform, h.running]
  cases action with
  | moves next after =>
    exact ⟨_, rfl, h.moves hstream hacts.1 hacts.2 hfits⟩
  | pushesNative continuation =>
    refine ⟨_, rfl, ?_⟩
    rcases fiber.completions.pushEntry_cases (.native continuation) with
      ⟨e, post, hpush, hfails⟩ | ⟨post, hpush, hpushed⟩
    · simp only [CompletionStack.pushNative, hpush]
      exact hfails
    · simp only [CompletionStack.pushNative, hpush]
      exact ⟨frame, saved, natives ++ [.native continuation], h.running, h.runs,
        h.stacked.pushNative hpushed, h.lockstep, h.starts, h.targets⟩
  | popsNative =>
    refine ⟨_, rfl, ?_⟩
    cases hpop : fiber.completions.popNative with
    | none => exact nofun
    | some popped =>
      obtain ⟨rest, hstacked⟩ := h.stacked.popNative hacts hpop
      exact ⟨frame, saved, rest, h.running, h.runs, hstacked, h.lockstep, h.starts, h.targets⟩
  | entersFinally =>
    obtain ⟨instr, hdec, hop⟩ := hacts
    obtain ⟨hn, hwi⟩ := hfits
    have hm := mem_of_decodeAt hstream h.starts hdec
    obtain rfl := h.stacked.natives_eq_nil hn
    obtain ⟨res, hres, hmeets⟩ := h.enterFinally htb hcheck heap (nextOffset fn frame.pc) hm hop hwi
    refine ⟨res.map fun fiber => (.resumed, fiber), by simp only [hres, Option.map_some], ?_⟩
    cases res with
    | error e | ok post => exact hmeets
  | resumesCompletion =>
    obtain ⟨instr, hdec, hop⟩ := hacts
    obtain ⟨hout, hreplay⟩ := hfits
    have hm := mem_of_decodeAt hstream h.starts hdec
    rw [h.stacked.savedFinalizers] at hreplay
    exact h.resumeCompletion htb hcheck hstream heap hm hop (nextOffset_eq hstream hm) hout hreplay
  | completes completion =>
    obtain ⟨hout, hdispatch⟩ := hfits
    obtain ⟨hcompl, ht⟩ := Raises.fits hstream hacts h.starts hout
    rw [h.stacked.savedFinalizers] at hdispatch
    have hst : DispatchState codes fn (fiber.setPc (nextOffset fn frame.pc))
        { frame with pc := nextOffset fn frame.pc } none frame.pc completion saved natives :=
      ⟨Fiber.modifyTop_last h.running _, h.runs, h.stacked.modifyTop _, h.lockstep, hcompl,
        h.targets, ht⟩
    exact hst.dispatchAbrupt htb heap hdispatch

theorem Stands.step (ht : FinalizerTable fn) (hcheck : TableChecked fn trace)
    (hstream : VerifiedStream fn.bytecode trace) {pre post : Fiber ν}
    (h : Stands codes fn pre) (hstep : FittingStep codes fn pre post) : Stands codes fn post := by
  obtain ⟨frame, saved, natives, hstanding⟩ := h
  obtain ⟨heap, other, action, hl, hacts, hfits, hperform⟩ := hstep
  rw [hstanding.running] at hl
  cases hl
  obtain ⟨res, hres, hmeets⟩ := hstanding.perform ht hcheck hstream heap hacts hfits
  rw [hperform] at hres
  cases hres
  exact hmeets

theorem Stands.run (ht : FinalizerTable fn) (hcheck : TableChecked fn trace)
    (hstream : VerifiedStream fn.bytecode trace) {start st : Fiber ν} (h : Stands codes fn start)
    (hrun : Relation.ReflTransGen (FittingStep codes fn) start st) : Stands codes fn st := by
  induction hrun with
  | refl => exact h
  | tail _ hstep ih => exact ih.step ht hcheck hstream hstep

/-- A frame that has just been entered. -/
structure FrameEntered (codes : List LoadedCode) (fn : CompiledFunction) (fiber : Fiber ν)
    (frame : Frame) : Prop where
  running : fiber.frames.last = some frame
  runs : Runs codes fn frame
  pc : frame.pc = ⟨0⟩
  completions : fiber.completions.len = frame.completionBase
  handlers : ∀ active ∈ fiber.handlers.entries, active.frameDepth ≠ fiber.frames.len

/-- A frame starts without finalizers when its first instruction is in none. -/
theorem FrameEntered.stands (hstream : VerifiedStream fn.bytecode trace)
    (h : FrameEntered codes fn fiber frame)
    (hfirst : ∀ ent ∈ fn.metadata.handlers, ent.kind.isFinalizer = true →
      ¬ent.body.Contains 0) : Stands codes fn fiber := by
  have hpc : frame.pc.index.toNat = 0 := by
    rw [h.pc]
    rfl
  refine ⟨frame, [], [], h.running, h.runs,
    ⟨forall_mem_nil _, ⟨fiber.completions.entries, h.completions, ?_⟩,
      ⟨fiber.handlers.entries, [], (append_nil _).symm, h.handlers, .nil⟩⟩,
    ?_, ?_, forall_mem_nil _⟩
  · rw [append_nil]
    exact (append_nil _).symm
  · rw [hpc]
    refine ⟨forall_mem_nil _, .nil, forall_mem_nil _, ?_, fun _ hleft => by cases hleft⟩
    intro ent he hfin
    exact ⟨fun hcon => absurd hcon (hfirst ent he hfin), fun ⟨_, hs, _⟩ => by cases hs⟩
  · rw [hpc]
    exact startsAt_zero hstream

end Function

/-- In every function of a built module whose handler table is nested as block-structured code nests
it and whose first instruction is in no finalizer, along every run of a frame whose actions fit:
the saved completions and the active finalizers correspond, and no action that fits fails for want
of a saved completion. -/
theorem finalizers_in_lockstep (source : String) (constants : List BytecodeConstant)
    (scopeNames : List String) (templates : List CompiledFunctionTemplate)
    (entryFunction : FunctionId) (mdl : CompiledModule)
    (hnew : CompiledModule.new source constants scopeNames templates entryFunction = .ok mdl)
    (fn : CompiledFunction) (hfn : fn ∈ mdl.functions) (hnested : WellNested fn.metadata.handlers)
    (hfirst : ∀ ent ∈ fn.metadata.handlers, ent.kind.isFinalizer = true → ¬ent.body.Contains 0)
    (codes : List LoadedCode) (start st : Fiber ν) (entered : Frame)
    (hentered : FrameEntered codes fn start entered)
    (hrun : Relation.ReflTransGen (FittingStep codes fn) start st) :
    FinalizersInLockstep fn st ∧
      ∀ heap frame action, st.frames.last = some frame → Acts fn st frame action →
        ActionFits fn st frame action →
        ∃ res, perform (EnvironmentHeap.host heap codes) fn st action = some res ∧
          res ≠ .error .missingCompletionRecord := by
  have hcheck := new_functions hnew fn hfn
  obtain ⟨bytecode, ctx, hverify⟩ := hcheck.verified
  obtain ⟨-, trace, hstream⟩ := verify_stream hverify
  have htables := tableChecked hcheck hstream
  have ht : FinalizerTable fn := ⟨htables.valid, hnested, htables.starts⟩
  have hstands := (hentered.stands hstream hfirst).run ht htables hstream hrun
  obtain ⟨running, saved, natives, hstanding⟩ := hstands
  refine ⟨hstanding.inLockstep, ?_⟩
  intro heap frame action hl hacts hfits
  rw [hstanding.running] at hl
  cases hl
  obtain ⟨res, hres, hmeets⟩ := hstanding.perform ht htables hstream heap hacts hfits
  refine ⟨res, hres, ?_⟩
  rintro rfl
  exact hmeets rfl

/-- A finalizer whose body breaks out of itself through another finalizer, inside of a catch. -/
def nestedHandlers : List HandlerEntry :=
  [{ protectedStart := ⟨0⟩, protectedEnd := ⟨1⟩, handler := ⟨1⟩, handlerEnd := ⟨8⟩
     kind := .finally_, environmentDepth := 0 },
   { protectedStart := ⟨1⟩, protectedEnd := ⟨6⟩, handler := ⟨6⟩, handlerEnd := ⟨6⟩
     kind := .catch_, environmentDepth := 0 },
   { protectedStart := ⟨1⟩, protectedEnd := ⟨4⟩, handler := ⟨4⟩, handlerEnd := ⟨6⟩
     kind := .finally_, environmentDepth := 0 }]

/-- The inner finalizer throws, and the catch stands in the outer finalizer. -/
def nestedTemplate : CompiledFunctionTemplate :=
  { id := ⟨0⟩
    bytecode := ⟨[198, 200, 8, 0, 12, 199, 0, 199, 46]⟩
    metadata :=
      { kind := .script, role := .ordinary, strictness := .sloppy
        layout := { registerCount := 1, maxHandlerDepth := 3, maxCompletionDepth := 2 }
        sourceMap := [], handlers := nestedHandlers, suspendPoints := []
        feedbackSites := [], bindingPlan := [], environmentSlots := [] }
    sourceRange := .unavailable }

def nestedFunction : CompiledFunction :=
  { id := ⟨0⟩
    bytecode := ⟨nestedTemplate.bytecode, [true, true, false, false, true, true, true, true, true]⟩
    metadata := nestedTemplate.metadata
    sourceRange := .unavailable }

def nestedCodes : List LoadedCode := [{ functions := [nestedFunction], realm := 0 }]

theorem new_nestedFunction :
    CompiledModule.new "" [] [] [nestedTemplate] ⟨0⟩ =
      .ok { source := "", constants := [], scopeNames := [], functions := [nestedFunction]
            entryFunction := ⟨0⟩ } := by rfl

theorem wellNested_nestedHandlers : WellNested nestedHandlers := by
  constructor <;> decide

/-- A fiber that runs the script with the given finalizers and saved completions. -/
def nestedFiber (pc : WordOffset) (active : List Nat) (saved : List CompletionRecord) :
    Fiber Unit :=
  { scriptFiber pc active saved with
    handlers := { (scriptFiber pc active saved).handlers with capacity := 3 } }

theorem frameEntered_nestedFunction :
    FrameEntered nestedCodes nestedFunction (nestedFiber ⟨0⟩ [] []) (scriptFrame ⟨0⟩) :=
  ⟨rfl, ⟨_, rfl, rfl⟩, rfl, rfl, nofun⟩

/-- Both finalizers are active in the inner one, with a throw saved on top of a normal
completion. -/
theorem finalizers_in_lockstep_nestedFunction :
    Relation.ReflTransGen (FittingStep nestedCodes nestedFunction) (nestedFiber ⟨0⟩ [] [])
        (nestedFiber ⟨4⟩ [0, 2] [.normal none, .throw (.fromI32 1)]) ∧
      FinalizersInLockstep nestedFunction
        (nestedFiber ⟨4⟩ [0, 2] [.normal none, .throw (.fromI32 1)]) := by
  have henters : FittingStep nestedCodes nestedFunction (nestedFiber ⟨0⟩ [] [])
      (nestedFiber ⟨1⟩ [0] [.normal none]) := by
    refine ⟨fun _ => none, scriptFrame ⟨0⟩, .entersFinally, rfl, ⟨_, rfl, rfl⟩,
      ⟨fun _ h => absurd h not_mem_nil, ?_⟩, rfl⟩
    intro found hf
    cases hf
    decide
  have hthrows : FittingStep nestedCodes nestedFunction (nestedFiber ⟨1⟩ [0] [.normal none])
      (nestedFiber ⟨4⟩ [0, 2] [.normal none, .throw (.fromI32 1)]) := by
    refine ⟨fun _ => none, scriptFrame ⟨1⟩, .completes (.throw (.fromI32 1)), rfl, .throws _,
      ⟨by rintro _ ⟨⟩, ?_⟩, rfl⟩
    -- the outer finalizer closes no iterator, and a throw has no target
    intro hk
    rcases hk with hk | hk
    · cases hk
    · cases hk
  have hrun : Relation.ReflTransGen (FittingStep nestedCodes nestedFunction)
      (nestedFiber ⟨0⟩ [] []) (nestedFiber ⟨4⟩ [0, 2] [.normal none, .throw (.fromI32 1)]) :=
    .tail (.single henters) hthrows
  exact ⟨hrun, (finalizers_in_lockstep _ _ _ _ _ _ new_nestedFunction nestedFunction
    mem_cons_self wellNested_nestedHandlers (by decide) nestedCodes _ _ _
    frameEntered_nestedFunction hrun).1⟩

/-- The break drops what the outer finalizer has saved although it goes on inside of it: the throw
of the inner finalizer is caught there, and the end of the outer one finds nothing. -/
theorem not_finalizers_in_lockstep_nestedFunction :
    ∃ mdl, CompiledModule.new "" [] [] [nestedTemplate] ⟨0⟩ = .ok mdl ∧
      nestedFunction ∈ mdl.functions ∧ WellNested nestedFunction.metadata.handlers ∧
      FrameEntered nestedCodes nestedFunction (nestedFiber ⟨0⟩ [] []) (scriptFrame ⟨0⟩) ∧
      ∃ (st : Fiber Unit) (frame : Frame),
        Relation.ReflTransGen (FrameStep nestedCodes nestedFunction) (nestedFiber ⟨0⟩ [] []) st ∧
        st.frames.last = some frame ∧ Acts nestedFunction st frame .resumesCompletion ∧
        ∀ heap, perform (EnvironmentHeap.host heap nestedCodes) nestedFunction st
          .resumesCompletion = some (.error .missingCompletionRecord) := by
  refine ⟨_, new_nestedFunction, mem_cons_self, wellNested_nestedHandlers,
    frameEntered_nestedFunction, ?_⟩
  have henters : FrameStep nestedCodes nestedFunction (nestedFiber ⟨0⟩ [] [])
      (nestedFiber ⟨1⟩ [0] [.normal none]) :=
    ⟨fun _ => none, scriptFrame ⟨0⟩, .entersFinally, rfl, ⟨_, rfl, rfl⟩, rfl⟩
  have hbreaks : FrameStep nestedCodes nestedFunction (nestedFiber ⟨1⟩ [0] [.normal none])
      (nestedFiber ⟨4⟩ [2] [.breakTarget none ⟨8⟩ 0]) :=
    ⟨fun _ => none, scriptFrame ⟨1⟩, .completes (.breakTarget none ⟨8⟩ 0), rfl,
      .transfers rfl rfl (.inl ⟨rfl, rfl⟩), rfl⟩
  have hthrows : FrameStep nestedCodes nestedFunction
      (nestedFiber ⟨4⟩ [2] [.breakTarget none ⟨8⟩ 0])
      { nestedFiber ⟨6⟩ [] [] with pendingException := some .undefined } :=
    ⟨fun _ => none, scriptFrame ⟨4⟩, .completes (.throw .undefined), rfl, .throws _, rfl⟩
  have hmoves : FrameStep nestedCodes nestedFunction
      { nestedFiber ⟨6⟩ [] [] with pendingException := some .undefined }
      { nestedFiber ⟨7⟩ [] [] with pendingException := some .undefined } :=
    ⟨fun _ => none, scriptFrame ⟨6⟩, .moves ⟨7⟩ _, rfl,
      ⟨.fallThrough rfl rfl (by decide) rfl, .refl _⟩, rfl⟩
  exact ⟨_, scriptFrame ⟨7⟩, .tail (.tail (.tail (.single henters) hbreaks) hthrows) hmoves, rfl,
    ⟨_, rfl, rfl⟩, fun _ => rfl⟩

end TachyonEngine.Vm
