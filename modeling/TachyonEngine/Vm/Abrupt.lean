import TachyonEngine.Vm.Fiber

/-!
# Abrupt completions

A throw, a return, a break or a continue looks for a handler of the running frame. A finalizer
is entered with the completion saved on the completion stack, and `resumeCompletion` replays
it at the end of the finalizer. `dispatchAbrupt` is the part of the dispatch that stays in one
frame; leaving the frame is an exit of it.

`dispatchPass_close_iff` is about an error raised while an iterator is closed: the code looks at
the first completion that the frame has saved where the rule is about the last one.
-/

namespace TachyonEngine.Vm

open Bytecode
open Gc (RawHeapRef)

variable {ν : Type}

/-! ## Loaded code -/

structure LoadedCode where
  functions : List CompiledFunction
  realm : Nat

/-- What the interpreter reads and does not change here: the loaded code, and the parents of
environments. -/
structure Host where
  codes : List LoadedCode
  environmentParent : RawHeapRef → Except ExecutionError (Option RawHeapRef)

namespace Host

def loadedCode (host : Host) (code : Nat) : Except ExecutionError LoadedCode :=
  match host.codes[code]? with
  | some loaded => .ok loaded
  | none => .error (.invalidCode code)

/-- The handler table of the frame's function. -/
def handlers (host : Host) (frame : Frame) : Except ExecutionError (List HandlerEntry) :=
  match host.loadedCode frame.code with
  | .error e => .error e
  | .ok loaded =>
    match loaded.functions[frame.function.index.toNat]? with
    | none => .error (.missingEntryFunction frame.function)
    | some function => .ok function.metadata.handlers

def activeHandlerEntry (host : Host) (frame : Frame) (handlerIndex : Nat) :
    Except ExecutionError HandlerEntry :=
  match host.loadedCode frame.code with
  | .error e => .error e
  | .ok loaded =>
    match loaded.functions[frame.function.index.toNat]? with
    | none => .error .missingCompletionRecord
    | some function =>
      match function.metadata.handlers[handlerIndex]? with
      | none => .error .missingCompletionRecord
      | some handler => .ok handler

end Host

/-! ## Handler ranges -/

end TachyonEngine.Vm

namespace TachyonEngine.Bytecode.HandlerEntry

open Vm

/-- The protected range contains the offset. -/
def covers (handler : HandlerEntry) (offset : WordOffset) : Bool :=
  handler.protectedStart.index ≤ offset.index && offset.index < handler.protectedEnd.index

/-- The body of the finalizer contains the offset. -/
def bodyContains (handler : HandlerEntry) (offset : WordOffset) : Bool :=
  handler.handler.index ≤ offset.index && offset.index < handler.handlerEnd.index

/-- The handler can take the completion. -/
def eligible (handler : HandlerEntry) (completion : CompletionRecord) : Bool :=
  match completion.kind with
  | .throw => true
  | .return => handler.kind.isFinalizer
  | .break | .continue =>
    handler.kind.isFinalizer && completion.target.any fun target =>
      target.index < handler.protectedStart.index || handler.protectedEnd.index ≤ target.index
  | .normal => false

/-- A transfer that stays in the finalizer body keeps its saved completion. -/
def preserves (handler : HandlerEntry) (offset : WordOffset) (completion : CompletionRecord)
    (candidate : Option HandlerEntry) : Bool :=
  handler.bodyContains offset &&
    match completion.kind with
    | .break | .continue => completion.target.any handler.bodyContains
    | .throw | .return =>
      candidate.any fun nested =>
        handler.handler.index ≤ nested.protectedStart.index &&
          nested.protectedEnd.index ≤ handler.handlerEnd.index
    | .normal => true

end TachyonEngine.Bytecode.HandlerEntry

namespace TachyonEngine.Vm

open Bytecode
open Gc (RawHeapRef)

variable {ν : Type}

/-- The last handler of the table with the property, and its index. -/
def findLastHandler (p : HandlerEntry → Bool) (handlers : List HandlerEntry) :
    Option (Nat × HandlerEntry) :=
  (handlers.zipIdx.reverse.find? fun entry => p entry.1).map fun entry => (entry.2, entry.1)

/-- The innermost handler for a completion. -/
def findAbruptHandler (handlers : List HandlerEntry) (offset : WordOffset)
    (completion : CompletionRecord) : Option (Nat × HandlerEntry) :=
  findLastHandler (fun handler => handler.covers offset && handler.eligible completion) handlers

/-- The innermost finalizer that covers a normal exit. -/
def findCoveringFinally (handlers : List HandlerEntry) (offset : WordOffset) :
    Option (Nat × HandlerEntry) :=
  findLastHandler (fun handler => handler.kind.isFinalizer && handler.covers offset) handlers

/-! ## Operations on the fiber -/

namespace Fiber

/-- Changes the top frame. -/
def modifyTop (fiber : Fiber ν) (f : Frame → Frame) : Fiber ν :=
  { fiber with frames := { fiber.frames with
      entries := fiber.frames.entries.modify (fiber.frames.len - 1) f } }

theorem modifyTop_entries {fiber : Fiber ν} {rest : List Frame} {frame : Frame}
    (h : fiber.frames.entries = rest ++ [frame]) (f : Frame → Frame) :
    (fiber.modifyTop f).frames.entries = rest ++ [f frame] := by
  simp only [modifyTop, Stack.len, h, List.length_append, List.length_singleton,
    Nat.add_sub_cancel, List.modify_eq_take_drop, List.take_left, List.drop_left]
  rfl

def setPc (fiber : Fiber ν) (pc : WordOffset) : Fiber ν :=
  fiber.modifyTop fun frame => { frame with pc := pc }

/-- Restores the parent of one dynamic lexical environment. -/
def leaveLexicalEnvironment (host : Host) (fiber : Fiber ν) : Except ExecutionError (Fiber ν) :=
  match fiber.lexicalEnvironments.getLast? with
  | none => .error .missingEnvironment
  | some depth =>
    if depth ≠ fiber.frames.len then .error .missingEnvironment
    else
      match fiber.frames.last.bind (·.environment) with
      | none => .error .missingEnvironment
      | some environment =>
        match host.environmentParent environment with
        | .error e => .error e
        | .ok parent =>
          let fiber := fiber.modifyTop fun frame => { frame with environment := parent }
          .ok { fiber with lexicalEnvironments := fiber.lexicalEnvironments.dropLast }

/-- Environments that the running frame has entered. -/
def lexicalDepth (fiber : Fiber ν) : Nat :=
  (fiber.lexicalEnvironments.rtakeWhile (· == fiber.frames.len)).length

def leaveLexicalEnvironments (host : Host) : Nat → Fiber ν → Except ExecutionError (Fiber ν)
  | 0, fiber => .ok fiber
  | count + 1, fiber =>
    match fiber.leaveLexicalEnvironment host with
    | .error e => .error e
    | .ok fiber => leaveLexicalEnvironments host count fiber

/-- Restores the depth that a handler or a jump target has. -/
def restoreLexicalEnvironmentDepth (host : Host) (fiber : Fiber ν) (target : Nat) :
    Except ExecutionError (Fiber ν) :=
  if fiber.lexicalDepth < target then .error .missingEnvironment
  else fiber.leaveLexicalEnvironments host (fiber.lexicalDepth - target)

/-- Saves a completion and activates its finalizer. -/
def enterFinalizer (fiber : Fiber ν) (handlerIndex : Nat) (handler : HandlerEntry)
    (completion : CompletionRecord) : Except ExecutionError (Fiber ν) :=
  match fiber.handlers.tryReserveExact 1 with
  | (false, _) => .error .handlerAllocationFailed
  | (true, handlers) =>
    match fiber.completions.pushRecord completion with
    | (.error e, _) => .error e
    | (.ok (), completions) =>
      let active : ActiveHandler :=
        { handlerIndex := handlerIndex
          frameDepth := fiber.frames.len
          environmentDepth := handler.environmentDepth.toNat }
      .ok (({ fiber with handlers := handlers.push active, completions := completions }).setPc
        handler.handler)

/-- Puts the original throw back when closing an iterator throws, with the offset it goes on
from. -/
def suppressIteratorCloseError (host : Host) (fiber : Fiber ν) (frame : Frame)
    (offset : WordOffset) :
    Except ExecutionError (Option (WordOffset × CompletionRecord × Fiber ν)) :=
  match fiber.handlers.last with
  | none => .ok none
  | some active =>
    if active.frameDepth ≠ fiber.frames.len then .ok none
    else
      match host.activeHandlerEntry frame active.handlerIndex with
      | .error e => .error e
      | .ok handler =>
        if handler.kind ≠ .iteratorClose || !handler.bodyContains offset then .ok none
        else
          match fiber.completions.record frame.completionBase with
          | none => .error .missingCompletionRecord
          | some saved =>
            if saved.kind ≠ .throw then .ok none
            else
              let fiber := { fiber with handlers := fiber.handlers.pop }
              match fiber.completions.restoreRecord frame.completionBase with
              | none => .error .missingCompletionRecord
              | some (completion, completions) =>
                .ok (some (handler.handler, completion,
                  { fiber with completions := completions }))

/-- One round of the loop that drops finalizers that a transfer leaves; `none` at its end. -/
def discardExitedFinalizer (host : Host) (fiber : Fiber ν) (frame : Frame) (offset : WordOffset)
    (completion : CompletionRecord) (candidate : Option HandlerEntry) :
    Except ExecutionError (Option (Fiber ν)) :=
  match fiber.handlers.last with
  | none => .ok none
  | some active =>
    if active.frameDepth ≠ fiber.frames.len then .ok none
    else
      match host.activeHandlerEntry frame active.handlerIndex with
      | .error e => .error e
      | .ok handler =>
        if handler.preserves offset completion candidate then .ok none
        else
          match fiber.completions.restoreRecord frame.completionBase with
          | none => .error .missingCompletionRecord
          | some (_, completions) =>
            .ok (some { fiber with
              handlers := fiber.handlers.pop
              completions := completions })

/-- The loop; every round but the last one pops a handler. -/
def discardExitedFinalizersLoop (host : Host) (frame : Frame) (offset : WordOffset)
    (completion : CompletionRecord) (candidate : Option HandlerEntry) :
    Nat → Fiber ν → Except ExecutionError (Fiber ν)
  | 0, fiber => .ok fiber
  | rounds + 1, fiber =>
    match fiber.discardExitedFinalizer host frame offset completion candidate with
    | .error e => .error e
    | .ok none => .ok fiber
    | .ok (some fiber) =>
      discardExitedFinalizersLoop host frame offset completion candidate rounds fiber

def discardExitedFinalizers (host : Host) (fiber : Fiber ν) (frame : Frame) (offset : WordOffset)
    (completion : CompletionRecord) (candidate : Option HandlerEntry) :
    Except ExecutionError (Fiber ν) :=
  discardExitedFinalizersLoop host frame offset completion candidate (fiber.handlers.len + 1) fiber

end Fiber

/-! ## The dispatch -/

/-- The first half of one pass: the throw is replaced by a saved one and the pass starts again,
or it is routed. -/
inductive DispatchPass (ν : Type) where
  | replaced (completion : CompletionRecord) (origin : WordOffset) (fiber : Fiber ν)
  | routed (fiber : Fiber ν)

def dispatchPass (host : Host) (fiber : Fiber ν) (frame : Frame) (completion : CompletionRecord)
    (offset : WordOffset) : Except ExecutionError (DispatchPass ν) :=
  let fiber := { fiber with
    completions := fiber.completions.discardNativeSuffix frame.completionBase }
  if completion.kind = .throw then
    match fiber.suppressIteratorCloseError host frame offset with
    | .error e => .error e
    | .ok (some (origin, completion, fiber)) => .ok (.replaced completion origin fiber)
    | .ok none => .ok (.routed fiber)
  else .ok (.routed fiber)

/-- How a dispatch leaves the frame or goes on in it. -/
inductive AbruptExit where
  | resumed
  | returns (value : Value)
  | unwinds (value : Value)

/-- The second half of a pass: the handler of the frame is entered, or the completion ends the
search in this frame. -/
def routeAbrupt (host : Host) (fiber : Fiber ν) (frame : Frame) (completion : CompletionRecord)
    (offset : WordOffset) : Except ExecutionError (AbruptExit × Fiber ν) := do
  let handlers ← host.handlers frame
  let found := findAbruptHandler handlers offset completion
  let fiber ← fiber.discardExitedFinalizers host frame offset completion (found.map (·.2))
  match found with
  | some (index, handler) =>
    let fiber ← fiber.restoreLexicalEnvironmentDepth host handler.environmentDepth.toNat
    if handler.kind.isFinalizer then
      let fiber ← fiber.enterFinalizer index handler completion
      .ok (.resumed, fiber)
    else
      match completion.value with
      | none => .error .missingCompletionRecord
      | some value =>
        .ok (.resumed, { fiber.setPc handler.handler with pendingException := some value })
  | none =>
    match completion.kind with
    | .break | .continue =>
      match completion.target with
      | none => .error .missingCompletionRecord
      | some target =>
        let fiber ← fiber.restoreLexicalEnvironmentDepth host completion.targetEnvironmentDepth
        .ok (.resumed, fiber.setPc target)
    | .return =>
      match completion.value with
      | none => .error .missingCompletionRecord
      | some value => .ok (.returns value, fiber)
    | .normal => .error .missingCompletionRecord
    | .throw =>
      match completion.value with
      | none => .error .missingCompletionRecord
      | some value => .ok (.unwinds value, fiber)

/-- The passes over one frame. A pass that starts again has popped a handler, so the rounds
suffice; `none` says that they do not. -/
def dispatchLoop (host : Host) (frame : Frame) :
    Nat → Fiber ν → CompletionRecord → WordOffset →
      Option (Except ExecutionError (AbruptExit × Fiber ν))
  | 0, _, _, _ => none
  | rounds + 1, fiber, completion, offset =>
    match dispatchPass host fiber frame completion offset with
    | .error e => some (.error e)
    | .ok (.replaced completion origin fiber) =>
      dispatchLoop host frame rounds fiber completion origin
    | .ok (.routed fiber) => some (routeAbrupt host fiber frame completion offset)

/-- Routes an abrupt completion through the handlers and finalizers of the running frame. -/
def dispatchAbrupt (host : Host) (fiber : Fiber ν) (completion : CompletionRecord)
    (offset : WordOffset) : Option (Except ExecutionError (AbruptExit × Fiber ν)) :=
  match fiber.frames.last with
  | none => none
  | some frame => dispatchLoop host frame (fiber.handlers.len + 1) fiber completion offset

/-- The normal entry of a finalizer. -/
def enterFinally (host : Host) (fiber : Fiber ν) (offset : WordOffset) :
    Option (Except ExecutionError (Fiber ν)) :=
  match fiber.frames.last with
  | none => none
  | some frame =>
    some (match host.handlers frame with
      | .error e => .error e
      | .ok handlers =>
        match findCoveringFinally handlers offset with
        | none => .error .missingCompletionRecord
        | some (index, handler) => fiber.enterFinalizer index handler (.normal none))

/-- Pops the active finalizer and replays its saved completion. A normal completion goes on
behind the instruction. -/
def resumeCompletion (host : Host) (fiber : Fiber ν) (offset : WordOffset) :
    Option (Except ExecutionError (AbruptExit × Fiber ν)) :=
  match fiber.frames.last with
  | none => none
  | some frame =>
    let fiber := { fiber with
      completions := fiber.completions.discardNativeSuffix frame.completionBase }
    match fiber.handlers.last with
    | none => some (.error .missingCompletionRecord)
    | some active =>
      let fiber := { fiber with handlers := fiber.handlers.pop }
      if active.frameDepth ≠ fiber.frames.len then some (.error .missingCompletionRecord)
      else
        match host.activeHandlerEntry frame active.handlerIndex with
        | .error e => some (.error e)
        | .ok handler =>
          if !handler.bodyContains offset then some (.error .missingCompletionRecord)
          else
            match fiber.completions.restoreRecord frame.completionBase with
            | none => some (.error .missingCompletionRecord)
            | some (completion, completions) =>
              let fiber := { fiber with completions := completions }
              if completion.kind = .normal then some (.ok (.resumed, fiber))
              else dispatchAbrupt host fiber completion offset

/-! ## Closing an iterator -/

/-- A throw is raised at `offset` in the body of the innermost active finalizer of the running
frame, which closes an iterator and has saved `saved`; `below` are the completions under it. -/
structure RaisedWhileClosing (host : Host) (fiber : Fiber ν) (frame : Frame) (offset : WordOffset)
    (handler : HandlerEntry) (saved : CompletionRecord) (below : CompletionStack ν) : Prop where
  running : fiber.frames.last = some frame
  active : ∃ active, fiber.handlers.last = some active ∧ active.frameDepth = fiber.frames.len ∧
    host.activeHandlerEntry frame active.handlerIndex = .ok handler
  kind : handler.kind = .iteratorClose
  inside : handler.bodyContains offset = true
  saved : (fiber.completions.discardNativeSuffix frame.completionBase).restoreRecord
    frame.completionBase = some (saved, below)

/-- The precedence rule: the new throw gives way exactly to a saved throw of the innermost
finalizer, and is routed unchanged otherwise. -/
structure ClosePrecedence (host : Host) (fiber : Fiber ν) (frame : Frame) (offset : WordOffset)
    (handler : HandlerEntry) (saved : CompletionRecord) (below : CompletionStack ν) : Prop where
  pass : ∀ value, dispatchPass host fiber frame (.throw value) offset =
    if saved.kind = .throw then
      .ok (.replaced saved handler.handler
        { fiber with handlers := fiber.handlers.pop, completions := below })
    else
      .ok (.routed { fiber with
        completions := fiber.completions.discardNativeSuffix frame.completionBase })
  dispatch : ∀ value, dispatchAbrupt host fiber (.throw value) offset =
    if saved.kind = .throw then
      dispatchLoop host frame fiber.handlers.len
        { fiber with handlers := fiber.handlers.pop, completions := below } saved handler.handler
    else
      some (routeAbrupt host { fiber with
        completions := fiber.completions.discardNativeSuffix frame.completionBase } frame
          (.throw value) offset)

variable {base : Nat}

theorem CompletionStack.getElem?_withoutNativeSuffix {entries : List (CompletionEntry ν)} (hlen :
    base < (CompletionStack.withoutNativeSuffix base entries).length) :
    (CompletionStack.withoutNativeSuffix base entries)[base]? = entries[base]? := by
  have hinit : CompletionStack.withoutNativeSuffix base entries <+: entries := by
    obtain ⟨suffix, hsuf⟩ := List.rdropWhile_prefix CompletionEntry.isNative (entries.drop base)
    refine ⟨suffix, ?_⟩
    rw [CompletionStack.withoutNativeSuffix, List.append_assoc, hsuf, List.take_append_drop]
  rw [List.getElem?_eq_getElem hlen, hinit.getElem hlen]
  exact (List.getElem?_eq_getElem _).symm

variable {below : CompletionStack ν} {saved : CompletionRecord}

theorem CompletionStack.lt_of_restoreRecord {s : CompletionStack ν} (h : s.restoreRecord base = some
    (saved, below)) : base < s.entries.length := by
  simp only [CompletionStack.restoreRecord] at h
  split_ifs at h with hlen
  exact Nat.lt_of_not_le hlen

/-- What one pass makes of a throw that is raised while an iterator is closed: the first saved
completion of the frame decides, and the last one is restored. -/
theorem dispatchPass_close {host : Host} {fiber : Fiber ν} {frame : Frame} {off : WordOffset}
    {handler : HandlerEntry} (h : RaisedWhileClosing host fiber frame off handler saved below) (val
    : Value) :
    dispatchPass host fiber frame (.throw val) off =
      match fiber.completions.record frame.completionBase with
      | none => .error .missingCompletionRecord
      | some first =>
        if first.kind = .throw then
          .ok (.replaced saved handler.handler
            { fiber with handlers := fiber.handlers.pop, completions := below })
        else
          .ok (.routed { fiber with
            completions := fiber.completions.discardNativeSuffix frame.completionBase }) := by
  obtain ⟨active, hact, hdepth, he⟩ := h.active
  have hfirst : (fiber.completions.discardNativeSuffix frame.completionBase).record
      frame.completionBase = fiber.completions.record frame.completionBase := by
    have hlen := CompletionStack.lt_of_restoreRecord h.saved
    simp only [CompletionStack.record]
    have heq : (fiber.completions.discardNativeSuffix frame.completionBase).entries[
        frame.completionBase]? = fiber.completions.entries[frame.completionBase]? :=
      CompletionStack.getElem?_withoutNativeSuffix hlen
    rw [heq]
  have hsaved := h.saved
  simp only [dispatchPass, CompletionRecord.throw, Fiber.suppressIteratorCloseError,
    hact, hdepth, ne_eq, not_true_eq_false, he, hfirst, h.kind, h.inside,
    decide_false, Bool.not_true, Bool.or_self, Bool.false_eq_true]
  cases fiber.completions.record frame.completionBase with
  | none => rfl
  | some first =>
    by_cases hthrow : first.kind = .throw
    · simp only [hthrow, not_true_eq_false, if_false, if_true, hsaved]
    · simp only [hthrow, not_false_eq_true, if_true, if_false]

/-- The rule holds if and only if the first completion that the frame has saved is a throw
exactly when the last one is. -/
theorem dispatchPass_close_iff {host : Host} {fiber : Fiber ν} {frame : Frame}
    {off : WordOffset} {handler : HandlerEntry} {saved : CompletionRecord}
    {below : CompletionStack ν} (h : RaisedWhileClosing host fiber frame off handler saved below) :
    ClosePrecedence host fiber frame off handler saved below ↔
      ∃ first, fiber.completions.record frame.completionBase = some first ∧
        (first.kind = .throw ↔ saved.kind = .throw) := by
  constructor
  · intro hrule
    have hpass := hrule.pass .undefined
    rw [dispatchPass_close h] at hpass
    cases hfirst : fiber.completions.record frame.completionBase with
    | none =>
      rw [hfirst] at hpass
      simp only at hpass
      split at hpass
      · cases hpass
      · cases hpass
    | some first =>
      rw [hfirst] at hpass
      refine ⟨first, rfl, ?_⟩
      by_cases hthrow : first.kind = .throw
      · by_cases hsaved : saved.kind = .throw
        · exact ⟨fun _ => hsaved, fun _ => hthrow⟩
        · simp only [if_pos hthrow, if_neg hsaved] at hpass
          cases hpass
      · by_cases hsaved : saved.kind = .throw
        · simp only [if_neg hthrow, if_pos hsaved] at hpass
          cases hpass
        · exact ⟨fun heq => absurd heq hthrow, fun heq => absurd heq hsaved⟩
  · rintro ⟨first, hfirst, hiff⟩
    have hpass : ∀ val, dispatchPass host fiber frame (.throw val) off =
        if saved.kind = .throw then
          .ok (.replaced saved handler.handler
            { fiber with handlers := fiber.handlers.pop, completions := below })
        else
          .ok (.routed { fiber with
            completions := fiber.completions.discardNativeSuffix frame.completionBase }) := by
      intro val
      rw [dispatchPass_close h, hfirst]
      by_cases hsaved : saved.kind = .throw
      · simp only [if_pos hsaved, if_pos (hiff.mpr hsaved)]
      · have hthrow : ¬first.kind = .throw := fun heq => hsaved (hiff.mp heq)
        simp only [if_neg hsaved, if_neg hthrow]
    refine ⟨hpass, fun val => ?_⟩
    simp only [dispatchAbrupt, h.running, dispatchLoop, hpass val]
    by_cases hsaved : saved.kind = .throw
    · simp only [if_pos hsaved]
    · simp only [if_neg hsaved]

/-- A finalizer whose body closes an iterator: the inner finalizer is at offset two. -/
def closingHandlers : List HandlerEntry :=
  [{ protectedStart := ⟨0⟩, protectedEnd := ⟨1⟩, handler := ⟨1⟩, handlerEnd := ⟨5⟩
     kind := .finally_, environmentDepth := 0 },
   { protectedStart := ⟨1⟩, protectedEnd := ⟨2⟩, handler := ⟨2⟩, handlerEnd := ⟨4⟩
     kind := .iteratorClose, environmentDepth := 0 }]

def closingFunction : CompiledFunction :=
  { id := ⟨0⟩
    bytecode := ⟨⟨[0xc6, 0xc6, 0, 0xc7, 0xc7, 46]⟩, [true, true, true, true, true, true]⟩
    metadata :=
      { kind := .script, role := .ordinary, strictness := .sloppy
        layout := { maxHandlerDepth := 2, maxCompletionDepth := 2 }
        sourceMap := [], handlers := closingHandlers, suspendPoints := []
        feedbackSites := [], bindingPlan := [], environmentSlots := [] }
    sourceRange := .unavailable }

/-- A host with this code in which nothing has a parent environment. -/
def closingHost : Host :=
  { codes := [{ functions := [closingFunction], realm := 0 }]
    environmentParent := fun _ => .ok none }

/-- The frame of a script. -/
def scriptFrame (pc : WordOffset) : Frame :=
  { code := 0, function := ⟨0⟩, pc := pc, base := 0, environment := none
    returnRegister := none, returnContinuation := false, thisValue := .undefined
    newTarget := .undefined, receiverOrHomeObject := none, strictness := .sloppy
    hasFinally := true, argumentBase := 0, argumentPrefix := none, argumentPrefixOffset := 0
    argumentPrefixCount := 0, argumentCount := 0, handlerBase := 0, completionBase := 0
    callSite := none }

/-- A fiber that runs one script frame with the given finalizers and saved completions. -/
def scriptFiber (pc : WordOffset) (active : List Nat) (saved : List CompletionRecord) :
    Fiber Unit :=
  { frames := { entries := [scriptFrame pc], capacity := 1, allocator := .granting }
    argumentObjects := [none], argumentSources := [none], argumentCallees := [none]
    derivedActivations := .new .granting, baseClassActivations := .new .granting
    lexicalEnvironments := [], evalVarEnvironments := [], registers := .new .granting
    handlers :=
      { entries := active.map fun index =>
          { handlerIndex := index, frameDepth := 1, environmentDepth := 0 }
        capacity := active.length, allocator := .granting }
    completions :=
      { stack :=
          { entries := saved.map .language, capacity := 2, allocator := .granting }
        limit := 100 }
    pendingException := none }

theorem dispatchPass_close_iff_closingHost :
    ClosePrecedence closingHost
      (scriptFiber ⟨2⟩ [0, 1] [.throw (.fromI32 1), .throw (.fromI32 2)]) (scriptFrame ⟨2⟩) ⟨2⟩
      (closingHandlers[1]) (.throw (.fromI32 2))
      (scriptFiber ⟨2⟩ [0, 1] [.throw (.fromI32 1)]).completions := by
  -- both finalizers are active at the first instruction of the inner one
  apply (dispatchPass_close_iff ⟨rfl, ⟨⟨1, 1, 0⟩, rfl, rfl, rfl⟩, rfl, rfl, rfl⟩).mpr
  exact ⟨.throw (.fromI32 1), rfl, Iff.rfl⟩

/-- The outer finalizer has saved a throw and the inner one a normal completion: the new throw
is lost. -/
theorem not_closePrecedence_closingHost :
    ¬ClosePrecedence closingHost
      (scriptFiber ⟨2⟩ [0, 1] [.throw (.fromI32 1), .normal none]) (scriptFrame ⟨2⟩) ⟨2⟩
      (closingHandlers[1]) (.normal none)
      (scriptFiber ⟨2⟩ [0, 1] [.throw (.fromI32 1)]).completions := by
  intro hrule
  have hpass := hrule.pass .undefined
  cases hpass

end TachyonEngine.Vm
