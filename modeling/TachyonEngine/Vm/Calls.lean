import TachyonEngine.Vm.Abrupt

/-!
# Calls and returns

`pushCallFrame` opens the frame of a callee, `returnFromCallee` closes it and `unwindFrame` drops
it when a throw leaves it. Each of them moves the frames, three side stacks with one entry a
frame, two sparse activation stacks, the register file, the handlers, the completions and the
active realm. An operation that fails keeps the state it has reached, so a result is an answer
together with the state after it.

What these functions ask of the heap is a `CallHeap`: any answers, failures included.
-/

namespace TachyonEngine.Vm

open Bytecode
open Gc (RawHeapRef)

variable {ν : Type}

/-! ## Call targets and call sites -/

structure StackLimits where
  maxFrames : Nat
  maxRegisters : Nat

/-- A callable with the metadata of its function. -/
structure ResolvedCallTarget where
  code : Nat
  function : FunctionId
  environment : Option RawHeapRef
  kind : FunctionKind
  role : FunctionRole
  layout : FunctionLayout
  strictness : FunctionStrictness

structure CallSite where
  destination : Nat
  callee : Value
  argumentBase : Nat
  argumentSource : Option RawHeapRef
  argumentPrefix : Option RawHeapRef
  argumentPrefixOffset : Nat
  argumentPrefixCount : Nat
  argumentCount : Nat
  thisValue : Value
  newTarget : Value
  constructReceiver : Option Value
  callSite : WordOffset

/-- The answers of the heap to a call or a return. -/
structure CallHeap where
  boundFunctionArgument : RawHeapRef → Nat → Except ExecutionError Value
  nativeCallArgument : RawHeapRef → Nat → Except ExecutionError (Option Value)
  isObjectValue : Value → Bool
  globalObject : Nat → Value
  boxObjectPrimitive : Value → Except ExecutionError Value
  homeObject : RawHeapRef → Except ExecutionError Value
  allocateActivationEnvironment :
    FunctionKind → Option RawHeapRef → Nat → FunctionId → UInt32 → Option (UInt32 × Value) →
      Except ExecutionError RawHeapRef
  detachMappedArguments : Value → Except ExecutionError Unit

/-- The part of the isolate that calls change, next to its limits. -/
structure Isolate (ν : Type) where
  stackLimits : StackLimits
  fiber : Fiber ν
  activeRealm : Nat
  inactiveRealms : List Nat

/-- `swap_remove`: the last entry takes the place of the removed one. -/
def swapRemove (realms : List Nat) (position : Nat) : List Nat :=
  match realms.getLast? with
  | none => []
  | some last => (realms.set position last).dropLast

/-- Switches the realm and keeps the fiber. -/
def Isolate.activateRealmForFrame (isolate : Isolate ν) (realm : Nat) :
    Except ExecutionError Unit × Isolate ν :=
  if realm = isolate.activeRealm then (.ok (), isolate)
  else
    match isolate.inactiveRealms.findIdx? (· == realm) with
    | none => (.error .realmLimit, isolate)
    | some position =>
      (.ok (),
        { isolate with
          activeRealm := realm
          inactiveRealms := swapRemove isolate.inactiveRealms position ++ [isolate.activeRealm] })

/-! ## Reserving the callee's state -/

namespace Fiber

/-- Reservations in order; the first failure ends them. -/
def inOrder : List (Fiber ν → Except ExecutionError Unit × Fiber ν) →
    Fiber ν → Except ExecutionError Unit × Fiber ν
  | [], fiber => (.ok (), fiber)
  | reserve :: rest, fiber =>
    match reserve fiber with
    | (.error e, fiber) => (.error e, fiber)
    | (.ok (), fiber) => inOrder rest fiber

/-- Reserves room on one stack when it is needed. -/
def reserveOn {α : Type} (needed : Bool) (stack : Stack α) (additional : Nat)
    (failure : ExecutionError) (replace : Stack α → Fiber ν) (fiber : Fiber ν) :
    Except ExecutionError Unit × Fiber ν :=
  if needed then
    match stack.tryReserveExact additional with
    | (true, stack) => (.ok (), replace stack)
    | (false, stack) => (.error failure, replace stack)
  else (.ok (), fiber)

def reserveFrame (fiber : Fiber ν) : Except ExecutionError Unit × Fiber ν :=
  reserveOn (fiber.frames.len = fiber.frames.capacity) fiber.frames 1 .frameAllocationFailed
    (fun frames => { fiber with frames := frames }) fiber

def reserveDerivedActivation (kind : FunctionKind) (fiber : Fiber ν) :
    Except ExecutionError Unit × Fiber ν :=
  reserveOn (kind = .derivedClassConstructor) fiber.derivedActivations 1 .frameAllocationFailed
    (fun activations => { fiber with derivedActivations := activations }) fiber

def reserveBaseClassActivation (kind : FunctionKind) (fiber : Fiber ν) :
    Except ExecutionError Unit × Fiber ν :=
  reserveOn (kind = .baseClassConstructor) fiber.baseClassActivations 1 .frameAllocationFailed
    (fun activations => { fiber with baseClassActivations := activations }) fiber

def reserveHandlers (depth : Nat) (fiber : Fiber ν) : Except ExecutionError Unit × Fiber ν :=
  reserveOn (depth ≠ 0 ∧ fiber.handlers.capacity - fiber.handlers.len < depth) fiber.handlers depth
    .handlerAllocationFailed (fun handlers => { fiber with handlers := handlers }) fiber

def reserveCompletions (depth : Nat) (fiber : Fiber ν) : Except ExecutionError Unit × Fiber ν :=
  if depth ≠ 0 then
    match fiber.completions.reserve depth with
    | (answer, completions) => (answer, { fiber with completions := completions })
  else (.ok (), fiber)

def reserveRegisters (additional : Nat) (fiber : Fiber ν) : Except ExecutionError Unit × Fiber ν :=
  reserveOn (fiber.registers.capacity - fiber.registers.len < additional) fiber.registers additional
    .registerAllocationFailed (fun registers => { fiber with registers := registers }) fiber

/-- The checks and the reservations of a call; nothing is pushed yet. -/
def reserveCallee (limits : StackLimits) (target : ResolvedCallTarget) (fiber : Fiber ν) :
    Except ExecutionError Unit × Fiber ν :=
  let registerCount := target.layout.registerCount.toNat
  let requested := fiber.registers.len + registerCount
  if limits.maxFrames ≤ fiber.frames.len then (.error (.callStackLimit limits.maxFrames), fiber)
  else if 2 ^ 32 ≤ requested then (.error (.registerWindowTooLarge registerCount), fiber)
  else if limits.maxRegisters < requested then
    (.error (.registerStackLimit limits.maxRegisters requested), fiber)
  else
    inOrder [reserveFrame, reserveDerivedActivation target.kind,
        reserveBaseClassActivation target.kind,
        reserveHandlers target.layout.maxHandlerDepth.toNat,
        reserveCompletions target.layout.maxCompletionDepth.toNat,
        reserveRegisters registerCount] fiber

/-! ## Arguments -/

/-- `Vec::resize` of the register file for a new window. -/
def growRegisters (additional : Nat) (fiber : Fiber ν) : Fiber ν :=
  { fiber with registers := { fiber.registers with
      entries := fiber.registers.entries ++ List.replicate additional .undefined } }

def write (base register : Nat) (value : Value) (fiber : Fiber ν) :
    Except ExecutionError Unit × Fiber ν :=
  if base + register < fiber.registers.len then
    (.ok (), { fiber with registers := { fiber.registers with
      entries := fiber.registers.entries.set (base + register) value } })
  else (.error (.invalidRegister register), fiber)

/-- The argument at an index below the count of the site. -/
def positionalArgument (heap : CallHeap) (site : CallSite) (index : Nat) (fiber : Fiber ν) :
    Except ExecutionError Value :=
  if index < site.argumentPrefixCount then
    match site.argumentPrefix with
    | none => .error .boundArgumentCountOverflow
    | some data =>
      if 2 ^ 32 ≤ site.argumentPrefixOffset + index then .error .boundArgumentCountOverflow
      else heap.boundFunctionArgument data (site.argumentPrefixOffset + index)
  else
    let suffixIndex := index - site.argumentPrefixCount
    match site.argumentSource with
    | some source =>
      match heap.nativeCallArgument source suffixIndex with
      | .error e => .error e
      | .ok none => .error (.invalidRegister suffixIndex)
      | .ok (some value) => .ok value
    | none =>
      if 2 ^ 32 ≤ site.argumentBase + suffixIndex then
        .error (.registerWindowTooLarge site.argumentCount)
      else
        match fiber.registers.entries[site.argumentBase + suffixIndex]? with
        | none => .error (.invalidRegister suffixIndex)
        | some value => .ok value

def callArgument (heap : CallHeap) (site : CallSite) (index : Nat) (fiber : Fiber ν) :
    Except ExecutionError (Option Value) :=
  if site.argumentCount ≤ index then .ok none
  else (fiber.positionalArgument heap site index).map some

/-- Copies the arguments at the indices into the window; all of them are below the count of the
site. -/
def copyArguments (heap : CallHeap) (site : CallSite) (calleeBase : Nat) :
    List Nat → Fiber ν → Except ExecutionError Unit × Fiber ν
  | [], fiber => (.ok (), fiber)
  | index :: rest, fiber =>
    match fiber.positionalArgument heap site index with
    | .error e => (.error e, fiber)
    | .ok value =>
      match fiber.write calleeBase index value with
      | (.error e, fiber) => (.error e, fiber)
      | (.ok (), fiber) => copyArguments heap site calleeBase rest fiber

end Fiber

/-! ## Opening a frame -/

namespace CallHeap

def coerceToObject (heap : CallHeap) (value : Value) : Except ExecutionError Value :=
  if heap.isObjectValue value then .ok value
  else if value.asImmediate = some .undefined ∨ value.asImmediate = some .null then
    .error (.notObject value)
  else heap.boxObjectPrimitive value

def bindOrdinaryThis (heap : CallHeap) (realm : Nat) (strictness : FunctionStrictness)
    (thisArgument : Value) : Except ExecutionError Value :=
  if strictness = .strict ∨ heap.isObjectValue thisArgument then .ok thisArgument
  else if thisArgument.asImmediate = some .undefined ∨ thisArgument.asImmediate = some .null then
    .ok (heap.globalObject realm)
  else heap.coerceToObject thisArgument

def functionHomeObject (heap : CallHeap) (function : Value) : Except ExecutionError Value :=
  match function.asHeapRef with
  | none => .error (.nonCallable function)
  | some reference => heap.homeObject reference

/-- The receiver or the home object of the new frame. -/
def receiverOrHomeObject (heap : CallHeap) (target : ResolvedCallTarget) (site : CallSite) :
    Except ExecutionError (Option Value) :=
  if target.role.hasHomeObject then (heap.functionHomeObject site.callee).map some
  else .ok site.constructReceiver

end CallHeap

namespace Isolate

/-- Grows the register file, copies the arguments, switches the realm and resolves the receiver.
None of the failures undoes what went before. -/
def openCallee (host : Host) (heap : CallHeap) (target : ResolvedCallTarget) (site : CallSite)
    (isolate : Isolate ν) : Except ExecutionError (Value × Option Value) × Isolate ν :=
  let calleeBase := isolate.fiber.registers.len
  let fiber := isolate.fiber.growRegisters target.layout.registerCount.toNat
  let copiedArguments := min site.argumentCount target.layout.argumentCount.toNat
  match fiber.copyArguments heap site calleeBase (List.range copiedArguments) with
  | (.error e, fiber) => (.error e, { isolate with fiber := fiber })
  | (.ok (), fiber) =>
    let isolate := { isolate with fiber := fiber }
    match host.loadedCode target.code with
    | .error e => (.error e, isolate)
    | .ok loaded =>
      match isolate.activateRealmForFrame loaded.realm with
      | (.error e, isolate) => (.error e, isolate)
      | (.ok (), isolate) =>
        match heap.bindOrdinaryThis isolate.activeRealm target.strictness site.thisValue with
        | .error e => (.error e, isolate)
        | .ok thisValue =>
          match heap.receiverOrHomeObject target site with
          | .error e => (.error e, isolate)
          | .ok receiver => (.ok (thisValue, receiver), isolate)

end Isolate

/-- The frame of a call. -/
def calleeFrame (target : ResolvedCallTarget) (site : CallSite) (calleeBase : Nat)
    (thisValue : Value) (receiver : Option Value) (fiber : Fiber ν) : Frame :=
  { code := target.code
    function := target.function
    pc := ⟨0⟩
    base := calleeBase
    environment := target.environment
    returnRegister := some site.destination
    returnContinuation := false
    thisValue :=
      if target.kind = .derivedClassConstructor then .fromImmediate .uninitialized else thisValue
    newTarget := site.newTarget
    receiverOrHomeObject := receiver
    strictness := target.strictness
    hasFinally := target.layout.maxCompletionDepth ≠ 0
    argumentBase := site.argumentBase
    argumentPrefix := site.argumentPrefix
    argumentPrefixOffset := site.argumentPrefixOffset
    argumentPrefixCount := site.argumentPrefixCount
    argumentCount := site.argumentCount
    handlerBase := fiber.handlers.len
    completionBase := fiber.completions.len
    callSite := some site.callSite }

namespace Fiber

/-- The pushes of a call: the frame, its entry on the three side stacks and its activation. -/
def pushFrame (target : ResolvedCallTarget) (site : CallSite) (frame : Frame) (fiber : Fiber ν) :
    Fiber ν :=
  let activation : ClassActivation :=
    { frameDepth := fiber.frames.len + 1, function := site.callee }
  { fiber with
    frames := fiber.frames.push frame
    argumentObjects := fiber.argumentObjects ++ [none]
    argumentSources := fiber.argumentSources ++ [site.argumentSource]
    argumentCallees := fiber.argumentCallees ++ [some site.callee]
    derivedActivations :=
      if target.kind = .derivedClassConstructor then fiber.derivedActivations.push activation
      else fiber.derivedActivations
    baseClassActivations :=
      if target.kind = .baseClassConstructor then fiber.baseClassActivations.push activation
      else fiber.baseClassActivations }

/-- Drops the environments of frames that have left the fiber. -/
def discardExitedLexicalEnvironments (fiber : Fiber ν) : Fiber ν :=
  { fiber with
    lexicalEnvironments :=
      fiber.lexicalEnvironments.rdropWhile fun depth => decide (fiber.frames.len < depth)
    evalVarEnvironments :=
      fiber.evalVarEnvironments.rdropWhile fun entry => decide (fiber.frames.len < entry.1) }

/-- Pops the frame with its environments and its entries on the three side stacks. -/
def popFrame (fiber : Fiber ν) : Fiber ν :=
  let fiber := { fiber with frames := fiber.frames.pop }.discardExitedLexicalEnvironments
  { fiber with
    argumentObjects := fiber.argumentObjects.dropLast
    argumentSources := fiber.argumentSources.dropLast
    argumentCallees := fiber.argumentCallees.dropLast }

end Fiber

/-- Pops the activation of a frame that is no longer there. -/
def Stack.popExited (activations : Stack ClassActivation) (frames : Nat) : Stack ClassActivation :=
  if activations.last.any fun activation => decide (frames < activation.frameDepth) then
    activations.pop
  else activations

namespace Fiber

def popExitedDerived (fiber : Fiber ν) : Fiber ν :=
  { fiber with derivedActivations := fiber.derivedActivations.popExited fiber.frames.len }

def popExitedBaseClass (fiber : Fiber ν) : Fiber ν :=
  { fiber with baseClassActivations := fiber.baseClassActivations.popExited fiber.frames.len }

end Fiber

namespace Isolate

/-- Allocates the environment of the new frame. -/
def allocateCurrentEnvironment (heap : CallHeap) (target : ResolvedCallTarget) (site : CallSite)
    (fiber : Fiber ν) : Except ExecutionError (Fiber ν) :=
  if target.layout.environmentSlotCount = 0 then .ok fiber
  else
    match fiber.frames.last with
    | none => .ok fiber
    | some frame =>
      match heap.allocateActivationEnvironment target.kind frame.environment frame.code
          frame.function target.layout.environmentSlotCount
          (target.layout.selfBindingSlot.map fun slot => (slot, site.callee)) with
      | .error e => .error e
      | .ok environment =>
        .ok (fiber.modifyTop fun frame => { frame with environment := some environment })

def pushCallFrame (host : Host) (heap : CallHeap) (target : ResolvedCallTarget) (site : CallSite)
    (isolate : Isolate ν) : Except ExecutionError Unit × Isolate ν :=
  match isolate.fiber.reserveCallee isolate.stackLimits target with
  | (.error e, fiber) => (.error e, { isolate with fiber := fiber })
  | (.ok (), fiber) =>
    let calleeBase := fiber.registers.len
    match ({ isolate with fiber := fiber }).openCallee host heap target site with
    | (.error e, isolate) => (.error e, isolate)
    | (.ok (thisValue, receiver), isolate) =>
      let frame := calleeFrame target site calleeBase thisValue receiver isolate.fiber
      let pushed := isolate.fiber.pushFrame target site frame
      match allocateCurrentEnvironment heap target site pushed with
      | .ok fiber => (.ok (), { isolate with fiber := fiber })
      | .error e =>
        -- the only failure that takes back what the call has done; the realm stays
        let fiber := pushed.popFrame.popExitedDerived.popExitedBaseClass
        (.error e, { isolate with fiber :=
          { fiber with registers := fiber.registers.truncate calleeBase } })

/-! ## Leaving a frame -/

/-- How a return goes on. -/
inductive ReturnExit (ν : Type) where
  | resumed
  | throws (error : ExecutionError) (callSite : WordOffset)
  | resumes (continuation : ν) (value : Value)

/-- The value of a derived constructor, or the error its return is. -/
def derivedReturn (heap : CallHeap) (frame : Frame) (value : Value) :
    Value × Option ExecutionError :=
  if heap.isObjectValue value then (value, none)
  else if value.asImmediate = some .undefined then
    if frame.thisValue.asImmediate = some .uninitialized then (.undefined, some .uninitializedThis)
    else (frame.thisValue, none)
  else (.undefined, some (.invalidDerivedConstructorReturn value))

/-- Snapshots the arguments object of the frame before its window goes. -/
def detachArguments (heap : CallHeap) (fiber : Fiber ν) : Except ExecutionError Unit :=
  match fiber.argumentObjects.getLast?.join with
  | none => .ok ()
  | some arguments => heap.detachMappedArguments arguments

/-- Truncates the register file and the handlers to the bases of a frame. -/
def truncateWindow (frame : Frame) (fiber : Fiber ν) : Fiber ν :=
  { fiber with
    registers := fiber.registers.truncate frame.base
    handlers := fiber.handlers.truncate frame.handlerBase }

/-- Pops the trampoline that a frame returns to, when it returns to one. -/
def popContinuation (frame : Frame) (fiber : Fiber ν) :
    Except ExecutionError (Option ν × Fiber ν) :=
  if frame.returnContinuation then
    match fiber.completions.popNative with
    | none => .error .missingNativeContinuation
    | some (continuation, completions) =>
      .ok (some continuation, { fiber with completions := completions })
  else .ok (none, fiber)

def truncateCompletions (frame : Frame) (fiber : Fiber ν) : Fiber ν :=
  { fiber with completions := fiber.completions.truncate frame.completionBase }

/-- Activates the realm of the frame that is on top now. -/
def restoreCallerRealm (host : Host) (isolate : Isolate ν) :
    Except ExecutionError Unit × Isolate ν :=
  match isolate.fiber.frames.last with
  | none => (.ok (), isolate)
  | some caller =>
    match host.loadedCode caller.code with
    | .error e => (.error e, isolate)
    | .ok loaded => isolate.activateRealmForFrame loaded.realm

/-- How a return whose frame is gone goes on; `none` stands for a panic. -/
def continueReturn (frame : Frame) (continuation : Option ν) (returnError : Option ExecutionError)
    (value : Value) (isolate : Isolate ν) :
    Option (Except ExecutionError (ReturnExit ν) × Isolate ν) :=
  match returnError with
  | some error => frame.callSite.map fun callSite => (.ok (.throws error callSite), isolate)
  | none =>
    match continuation with
    | some continuation => some (.ok (.resumes continuation value), isolate)
    | none =>
      match frame.returnRegister, isolate.fiber.frames.last with
      | some destination, some caller =>
        match isolate.fiber.write caller.base destination value with
        | (.error e, fiber) => some (.error e, { isolate with fiber := fiber })
        | (.ok (), fiber) => some (.ok .resumed, { isolate with fiber := fiber })
      | _, _ => none

/-- Pops a frame and restores the state of its caller. -/
def returnFromCallee (host : Host) (heap : CallHeap) (value : Value) (isolate : Isolate ν) :
    Option (Except ExecutionError (ReturnExit ν) × Isolate ν) :=
  match isolate.fiber.frames.last with
  | none => none
  | some frame =>
    let derived := isolate.fiber.derivedActivations.last.any fun activation =>
      decide (activation.frameDepth = isolate.fiber.frames.len)
    let (value, returnError) := if derived then derivedReturn heap frame value else (value, none)
    match detachArguments heap isolate.fiber with
    | .error e => some (.error e, isolate)
    | .ok () =>
      let fiber := isolate.fiber.popFrame
      let fiber :=
        if derived then { fiber with derivedActivations := fiber.derivedActivations.pop }
        else fiber
      let fiber := truncateWindow frame fiber.popExitedBaseClass
      let value :=
        match frame.receiverOrHomeObject with
        | some receiver =>
          if frame.newTarget.asImmediate ≠ some .undefined ∧ !heap.isObjectValue value then
            receiver
          else value
        | none => value
      match popContinuation frame fiber with
      | .error e => some (.error e, { isolate with fiber := fiber })
      | .ok (continuation, fiber) =>
        match ({ isolate with fiber := truncateCompletions frame fiber }).restoreCallerRealm
            host with
        | (.error e, isolate) => some (.error e, isolate)
        | (.ok (), isolate) => continueReturn frame continuation returnError value isolate

/-- How a throw that no handler of the frame takes goes on. -/
inductive UnwindExit (ν : Type) where
  | unhandled
  | unwound (continuation : Option ν)

/-- The frame unwinding of `dispatchAbrupt`. The realm stays. -/
def unwindFrame (heap : CallHeap) (isolate : Isolate ν) :
    Option (Except ExecutionError (UnwindExit ν) × Isolate ν) :=
  match isolate.fiber.frames.last with
  | none => none
  | some frame =>
    if isolate.fiber.frames.len = 1 ∧ frame.returnContinuation = false then
      some (.ok .unhandled, isolate)
    else
      match detachArguments heap isolate.fiber with
      | .error e => some (.error e, isolate)
      | .ok () =>
        let fiber := isolate.fiber.popFrame.popExitedDerived.popExitedBaseClass
        let fiber := truncateCompletions frame (truncateWindow frame fiber)
        match popContinuation frame fiber with
        | .error e => some (.error e, { isolate with fiber := fiber })
        | .ok (continuation, fiber) =>
          some (.ok (.unwound continuation), { isolate with fiber := fiber })

end Isolate

end TachyonEngine.Vm
