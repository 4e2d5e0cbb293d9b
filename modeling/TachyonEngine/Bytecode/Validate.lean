import TachyonEngine.Bytecode.Metadata

/-!
# Metadata validation

Each table of a function is checked against its verified stream: offsets must be
instruction starts, handler ranges must nest, finalizers must end in
`resumeCompletion`, suspend points must match the suspending instructions, and
dynamic lexical environments must balance. The checks run in the order of the
source; the loops over the stream are instances of `walk`.

The last section says what a passed check guarantees about offsets:
`validateHandlers_entry` and `validateSuspendPoints_entry`.
-/

namespace TachyonEngine.Bytecode

open Lib.MachineWord Lib.CodeStream

/-- Rejects with an error value. -/
def reject {α : Type} (error : ModuleBuildError) : Except BuildFailure α := .error (.rejected error)

/-- Runs a check on every entry, in order. -/
def forAll {α : Type} (check : α → Except BuildFailure Unit) : List α → Except BuildFailure Unit
  | [] => .ok ()
  | entry :: rest => do
      check entry
      forAll check rest

/-- A loop over the instructions of a verified stream. A decode error becomes
the given failure. -/
def scanInstructions {σ : Type} (words : List UInt32) (onDecode : WordOffset → BuildFailure)
    (body : σ → Nat → DecodedInstruction → Except BuildFailure σ) (state : σ) :
    Except BuildFailure σ :=
  walk words.length
    (fun offset => (decodeAt words offset).mapError fun _ => onDecode (WordOffset.new offset))
    DecodedInstruction.length .panicked body words.length 0 state

/-- The decode failure most loops report. -/
def decodeInvariant (function : FunctionId) (offset : WordOffset) : BuildFailure :=
  .rejected (.verifiedBytecodeDecodeInvariant function offset)

/-! ## Ordered offset tables -/

/-- Retained source-map entries are ordered instruction starts with spans inside
the source. -/
def validateSourceMap (function : FunctionId) (bytecode : VerifiedBytecode)
    (sourceLen : UInt32) : Option WordOffset → List SourceMapEntry → Except BuildFailure Unit
  | _, [] => .ok ()
  | previous, entry :: rest =>
    if !bytecode.isInstructionStart entry.offset then
      reject (.sourceMapOffsetNotInstructionStart function entry.offset)
    else if entry.span.start > entry.span.stop ∨ entry.span.stop > sourceLen then
      reject (.sourceMapOutOfBounds function entry.span sourceLen)
    else
      match previous.filter fun previous => entry.offset.index ≤ previous.index with
      | some previous => reject (.sourceMapNotMonotonic function previous entry.offset)
      | none => validateSourceMap function bytecode sourceLen (some entry.offset) rest

/-- Feedback sites have stable ordering and bounds. -/
def validateFeedbackSites (function : FunctionId) (bytecode : VerifiedBytecode)
    (feedbackSlotCount : UInt32) :
    Option WordOffset → List FeedbackSite → Except BuildFailure Unit
  | _, [] => .ok ()
  | previous, site :: rest =>
    if !bytecode.isInstructionStart site.offset then
      reject (.feedbackSiteOffsetNotInstructionStart function site.offset)
    else if site.slot.index ≥ feedbackSlotCount then
      reject (.feedbackSlotOutOfRange function site.slot feedbackSlotCount)
    else
      match previous.filter fun previous => site.offset.index ≤ previous.index with
      | some previous => reject (.feedbackSitesNotMonotonic function previous site.offset)
      | none => validateFeedbackSites function bytecode feedbackSlotCount (some site.offset) rest

/-! ## Exception handlers -/

/-- Nesting depths a handler table reaches. -/
structure HandlerDepth where
  handlers : UInt32 := 0
  finallyHandlers : UInt32 := 0

/-- The instruction that ends exactly at `stop` is a `resumeCompletion`. -/
def finalizerEndsWithResumeFrom (words : List UInt32) (stop : Nat) : Nat → Nat → Bool
  | 0, _ => false
  | fuel + 1, offset =>
    if offset < stop then
      match decodeAt words offset with
      | .error _ => false
      | .ok instruction =>
        if offset + instruction.length = stop then instruction.opcode = .resumeCompletion
        else finalizerEndsWithResumeFrom words stop fuel (offset + instruction.length)
    else false

/-- Confirms a finalizer's exclusive end is the fallthrough after
`resumeCompletion`. -/
def finalizerEndsWithResume (bytecode : VerifiedBytecode) (stop : WordOffset) : Bool :=
  finalizerEndsWithResumeFrom bytecode.bytecode.words stop.index.toNat
    bytecode.bytecode.words.length 0

def handlerContains (outer inner : HandlerEntry) : Bool :=
  outer.protectedStart.index ≤ inner.protectedStart.index &&
    inner.protectedEnd.index ≤ outer.protectedEnd.index

def crossesHandlerRanges (left right : HandlerEntry) : Bool :=
  left.protectedStart.index < right.protectedStart.index &&
    right.protectedStart.index < left.protectedEnd.index &&
    left.protectedEnd.index < right.protectedEnd.index

def finalizerContains (outer inner : HandlerEntry) : Bool :=
  outer.kind.isFinalizer && outer.handler.index ≤ inner.handler.index &&
    inner.handlerEnd.index ≤ outer.handlerEnd.index

def finalizerExecutesAround (outer inner : HandlerEntry) : Bool :=
  outer.kind.isFinalizer && outer.handler.index ≤ inner.protectedStart.index &&
    inner.protectedEnd.index ≤ outer.handlerEnd.index

def crossesFinalizerRanges (left right : HandlerEntry) : Bool :=
  if !left.kind.isFinalizer || !right.kind.isFinalizer then false
  else
    let pair := if left.handler.index ≤ right.handler.index then (left, right) else (right, left)
    pair.1.handler.index < pair.2.handler.index && pair.2.handler.index < pair.1.handlerEnd.index &&
      pair.1.handlerEnd.index < pair.2.handlerEnd.index

/-- A catch has no end of its own; a finalizer has one behind its resume. -/
def handlerKindIsValid (bytecode : VerifiedBytecode) (handler : HandlerEntry) : Bool :=
  match handler.kind with
  | .catch_ => handler.handlerEnd = handler.handler
  | .finally_ | .iteratorClose =>
    handler.handler.index < handler.handlerEnd.index &&
      finalizerEndsWithResume bytecode handler.handlerEnd

/-- Range, boundary and kind checks of one entry. -/
def validateHandler (function : FunctionId) (bytecode : VerifiedBytecode)
    (handler : HandlerEntry) : Except BuildFailure Unit :=
  let codeLen := UInt32.ofNat bytecode.bytecode.words.length
  let startIsValid := bytecode.isInstructionStart handler.protectedStart
  let endIsValid := handler.protectedEnd.index = codeLen ||
    bytecode.isInstructionStart handler.protectedEnd
  let handlerEndIsValid := handler.handlerEnd.index = codeLen ||
    bytecode.isInstructionStart handler.handlerEnd
  if !startIsValid || !endIsValid || !bytecode.isInstructionStart handler.handler ||
      !handlerEndIsValid || !handlerKindIsValid bytecode handler ||
      handler.protectedStart.index ≥ handler.protectedEnd.index then
    reject (.invalidHandlerRange function handler)
  else if handler.protectedStart.index ≤ handler.handler.index ∧
      handler.handler.index < handler.protectedEnd.index then
    reject (.handlerTargetInsideProtectedRange function handler)
  else .ok ()

/-- An entry against one that stands before it in the table. -/
def validateNesting (function : FunctionId) (current previous : HandlerEntry) :
    Except BuildFailure Unit :=
  if previous.protectedStart.index > current.protectedStart.index ||
      (previous.protectedStart = current.protectedStart &&
        previous.protectedEnd.index ≤ current.protectedEnd.index) ||
      crossesHandlerRanges previous current then
    reject (.handlerTableNotProperlyNested function previous current)
  else if crossesFinalizerRanges previous current then
    reject (.handlerTableNotProperlyNested function previous current)
  else .ok ()

/-- The pairwise pass: every entry against the ones before it, with the depth
reached at each. -/
def nestingPass (function : FunctionId) :
    List HandlerEntry → List HandlerEntry → HandlerDepth → Except BuildFailure HandlerDepth
  | _, [], depth => .ok depth
  | before, current :: rest, depth => do
      forAll (validateNesting function current) before
      let reached := UInt32.ofNat
        ((before ++ [current]).countP fun candidate => handlerContains candidate current)
      nestingPass function (before ++ [current]) rest
        { depth with handlers := max depth.handlers reached }

/-- Raises the depths by the finalizers active inside each finalizer. -/
def finalizerDepth (handlers : List HandlerEntry) (depth : HandlerDepth) : HandlerDepth :=
  (handlers.filter fun handler => handler.kind.isFinalizer).foldl (fun depth current =>
      let active := UInt32.ofNat
        (handlers.countP fun candidate => finalizerContains candidate current)
      { handlers := max depth.handlers active
        finallyHandlers := max depth.finallyHandlers active })
    depth

/-- Raises the depth by the finalizers that execute around each range. -/
def protectedDepth (handlers : List HandlerEntry) (depth : HandlerDepth) : HandlerDepth :=
  handlers.foldl (fun depth current =>
      let inner := UInt32.ofNat (handlers.countP fun candidate => handlerContains candidate current)
      let outer := UInt32.ofNat
        (handlers.countP fun candidate => finalizerExecutesAround candidate current)
      { depth with handlers := max depth.handlers (saturatingAdd inner outer) })
    depth

/-- Handler ranges are half-open and refer only to decoded instruction
boundaries in their function. -/
def validateHandlers (function : FunctionId) (handlers : List HandlerEntry)
    (bytecode : VerifiedBytecode) : Except BuildFailure HandlerDepth := do
  forAll (validateHandler function bytecode) handlers
  let depth ← nestingPass function [] handlers {}
  .ok (protectedDepth handlers (finalizerDepth handlers depth))

/-- Whether a completion opcode at `offset` agrees with the finalizer table. -/
def finallyInstructionIsValid (handlers : List HandlerEntry) (environmentDepth : UInt32)
    (offset : Nat) (instruction : DecodedInstruction) : Bool :=
  match instruction.opcode with
  | .enterFinally =>
    handlers.any fun handler =>
      handler.kind.isFinalizer && handler.protectedStart.index.toNat ≤ offset &&
        offset < handler.protectedEnd.index.toNat
  | .resumeCompletion =>
    handlers.any fun handler =>
      handler.kind.isFinalizer && handler.handler.index.toNat ≤ offset &&
        handler.handlerEnd.index.toNat = offset + instruction.length
  | .breakThroughFinally | .continueThroughFinally =>
    let target := (instruction.operands.get 0).toNat
    instruction.operands.get 1 < environmentDepth || handlers.any fun handler =>
        handler.kind.isFinalizer && ((handler.protectedStart.index.toNat ≤ offset &&
              offset < handler.protectedEnd.index.toNat &&
              !(handler.protectedStart.index.toNat ≤ target &&
                target < handler.protectedEnd.index.toNat)) ||
            (handler.handler.index.toNat ≤ offset && offset < handler.handlerEnd.index.toNat &&
              !(handler.handler.index.toNat ≤ target && target < handler.handlerEnd.index.toNat)))
  | _ => true

/-- Cross-validates completion opcodes against immutable finalizer metadata. -/
def validateFinallyInstructions (function : FunctionId) (handlers : List HandlerEntry)
    (bytecode : VerifiedBytecode) : Except BuildFailure Unit := do
  let _ ← scanInstructions bytecode.bytecode.words (fun _ => .panicked)
    (fun environmentDepth offset instruction =>
      if !finallyInstructionIsValid handlers environmentDepth offset instruction then
        reject (.invalidFinallyInstruction function (WordOffset.new offset) instruction.opcode)
      else
        match instruction.opcode with
        | .enterClassEnvironment | .enterLexicalEnvironment =>
          .ok (saturatingAdd environmentDepth 1)
        | .leaveClassEnvironment | .leaveLexicalEnvironment =>
          .ok (saturatingSub environmentDepth 1)
        | _ => .ok environmentDepth)
    (0 : UInt32)
  .ok ()

/-! ## Class instructions and lexical environments -/

def isClassConstructor : FunctionKind → Bool
  | .derivedClassConstructor | .baseClassConstructor => true
  | _ => false

/-- The constructor template a class instruction names must be of its kind. -/
def validateClassTarget (function : FunctionId) (functionKinds : List FunctionKind)
    (offset : Nat) (instruction : DecodedInstruction) : Except BuildFailure Unit :=
  let checkTarget (expected : FunctionKind) : Except BuildFailure Unit :=
    match functionKinds[(instruction.operands.get 1).toNat]? with
    | none => .error .panicked
    | some targetKind =>
      if targetKind ≠ expected then
        reject (.invalidClassConstructorTarget function (WordOffset.new offset)
          ⟨instruction.operands.get 1⟩ targetKind)
      else .ok ()
  match instruction.opcode with
  | .createClass => checkTarget .derivedClassConstructor
  | .createBaseClass => checkTarget .baseClassConstructor
  | _ => .ok ()

/-- Whether a class opcode may stand in a function of this kind and role. -/
def classInstructionIsValid (kind : FunctionKind) (role : FunctionRole) : Opcode → Bool
  | .superConstruct | .superConstructSpread | .superConstructForwardAll | .initializeThis =>
    kind = .derivedClassConstructor
  | .initializeInstanceElements => isClassConstructor kind
  | .loadSuperBase | .getSuperById | .getSuperByValue =>
    role.hasHomeObject || isClassConstructor kind
  | _ => true

/-- Restricts derived-constructor opcodes and class template references. -/
def validateClassInstructions (function : FunctionId) (kind : FunctionKind)
    (role : FunctionRole) (bytecode : VerifiedBytecode) (functionKinds : List FunctionKind) :
    Except BuildFailure Unit :=
  scanInstructions bytecode.bytecode.words (decodeInvariant function) (fun _ offset instruction =>
      if !classInstructionIsValid kind role instruction.opcode then
        reject (.invalidClassInstruction function kind (WordOffset.new offset) instruction.opcode)
      else validateClassTarget function functionKinds offset instruction)
    ()

/-- Environment depths seen by the first environment pass. -/
structure EnvironmentScan where
  depthAt : List (Option UInt32)
  slotCounts : List UInt32
  depth : UInt32

/-- One instruction of the first environment pass. -/
def scanEnvironment (function : FunctionId) (scan : EnvironmentScan) (offset : Nat)
    (instruction : DecodedInstruction) : Except BuildFailure EnvironmentScan :=
  let scan := { scan with depthAt := scan.depthAt.set offset (some scan.depth) }
  match instruction.opcode with
  | .enterClassEnvironment | .enterLexicalEnvironment =>
    match checkedAdd scan.depth 1 with
    | none =>
      reject (.invalidClassEnvironmentDepth function (WordOffset.new offset) maxWord scan.depth)
    | some depth =>
      .ok { scan with slotCounts := instruction.operands.get 0 :: scan.slotCounts, depth }
  | .initializeClassEnvironment | .initializeLexicalEnvironment =>
    match scan.slotCounts with
    | [] => reject (.invalidClassEnvironmentDepth function (WordOffset.new offset) 1 0)
    | slotCount :: _ =>
      if instruction.operands.get 1 ≥ slotCount then
        reject (.classEnvironmentSlotOutOfRange function (WordOffset.new offset)
          (instruction.operands.get 1) slotCount)
      else .ok scan
  | .leaveClassEnvironment | .leaveLexicalEnvironment =>
    match checkedSub scan.depth 1 with
    | none => reject (.invalidClassEnvironmentDepth function (WordOffset.new offset) 1 0)
    | some depth => .ok { scan with slotCounts := scan.slotCounts.tail, depth }
  | _ => .ok scan

/-- Looks up an environment depth; an absent one is a failed `expect`. -/
def environmentDepthAt (depthAt : List (Option UInt32)) (offset : Nat) :
    Except BuildFailure UInt32 :=
  match depthAt[offset]? with
  | some (some depth) => .ok depth
  | _ => .error .panicked

/-- A jump stays at its environment depth; a completion transfer may lower it to
the depth it names. -/
def checkEdgeDepth (function : FunctionId) (depthAt : List (Option UInt32)) (offset : Nat)
    (instruction : DecodedInstruction) : Except BuildFailure Unit :=
  match jumpTarget instruction.opcode instruction.operands with
  | none => .ok ()
  | some target => do
      let sourceDepth ← environmentDepthAt depthAt offset
      let targetDepth ← environmentDepthAt depthAt target.toNat
      let abrupt := instruction.opcode = .breakThroughFinally ∨
        instruction.opcode = .continueThroughFinally
      if abrupt ∧ instruction.operands.get 1 ≠ targetDepth then
        reject (.invalidClassEnvironmentDepth function (WordOffset.new offset) targetDepth
          (instruction.operands.get 1))
      else if (¬ abrupt ∧ sourceDepth ≠ targetDepth) ∨ (abrupt ∧ targetDepth > sourceDepth) then
        reject (.invalidClassEnvironmentDepth function (WordOffset.new offset) sourceDepth
          targetDepth)
      else .ok ()

/-- A handler is entered at the environment depth it records. -/
def checkHandlerDepth (function : FunctionId) (depthAt : List (Option UInt32))
    (handler : HandlerEntry) : Except BuildFailure Unit := do
  let targetDepth ← environmentDepthAt depthAt handler.handler.index.toNat
  if handler.environmentDepth ≠ targetDepth then
    reject (.invalidClassEnvironmentDepth function handler.handler targetDepth
      handler.environmentDepth)
  else .ok ()

/-- Verifies balanced dynamic lexical environments and forbids edges across
their depth. -/
def validateClassEnvironments (function : FunctionId) (handlers : List HandlerEntry)
    (bytecode : VerifiedBytecode) : Except BuildFailure Unit := do
  let words := bytecode.bytecode.words
  let scan ← scanInstructions words (decodeInvariant function) (scanEnvironment function)
    { depthAt := List.replicate (words.length + 1) none, slotCounts := [], depth := 0 }
  let depthAt := scan.depthAt.set words.length (some scan.depth)
  if scan.depth ≠ 0 then
    reject (.invalidClassEnvironmentDepth function (WordOffset.new words.length) 0 scan.depth)
  else do
    scanInstructions words (decodeInvariant function)
      (fun _ offset instruction => checkEdgeDepth function depthAt offset instruction) ()
    forAll (checkHandlerDepth function depthAt) handlers

/-! ## Layout, bindings and environment slots -/

/-- Layout metadata must permit the VM to reserve all function-local windows. -/
def validateFunctionLayout (function : FunctionId) (layout : FunctionLayout)
    (handlerDepth : HandlerDepth) (scopeNameCount : UInt32) : Except BuildFailure Unit :=
  if layout.argumentCount > layout.registerCount ∨
      layout.temporaryRegisterCount > layout.registerCount - layout.argumentCount ∨
      layout.maxHandlerDepth < handlerDepth.handlers ∨
      layout.maxCompletionDepth < handlerDepth.finallyHandlers ∨
      (layout.nameScope.any fun nameScope => nameScope ≥ scopeNameCount) then
    reject (.invalidFunctionLayout function layout)
  else .ok ()

/-- Bounds of one binding's storage. -/
def validateBindingBounds (function : FunctionId) (layout : FunctionLayout)
    (maxEnvironmentSlotCount functionCount : UInt32) (binding : BindingPlanEntry) :
    Except BuildFailure Unit :=
  let slotOutOfRange : Except BuildFailure Unit :=
    reject (.bindingEnvironmentSlotOutOfRange function binding maxEnvironmentSlotCount)
  if binding.name.isEmpty then reject (.emptyBindingName function binding)
  else
    match binding.location with
    | .frameRegister register =>
      if register.index ≥ layout.registerCount then
        reject (.bindingRegisterOutOfRange function binding layout.registerCount)
      else .ok ()
    | .environment _ slot | .classEnvironment _ slot | .lexicalEnvironment _ slot =>
      if slot ≥ maxEnvironmentSlotCount then slotOutOfRange else .ok ()
    | .moduleFunction slot target =>
      if slot ≥ maxEnvironmentSlotCount then slotOutOfRange
      else if target.index ≥ functionCount then
        reject (.bindingFunctionOutOfRange function binding functionCount)
      else .ok ()
    | .moduleCell _ | .globalLexical | .globalProperty | .dynamic => .ok ()

/-- A binding in the function's own environment agrees with the slot it names. -/
def validateBindingSlot (function : FunctionId) (layout : FunctionLayout)
    (environmentSlots : List EnvironmentSlotMetadata) (binding : BindingPlanEntry) :
    Except BuildFailure Unit :=
  let checkOwner (slot : UInt32) : Except BuildFailure Unit :=
    if layout.environmentSlotCount = 0 then .ok ()
    else
      match environmentSlots[slot.toNat]? with
      | none => reject (.environmentSlotBindingMismatch function binding)
      | some owner =>
        if owner.name ≠ binding.name ∨ owner.isMutable ≠ binding.isMutable then
          reject (.environmentSlotBindingMismatch function binding)
        else .ok ()
  match binding.location with
  | .environment depth slot => if depth = 0 then checkOwner slot else .ok ()
  | .moduleFunction slot _ => checkOwner slot
  | _ => .ok ()

/-- Every currently bounded index of a binding plan is verified. -/
def validateBindingPlan (function : FunctionId) (bindings : List BindingPlanEntry)
    (layout : FunctionLayout) (maxEnvironmentSlotCount : UInt32)
    (environmentSlots : List EnvironmentSlotMetadata) (functionCount : UInt32) :
    Except BuildFailure Unit := do
  forAll (validateBindingBounds function layout maxEnvironmentSlotCount functionCount) bindings
  forAll (validateBindingSlot function layout environmentSlots) bindings

/-- Environment owner metadata is an exact dense list indexed by slot. -/
def validateEnvironmentSlots (function : FunctionId) (slots : List EnvironmentSlotMetadata)
    (layout : FunctionLayout) : Except BuildFailure Unit := do
  let actual := (tryFromLength slots.length).getD maxWord
  if actual ≠ layout.environmentSlotCount then
    reject (.environmentSlotMetadataCountMismatch function layout.environmentSlotCount actual)
  else do
    forAll (fun (entry : EnvironmentSlotMetadata × Nat) =>
        if entry.1.name.isEmpty then
          match tryFromLength entry.2 with
          | none => .error .panicked
          | some slot => reject (.emptyEnvironmentSlotName function slot)
        else .ok ())
      slots.zipIdx
    match layout.selfBindingSlot with
    | none => .ok ()
    | some slot =>
      match slots[slot.toNat]? with
      | none => reject (.invalidSelfBindingSlot function slot)
      | some metadata =>
        if metadata.isMutable ∨ ¬ metadata.initialized then
          reject (.invalidSelfBindingSlot function slot)
        else .ok ()

/-! ## Suspend points -/

def isSuspend : Opcode → Bool
  | .await | .yield | .yieldWithKind => true
  | _ => false

def isGenerator : FunctionKind → Bool
  | .generator | .asyncGenerator => true
  | _ => false

/-- Functions in which a suspend opcode may stand. -/
def suspendIsCompatible (kind : FunctionKind) : Opcode → Bool
  | .await => kind = .module || kind = .async || kind = .asyncGenerator
  | .yield | .yieldWithKind => isGenerator kind
  | _ => false

/-- One suspend opcode or initial yield of the stream; the state counts initial
yields. -/
def checkSuspendOpcode (function : FunctionId) (kind : FunctionKind)
    (suspendPoints : List SuspendPoint) (initialYieldCount : UInt32) (offset : Nat)
    (instruction : DecodedInstruction) : Except BuildFailure UInt32 :=
  if isSuspend instruction.opcode then
    if !suspendIsCompatible kind instruction.opcode then
      reject (.suspendInIncompatibleFunction function kind (WordOffset.new offset)
        instruction.opcode)
    else
      let id : SuspendPointId := ⟨instruction.operands.get 2⟩
      if (suspendPoints[id.index.toNat]?).map (fun point => point.id) ≠ some id then
        reject (.suspendPointMissing function (WordOffset.new offset) id)
      else .ok initialYieldCount
  else if instruction.opcode = .initialYield then
    if !isGenerator kind then
      reject (.initialYieldInIncompatibleFunction function kind (WordOffset.new offset))
    else .ok (saturatingAdd initialYieldCount 1)
  else .ok initialYieldCount

/-- Every suspend opcode names metadata with a compatible function kind. -/
def validateSuspendOpcodes (function : FunctionId) (kind : FunctionKind)
    (bytecode : VerifiedBytecode) (suspendPoints : List SuspendPoint) :
    Except BuildFailure Unit := do
  let count ← scanInstructions bytecode.bytecode.words (decodeInvariant function)
    (checkSuspendOpcode function kind suspendPoints) (0 : UInt32)
  if isGenerator kind ∧ count ≠ 1 then
    reject (.invalidInitialYieldCount function kind count)
  else .ok ()

/-- One suspend point against the instruction it names. -/
def validateSuspendPoint (function : FunctionId) (bytecode : VerifiedBytecode)
    (registerCount : UInt32) (entry : SuspendPoint × Nat) : Except BuildFailure Unit :=
  let point := entry.1
  let invalid : Except BuildFailure Unit := reject (.invalidSuspendPoint function point)
  match tryFromLength entry.2 with
  | none => invalid
  | some index =>
    if point.id ≠ ⟨index⟩ then reject (.suspendPointIdMismatch function ⟨index⟩ point.id)
    else if !bytecode.isInstructionStart point.instruction ||
        !bytecode.isInstructionStart point.resumeOffset ||
        point.destination.index ≥ registerCount then invalid
    else
      match decodeInstruction bytecode.bytecode.words point.instruction with
      | .error _ => .error (decodeInvariant function point.instruction)
      | .ok instruction =>
        if !isSuspend instruction.opcode || instruction.operands.get 1 ≠ point.destination.index ||
            instruction.operands.get 2 ≠ point.id.index ||
            point.resumeOffset.index ≠
              point.instruction.index + instruction.wordLen.toUInt32 then invalid
        else .ok ()

/-- Suspend metadata gives a resumed frame enough information to restore state
without replaying bytecode. -/
def validateSuspendPoints (function : FunctionId) (suspendPoints : List SuspendPoint)
    (bytecode : VerifiedBytecode) (registerCount : UInt32) (kind : FunctionKind) :
    Except BuildFailure Unit := do
  forAll (validateSuspendPoint function bytecode registerCount) suspendPoints.zipIdx
  validateSuspendOpcodes function kind bytecode suspendPoints

/-! ## What passed checks guarantee about offsets -/

theorem forAll_ok {α : Type} {check : α → Except BuildFailure Unit} {entries : List α}
    (h : forAll check entries = .ok ()) : ∀ ent ∈ entries, check ent = .ok () := by
  induction entries with
  | nil =>
    intro ent hm
    cases hm
  | cons first rest ih =>
    obtain ⟨hfirst, hrest⟩ := andThen_ok h
    intro ent hm
    rcases List.mem_cons.mp hm with rfl | hm
    · exact hfirst
    · exact ih hrest ent hm

/-- A finalizer end found by the scan stands right behind a `resumeCompletion` of
the trace. -/
theorem finalizerEndsWithResumeFrom_mem {words : List UInt32} {stop fuel off : Nat}
    {trace : List (Nat × DecodedInstruction)} (hsm : words.length < 2 ^ 32)
    (hoff : off ≤ words.length) (htr : InstructionTrace words off trace)
    (h : finalizerEndsWithResumeFrom words stop fuel off = true) :
    ∃ resume instr, (resume, instr) ∈ trace ∧
      instr.opcode = .resumeCompletion ∧ resume + instr.length = stop := by
  induction fuel generalizing off trace with
  | zero => cases h
  | succ fuel ih =>
    simp only [finalizerEndsWithResumeFrom] at h
    split at h
    · cases hdec : decodeAt words off with
      | error e => rw [hdec] at h; cases h
      | ok instr =>
        rw [hdec] at h
        simp only at h
        obtain ⟨hpos, -, hextent⟩ := decodeAt_extent (by omega) hdec
        cases htr with
        | done hend => omega
        | step hin hdec' hrest =>
          rw [decodeOption_eq_some.mpr hdec] at hdec'
          cases hdec'
          split at h
          next hstop =>
            exact ⟨off, instr, List.mem_cons_self, by simpa using h, hstop⟩
          · obtain ⟨resume, found, hm, hop, hstop⟩ := ih hextent hrest h
            exact ⟨resume, found, List.mem_cons_of_mem _ hm, hop, hstop⟩
    · cases h

variable {fn : FunctionId} {bytecode : VerifiedBytecode}

/-- A validated handler targets an instruction start, and a finalizer's end is
the end of a `resumeCompletion`. -/
theorem validateHandlers_entry {handlers : List HandlerEntry} {depth : HandlerDepth} (h :
    validateHandlers fn handlers bytecode = .ok depth) {handler : HandlerEntry} (hm : handler ∈
    handlers) : bytecode.isInstructionStart handler.handler = true ∧
      (handler.kind.isFinalizer = true →
        finalizerEndsWithResume bytecode handler.handlerEnd = true) := by
  have hall : forAll (validateHandler fn bytecode) handlers = .ok () := by
    cases hforall : forAll (validateHandler fn bytecode) handlers with
    | error e => rw [validateHandlers, hforall] at h; cases h
    | ok u => rfl
  have he := forAll_ok hall handler hm
  simp only [validateHandler] at he
  split at he
  · cases he
  next hval =>
    simp only [Bool.or_eq_true, Bool.not_eq_true', not_or, Bool.not_eq_false] at hval
    obtain ⟨⟨⟨⟨⟨-, -⟩, hst⟩, -⟩, hkd⟩, -⟩ := hval
    refine ⟨hst, fun hfin => ?_⟩
    cases hk : handler.kind with
    | catch_ => rw [hk] at hfin; cases hfin
    | finally_ | iteratorClose =>
      simp only [handlerKindIsValid, hk, Bool.and_eq_true] at hkd
      exact hkd.2

/-- A validated suspend point resumes at an instruction start. -/
theorem validateSuspendPoints_entry {points : List SuspendPoint} {registerCount : UInt32} {kind :
    FunctionKind} (h : validateSuspendPoints fn points bytecode registerCount kind = .ok ()) {point
    : SuspendPoint} (hm : point ∈ points) :
    bytecode.isInstructionStart point.resumeOffset = true := by
  obtain ⟨hall, -⟩ := andThen_ok h
  obtain ⟨idx, hi, rfl⟩ := List.getElem_of_mem hm
  have hzip : (points[idx], idx) ∈ points.zipIdx := by
    rw [List.mem_zipIdx_iff_getElem?]
    exact List.getElem?_eq_getElem hi
  have he := forAll_ok hall _ hzip
  simp only [validateSuspendPoint] at he
  split at he
  · cases he
  · split at he
    · cases he
    · split_ifs at he with hval
      · cases he
      · simp only [Bool.or_eq_true, Bool.not_eq_true', not_or, Bool.not_eq_false] at hval
        exact hval.1.2

end TachyonEngine.Bytecode
