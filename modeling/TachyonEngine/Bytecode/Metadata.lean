import TachyonEngine.Bytecode.Verify

/-!
# Function metadata of a compiled module

The tables a compiled function carries beside its word stream (exception
handlers, suspend points, source map, feedback sites, binding plan, environment
slots, register layout), the templates the compiler submits, and the errors with
which a module is rejected.
-/

namespace TachyonEngine.Bytecode

/-- The unwind behaviour required when an abrupt completion reaches a protected
range. -/
inductive HandlerKind where
  | catch_
  | finally_
  | iteratorClose
  deriving DecidableEq

/-- Whether the handler owns a saved completion and ends in a resume. -/
def HandlerKind.isFinalizer : HandlerKind → Bool
  | .finally_ | .iteratorClose => true
  | .catch_ => false

/-- An exception handler range in word offsets of one function. For a catch
handler `handlerEnd` repeats `handler`; for a finalizer it is its exclusive
end. -/
structure HandlerEntry where
  protectedStart : WordOffset
  protectedEnd : WordOffset
  handler : WordOffset
  handlerEnd : WordOffset
  kind : HandlerKind
  environmentDepth : UInt32
  deriving DecidableEq

inductive FunctionKind where
  | script
  | module
  | ordinary
  | derivedClassConstructor
  | baseClassConstructor
  | generator
  | async
  | asyncGenerator
  deriving DecidableEq

/-- Source-level role orthogonal to the execution kind. -/
inductive FunctionRole where
  | ordinary
  | method
  | classFieldInitializer
  deriving DecidableEq

def FunctionRole.hasHomeObject : FunctionRole → Bool
  | .method | .classFieldInitializer => true
  | .ordinary => false

/-- Metadata combinations that can arise from source lowering. -/
def FunctionRole.isValidFor (role : FunctionRole) (kind : FunctionKind) : Bool :=
  match role with
  | .ordinary => true
  | .method =>
    match kind with
    | .ordinary | .generator | .async | .asyncGenerator => true
    | _ => false
  | .classFieldInitializer => kind = .ordinary

inductive FunctionStrictness where
  | sloppy
  | strict
  deriving DecidableEq

/-- Index of a suspend point in its function. -/
structure SuspendPointId where
  index : UInt32
  deriving DecidableEq

/-- Where and how a suspended generator or async frame resumes. -/
structure SuspendPoint where
  id : SuspendPointId
  instruction : WordOffset
  resumeOffset : WordOffset
  destination : RegisterId
  completionDepth : UInt32

structure FeedbackSite where
  offset : WordOffset
  slot : FeedbackSlot

structure SourceSpan where
  start : UInt32
  stop : UInt32

structure SourceMapEntry where
  offset : WordOffset
  span : SourceSpan

/-- The storage class selected for one source binding. -/
inductive BindingLocation where
  | frameRegister (register : RegisterId)
  | environment (depth slot : UInt32)
  | classEnvironment (depth slot : UInt32)
  | lexicalEnvironment (depth slot : UInt32)
  | moduleCell (slot : UInt32)
  | moduleFunction (slot : UInt32) (function : FunctionId)
  | globalLexical
  | globalProperty
  | dynamic

structure BindingPlanEntry where
  name : String
  location : BindingLocation
  isMutable : Bool

/-- Owner metadata of one environment slot; its list index is the slot. -/
structure EnvironmentSlotMetadata where
  name : String
  isMutable : Bool
  initialized : Bool
  parameter : Bool

/-- Register and stack-reservation requirements of a function. -/
structure FunctionLayout where
  registerCount : UInt32 := 0
  argumentCount : UInt32 := 0
  functionLength : UInt32 := 0
  nameScope : Option UInt32 := none
  temporaryRegisterCount : UInt32 := 0
  feedbackSlotCount : UInt32 := 0
  environmentSlotCount : UInt32 := 0
  selfBindingSlot : Option UInt32 := none
  maxHandlerDepth : UInt32 := 0
  maxCompletionDepth : UInt32 := 0
  needsArgumentSource : Bool := false
  hasRestParameter : Bool := false
  simpleParameterList : Bool := false

/-- Per-function metadata as the compiler submits it. -/
structure FunctionMetadata where
  kind : FunctionKind
  role : FunctionRole
  strictness : FunctionStrictness
  layout : FunctionLayout
  sourceMap : List SourceMapEntry
  handlers : List HandlerEntry
  suspendPoints : List SuspendPoint
  feedbackSites : List FeedbackSite
  bindingPlan : List BindingPlanEntry
  environmentSlots : List EnvironmentSlotMetadata

/-- Source slice of a function; the pair of the largest word and zero stands for
no slice. -/
structure FunctionSourceRange where
  start : UInt32
  stop : UInt32
  deriving DecidableEq

def FunctionSourceRange.unavailable : FunctionSourceRange :=
  { start := Lib.MachineWord.maxWord, stop := 0 }

def FunctionSourceRange.span (range : FunctionSourceRange) : Option SourceSpan :=
  if range = .unavailable then none else some { start := range.start, stop := range.stop }

/-- What the compiler submits for one function. -/
structure CompiledFunctionTemplate where
  id : FunctionId
  bytecode : Bytecode
  metadata : FunctionMetadata
  sourceRange : FunctionSourceRange

/-- A function whose stream and metadata have been verified. -/
structure CompiledFunction where
  id : FunctionId
  bytecode : VerifiedBytecode
  metadata : FunctionMetadata
  sourceRange : FunctionSourceRange

/-- Reasons for which a module is rejected. -/
inductive ModuleBuildError where
  | sourceTooLarge (byteLen : Nat)
  | tooManyConstants (count : Nat)
  | tooManyScopeNames (count : Nat)
  | tooManyFunctions (count : Nat)
  | functionIdMismatch (expected actual : FunctionId)
  | invalidEntryFunction (entry : FunctionId) (functionCount : UInt32)
  | invalidFunctionLayout (function : FunctionId) (layout : FunctionLayout)
  | invalidFunctionStrictness (function : FunctionId) (kind : FunctionKind)
      (strictness : FunctionStrictness)
  | invalidFunctionRole (function : FunctionId) (kind : FunctionKind) (role : FunctionRole)
  | invalidClassInstruction (function : FunctionId) (kind : FunctionKind) (offset : WordOffset)
      (opcode : Opcode)
  | invalidClassConstructorTarget (function : FunctionId) (offset : WordOffset)
      (target : FunctionId) (targetKind : FunctionKind)
  | invalidClassEnvironmentDepth (function : FunctionId) (offset : WordOffset)
      (expected actual : UInt32)
  | classEnvironmentSlotOutOfRange (function : FunctionId) (offset : WordOffset)
      (slot slotCount : UInt32)
  | verifyFunction (function : FunctionId) (error : VerifyError)
  | sourceMapOffsetNotInstructionStart (function : FunctionId) (offset : WordOffset)
  | sourceMapOutOfBounds (function : FunctionId) (span : SourceSpan) (sourceLen : UInt32)
  | invalidFunctionSourceRange (function : FunctionId) (span : SourceSpan) (sourceLen : UInt32)
  | sourceMapNotMonotonic (function : FunctionId) (previous current : WordOffset)
  | invalidHandlerRange (function : FunctionId) (handler : HandlerEntry)
  | handlerTargetInsideProtectedRange (function : FunctionId) (handler : HandlerEntry)
  | handlerTableNotProperlyNested (function : FunctionId) (previous current : HandlerEntry)
  | invalidFinallyInstruction (function : FunctionId) (offset : WordOffset) (opcode : Opcode)
  | feedbackSiteOffsetNotInstructionStart (function : FunctionId) (offset : WordOffset)
  | feedbackSlotOutOfRange (function : FunctionId) (slot : FeedbackSlot)
      (feedbackSlotCount : UInt32)
  | feedbackSitesNotMonotonic (function : FunctionId) (previous current : WordOffset)
  | bindingRegisterOutOfRange (function : FunctionId) (binding : BindingPlanEntry)
      (registerCount : UInt32)
  | bindingEnvironmentSlotOutOfRange (function : FunctionId) (binding : BindingPlanEntry)
      (environmentSlotCount : UInt32)
  | bindingFunctionOutOfRange (function : FunctionId) (binding : BindingPlanEntry)
      (functionCount : UInt32)
  | environmentSlotMetadataCountMismatch (function : FunctionId) (expected actual : UInt32)
  | environmentSlotBindingMismatch (function : FunctionId) (binding : BindingPlanEntry)
  | emptyEnvironmentSlotName (function : FunctionId) (slot : UInt32)
  | invalidSelfBindingSlot (function : FunctionId) (slot : UInt32)
  | emptyBindingName (function : FunctionId) (binding : BindingPlanEntry)
  | suspendPointIdMismatch (function : FunctionId) (expected actual : SuspendPointId)
  | invalidSuspendPoint (function : FunctionId) (suspendPoint : SuspendPoint)
  | suspendPointMissing (function : FunctionId) (offset : WordOffset) (id : SuspendPointId)
  | suspendInIncompatibleFunction (function : FunctionId) (kind : FunctionKind)
      (offset : WordOffset) (opcode : Opcode)
  | initialYieldInIncompatibleFunction (function : FunctionId) (kind : FunctionKind)
      (offset : WordOffset)
  | invalidInitialYieldCount (function : FunctionId) (kind : FunctionKind) (count : UInt32)
  | verifiedBytecodeDecodeInvariant (function : FunctionId) (offset : WordOffset)

/-- How building a module ends without a result: an error value, or a failed
`expect` or index of the source. -/
inductive BuildFailure where
  | rejected (error : ModuleBuildError)
  | panicked

end TachyonEngine.Bytecode
