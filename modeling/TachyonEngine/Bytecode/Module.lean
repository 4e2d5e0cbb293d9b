import TachyonEngine.Bytecode.Validate

/-!
# Building a compiled module

`CompiledModule.new` verifies every function template against the module's pool
sizes and validates its metadata before it freezes the module. `new_functions`
says what a built module holds: functions whose streams `verify` accepted and
whose tables passed every validation.
-/

namespace TachyonEngine.Bytecode

open Lib.MachineWord Lib.CodeStream

/-- A fully verified compilation result. -/
structure CompiledModule where
  source : String
  constants : List BytecodeConstant
  scopeNames : List String
  functions : List CompiledFunction
  entryFunction : FunctionId

/-- Largest slot count of an environment the stream enters. Decoding stops at
the first word that does not decode. Past the 32-bit range the source's offset
saturates; such a stream is rejected by `verify`. -/
def encodedEnvironmentSlots (words : List UInt32) : Nat → UInt32 → UInt32 → UInt32
  | 0, _, maximum => maximum
  | fuel + 1, offset, maximum =>
    if offset.toNat < words.length then
      match decodeInstruction words ⟨offset⟩ with
      | .error _ => maximum
      | .ok instruction =>
        let maximum :=
          match instruction.opcode with
          | .enterClassEnvironment | .enterLexicalEnvironment =>
            max maximum instruction.operands[0]
          | _ => maximum
        encodedEnvironmentSlots words fuel
          (saturatingAdd offset instruction.wordLen.toUInt32) maximum
    else maximum

/-- Largest environment any function of the module can own or enter. -/
def maxEnvironmentSlotCount (templates : List CompiledFunctionTemplate) : UInt32 :=
  templates.foldl (fun maximum template =>
      max (max maximum template.metadata.layout.environmentSlotCount)
        (encodedEnvironmentSlots template.bytecode.words template.bytecode.words.length 0 0))
    0

/-- A span is ordered, inside the source and on character boundaries. -/
def spanIsValid (source : String) (sourceLen : UInt32) (span : SourceSpan) : Bool :=
  span.start ≤ span.stop && span.stop ≤ sourceLen &&
    String.Pos.Raw.isValid source ⟨span.start.toNat⟩ &&
    String.Pos.Raw.isValid source ⟨span.stop.toNat⟩

/-- Kinds and roles whose code is always strict. -/
def requiresStrict (metadata : FunctionMetadata) : Bool :=
  metadata.kind = .module || isClassConstructor metadata.kind ||
    metadata.role = .classFieldInitializer

/-- What every function of a module is checked against. -/
structure ModuleContext where
  source : String
  sourceLen : UInt32
  verifyContext : VerifyContext
  functionKinds : List FunctionKind

/-- Checks of one template that do not read its stream. -/
def checkTemplateHeader (context : ModuleContext) (index : Nat)
    (template : CompiledFunctionTemplate) : Except BuildFailure Unit :=
  let metadata := template.metadata
  if template.id ≠ ⟨UInt32.ofNat index⟩ then
    reject (.functionIdMismatch ⟨UInt32.ofNat index⟩ template.id)
  else if !metadata.role.isValidFor metadata.kind then
    reject (.invalidFunctionRole template.id metadata.kind metadata.role)
  else
    let strict : Except BuildFailure Unit :=
      if requiresStrict metadata ∧ metadata.strictness ≠ .strict then
        reject (.invalidFunctionStrictness template.id metadata.kind metadata.strictness)
      else .ok ()
    match template.sourceRange.span with
    | none => strict
    | some span =>
      if !spanIsValid context.source context.sourceLen span then
        reject (.invalidFunctionSourceRange template.id span context.sourceLen)
      else strict

/-- The stream of a template, verified with the template's own register count. -/
def verifyTemplate (context : ModuleContext) (template : CompiledFunctionTemplate) :
    Except BuildFailure VerifiedBytecode :=
  match verify template.bytecode
      { context.verifyContext with registerCount := template.metadata.layout.registerCount } with
  | .error error => reject (.verifyFunction template.id error)
  | .ok bytecode => .ok bytecode

/-- Verifies and validates one template. -/
def buildFunction (context : ModuleContext) (index : Nat)
    (template : CompiledFunctionTemplate) : Except BuildFailure CompiledFunction := do
  let metadata := template.metadata
  checkTemplateHeader context index template
  let bytecode ← verifyTemplate context template
  validateSourceMap template.id bytecode context.sourceLen none metadata.sourceMap
  let handlerDepth ← validateHandlers template.id metadata.handlers bytecode
  validateFinallyInstructions template.id metadata.handlers bytecode
  validateClassInstructions template.id metadata.kind metadata.role bytecode context.functionKinds
  validateClassEnvironments template.id metadata.handlers bytecode
  validateFunctionLayout template.id metadata.layout handlerDepth
    context.verifyContext.scopeNameCount
  validateFeedbackSites template.id bytecode metadata.layout.feedbackSlotCount none
    metadata.feedbackSites
  validateBindingPlan template.id metadata.bindingPlan metadata.layout
    context.verifyContext.maxEnvironmentSlotCount metadata.environmentSlots
    context.verifyContext.functionCount
  validateEnvironmentSlots template.id metadata.environmentSlots metadata.layout
  validateSuspendPoints template.id metadata.suspendPoints bytecode
    metadata.layout.registerCount metadata.kind
  .ok { id := template.id, bytecode, metadata, sourceRange := template.sourceRange }

/-- Builds the templates in order, starting with the given index. -/
def buildFunctions (context : ModuleContext) :
    Nat → List CompiledFunctionTemplate → Except BuildFailure (List CompiledFunction)
  | _, [] => .ok []
  | index, template :: rest => do
      let function ← buildFunction context index template
      let functions ← buildFunctions context (index + 1) rest
      .ok (function :: functions)

/-- A pool length as a word, or the given error. -/
def poolCount (length : Nat) (error : Nat → ModuleBuildError) : Except BuildFailure UInt32 :=
  match tryFromLength length with
  | none => reject (error length)
  | some count => .ok count

/-- Verifies every function against this module's pool sizes before freezing
it. -/
def CompiledModule.new (source : String) (constants : List BytecodeConstant)
    (scopeNames : List String) (templates : List CompiledFunctionTemplate)
    (entryFunction : FunctionId) : Except BuildFailure CompiledModule := do
  let sourceLen ← poolCount source.utf8ByteSize .sourceTooLarge
  let _ ← poolCount constants.length .tooManyConstants
  let scopeNameCount ← poolCount scopeNames.length .tooManyScopeNames
  let functionCount ← poolCount templates.length .tooManyFunctions
  if entryFunction.index ≥ functionCount then
    reject (.invalidEntryFunction entryFunction functionCount)
  else do
    let context : ModuleContext :=
      { source, sourceLen
        verifyContext :=
          { registerCount := 0, constants, functionCount, scopeNameCount
            maxEnvironmentSlotCount := maxEnvironmentSlotCount templates }
        functionKinds := templates.map fun template => template.metadata.kind }
    let functions ← buildFunctions context 0 templates
    .ok { source, constants, scopeNames, functions, entryFunction }

/-! ## What a built module holds -/

/-- Peels the first computation off a successful sequence. -/
theorem bind_ok {ε α β : Type} {first : Except ε α} {rest : α → Except ε β} {res : β}
    (h : (first >>= rest) = .ok res) : ∃ val, first = .ok val ∧ rest val = .ok res := by
  cases first with
  | error e => cases h
  | ok val => exact ⟨val, rfl, h⟩

/-- A function that passed the stream verifier and the table validations that
constrain control flow. -/
structure CheckedFunction (function : CompiledFunction) : Prop where
  verified : ∃ bytecode context, verify bytecode context = .ok function.bytecode
  handlers : ∃ depth, validateHandlers function.id function.metadata.handlers
    function.bytecode = .ok depth
  finallyInstructions : validateFinallyInstructions function.id function.metadata.handlers
    function.bytecode = .ok ()
  classEnvironments : validateClassEnvironments function.id function.metadata.handlers
    function.bytecode = .ok ()
  suspendPoints : validateSuspendPoints function.id function.metadata.suspendPoints
    function.bytecode function.metadata.layout.registerCount function.metadata.kind = .ok ()

variable {ctx : ModuleContext} {idx : Nat}

theorem buildFunction_checked {template : CompiledFunctionTemplate} {fn : CompiledFunction} (h :
    buildFunction ctx idx template = .ok fn) : CheckedFunction fn := by
  obtain ⟨_, _, h⟩ := bind_ok h
  obtain ⟨bytecode, hverify, h⟩ := bind_ok h
  obtain ⟨_, _, h⟩ := bind_ok h
  obtain ⟨depth, hhandlers, h⟩ := bind_ok h
  obtain ⟨_, hfinally, h⟩ := bind_ok h
  obtain ⟨_, _, h⟩ := bind_ok h
  obtain ⟨_, henvs, h⟩ := bind_ok h
  obtain ⟨_, _, h⟩ := bind_ok h
  obtain ⟨_, _, h⟩ := bind_ok h
  obtain ⟨_, _, h⟩ := bind_ok h
  obtain ⟨_, _, h⟩ := bind_ok h
  obtain ⟨_, hsuspend, h⟩ := bind_ok h
  cases h
  have hst : ∃ bytecode' ctx', verify bytecode' ctx' = .ok bytecode := by
    simp only [verifyTemplate] at hverify
    split at hverify
    · cases hverify
    next code hcode =>
      cases hverify
      exact ⟨_, _, hcode⟩
  exact ⟨hst, ⟨depth, hhandlers⟩, hfinally, henvs, hsuspend⟩

variable {templates : List CompiledFunctionTemplate}

theorem buildFunctions_checked {functions : List CompiledFunction} (h : buildFunctions ctx idx
    templates = .ok functions) : ∀ fn ∈ functions, CheckedFunction fn := by
  induction templates generalizing idx functions with
  | nil =>
    cases h
    intro fn hm
    cases hm
  | cons template rest ih =>
    obtain ⟨first, hfirst, h⟩ := bind_ok h
    obtain ⟨others, hos, h⟩ := bind_ok h
    cases h
    intro fn hm
    rcases List.mem_cons.mp hm with rfl | hrest
    · exact buildFunction_checked hfirst
    · exact ih hos fn hrest

/-- Every function of a built module passed the checks. -/
theorem new_functions {source : String} {constants : List BytecodeConstant} {scopeNames : List
    String} {entryFunction : FunctionId} {mdl : CompiledModule} (h : CompiledModule.new source
    constants scopeNames templates entryFunction = .ok mdl) :
    ∀ fn ∈ mdl.functions, CheckedFunction fn := by
  obtain ⟨_, _, h⟩ := bind_ok h
  obtain ⟨_, _, h⟩ := bind_ok h
  obtain ⟨_, _, h⟩ := bind_ok h
  obtain ⟨_, _, h⟩ := bind_ok h
  split at h
  · cases h
  · obtain ⟨functions, hfunctions, h⟩ := bind_ok h
    cases h
    exact buildFunctions_checked hfunctions

end TachyonEngine.Bytecode
