import TachyonEngine.Vm.DefineProperty

/-!
# Assignment and `Reflect.set`

The source writes properties in two routines. `resolve_property_write` walks the prototype chain
over the stored properties and treats the exotic properties of the receiver before the walk.
`resolve_reflect_property_write` walks over complete descriptors, which show the exotic properties
of every object, and may make the strings and the prototype object that a virtual property stands
for. Both write to the receiver in the end.

A chain is the receiver, the objects above it, and what stands above the last one. Typed arrays,
regular expressions and Proxies are left out.
-/

namespace TachyonEngine.Vm

open Lib

/-! ## Objects of a chain -/

/-- The shape and the slots of an object without other storage. -/
structure ListedPart where
  properties : List OwnProperty
  isExtensible : Bool

/-- The virtual properties of a function. -/
structure FunctionVirtuals where
  length : Value
  name : Value
  /-- The name of a bound function is stored; any other one is a new string. -/
  isBound : Bool
  hasPrototype : Bool
  isPrototypeReadOnly : Bool

/-- An object that the two routines tell apart. A plain object is an ordinary object, an Array or
the arguments object of a sloppy function. The prototype of a function is made when it is first
seen. The code units of a String wrapper are its virtual index properties. -/
inductive ChainObject where
  | plain (own : PropertyObject)
  | stringWrapper (units : List Value) (part : ListedPart)
  | function (virtuals : FunctionVirtuals) (prototype : Option Value) (part : ListedPart)
  | strictArguments (part : ListedPart)
  | moduleNamespace (part : ListedPart)

/-- The receiver, its prototypes, and the value above the last of them if it is not null. -/
structure WriteChain where
  receiver : ChainObject
  prototypes : List ChainObject
  root : Option Value

inductive PropertyWrite where
  | complete (written : Bool)
  | setter (setter : Value)
  | arrayLength
  deriving DecidableEq

inductive WriteError where
  | descriptor (error : DescriptorError)
  | stringAllocation
  | prototypeAllocation
  | notObject (prototype : Value)
  | invalidPropertyDescriptor
  deriving DecidableEq

/-- The engine around a write: whether memory is granted, strings can be made, and the object that a
missing function prototype becomes, if it can be made. -/
structure WriteContext where
  host : PropertyHost
  memory : MemoryRequest → Bool
  stringGranted : Bool
  newPrototype : Option Value

def ListedPart.own (part : ListedPart) : PropertyObject :=
  { exotic := .ordinary
    properties := part.properties
    isExtensible := part.isExtensible
    registers := fun _ => .undefined }

namespace ChainObject

/-- The stored properties. -/
def own : ChainObject → PropertyObject
  | .plain own => own
  | .stringWrapper _ part => part.own
  | .function _ _ part => part.own
  | .strictArguments part => part.own
  | .moduleNamespace part => part.own

def withOwn (object : ChainObject) (own : PropertyObject) : ChainObject :=
  let part : ListedPart := { properties := own.properties, isExtensible := own.isExtensible }
  match object with
  | .plain _ => .plain own
  | .stringWrapper units _ => .stringWrapper units part
  | .function virtuals prototype _ => .function virtuals prototype part
  | .strictArguments _ => .strictArguments part
  | .moduleNamespace _ => .moduleNamespace part

/-! ### What an object shows beside its stored properties -/

section Tests

variable (host : PropertyHost)

def isModuleNamespace : ChainObject → Bool
  | .moduleNamespace _ => true
  | _ => false

/-- `callee` of the arguments object of a strict function. -/
def isStrictArgumentsRestrictedProperty (object : ChainObject) (key : PropertyKey) : Bool :=
  match object, key with
  | .strictArguments _, .atom atom => host.atoms.text atom = [99, 97, 108, 108, 101, 101]
  | _, _ => false

/-- The length or an index of a String wrapper. -/
def isStringVirtual (object : ChainObject) (key : PropertyKey) : Bool :=
  match object with
  | .stringWrapper units _ =>
    key = host.lengthKey || (host.arrayPropertyIndex key).any fun index => index < units.length
  | _ => false

def isFunctionMetadataProperty (object : ChainObject) (key : PropertyKey) : Bool :=
  match object with
  | .function _ _ _ => key = host.lengthKey || key = .atom host.atoms.nameAtom
  | _ => false

def isFunctionPrototypeProperty (object : ChainObject) (key : PropertyKey) : Bool :=
  match object with
  | .function virtuals _ _ => virtuals.hasPrototype && key = .atom host.atoms.prototypeAtom
  | _ => false

def hasReadOnlyPrototype : ChainObject → Bool
  | .function virtuals _ _ => virtuals.isPrototypeReadOnly
  | _ => false

def setFunctionPrototype (object : ChainObject) (prototype : Value) : ChainObject :=
  match object with
  | .function virtuals _ part => .function virtuals (some prototype) part
  | object => object

end Tests

/-! ### Complete descriptors -/

section Descriptors

variable (ctx : WriteContext)

/-- The virtual properties of a String wrapper. -/
def stringDescriptor (object : ChainObject) (key : PropertyKey) :
    Option (Except WriteError PropertyDescriptor) :=
  match object with
  | .stringWrapper units _ =>
    if key = ctx.host.lengthKey then
      some (.ok (.data ⟨some (safeIntegerValue units.length), some false, some false, some false⟩))
    else
      ((ctx.host.arrayPropertyIndex key).bind fun index => units[index]?).map fun unit =>
        if ctx.stringGranted then .ok (.data ⟨some unit, some false, some true, some false⟩)
        else .error .stringAllocation
  | _ => none

/-- The virtual properties of a function that has no stored property for the key. -/
def functionDescriptor (object : ChainObject) (key : PropertyKey) :
    Except WriteError (Option PropertyDescriptor) × ChainObject :=
  match object with
  | .function virtuals prototype part =>
    if key = ctx.host.lengthKey then
      (.ok (some (.data ⟨some virtuals.length, some false, some false, some true⟩)), object)
    else if key = .atom ctx.host.atoms.nameAtom then
      if virtuals.isBound || ctx.stringGranted then
        (.ok (some (.data ⟨some virtuals.name, some false, some false, some true⟩)), object)
      else (.error .stringAllocation, object)
    else if virtuals.hasPrototype && key = .atom ctx.host.atoms.prototypeAtom then
      match prototype.or ctx.newPrototype with
      | some val =>
        (.ok (some (.data
            ⟨some val, some (!virtuals.isPrototypeReadOnly), some false, some false⟩)),
          .function virtuals (some val) part)
      | none => (.error .prototypeAllocation, object)
    else (.ok none, object)
  | object => (.ok none, object)

/-- The own property of a key. Module namespaces are never asked here. -/
def completeOwnPropertyDescriptor (object : ChainObject) (key : PropertyKey) :
    Except WriteError (Option PropertyDescriptor) × ChainObject :=
  match object.own.denseArrayValue ctx.host key with
  | some val => (.ok (some (.data ⟨some val, some true, some true, some true⟩)), object)
  | none =>
    match object.stringDescriptor ctx key with
    | some descriptor => (descriptor.map some, object)
    | none =>
      if object.isStrictArgumentsRestrictedProperty ctx.host key then
        (.ok (some (.accessor ⟨some .undefined, some .undefined, some false, some false⟩)), object)
      else
        match object.own.lookup key with
        | none => object.functionDescriptor ctx key
        | some _ =>
          (.ok (PropertyObject.completeOwnPropertyDescriptor ctx.host object.own key), object)

/-! ### Writing to the receiver -/

def setOwnDataProperty (object : ChainObject) (key : PropertyKey) (val : Value) :
    Except DescriptorError Unit × ChainObject :=
  if object.isFunctionPrototypeProperty ctx.host key then
    if object.hasReadOnlyPrototype then (.error .readOnlyProperty, object)
    else (.ok (), object.setFunctionPrototype val)
  else if object.isFunctionMetadataProperty ctx.host key && (object.own.lookup key).isNone then
    (.error .readOnlyProperty, object)
  else
    let (result, own) :=
      (PropertyObject.setOwnDataProperty ctx.host ctx.memory key val).outcome object.own
    (result, object.withOwn own)

/-- The conversion of the value may run a script. -/
def isArrayLengthObjectWrite (object : ChainObject) (key : PropertyKey) (val : Value) : Bool :=
  ctx.host.isObjectValue val && key = ctx.host.lengthKey && object.own.isArray

def writeDataPropertyBoolean (object : ChainObject) (key : PropertyKey) (val : Value) :
    Except WriteError PropertyWrite × ChainObject :=
  if object.isArrayLengthObjectWrite ctx key val then (.ok .arrayLength, object)
  else
    match object.setOwnDataProperty ctx key val with
    | (.ok (), object) => (.ok (.complete true), object)
    | (.error .nonExtensibleObject, object) => (.ok (.complete false), object)
    | (.error .readOnlyProperty, object) => (.ok (.complete false), object)
    | (.error error, object) => (.error (.descriptor error), object)

/-- The rules of a receiver that is written to for another object. The source repeats the code of
`write_data_property_boolean` at the end. -/
def writeReflectReceiver (object : ChainObject) (key : PropertyKey) (val : Value) :
    Except WriteError PropertyWrite × ChainObject :=
  match object.completeOwnPropertyDescriptor ctx key with
  | (.error error, object) => (.error error, object)
  | (.ok (some (.accessor _)), object) => (.ok (.complete false), object)
  | (.ok (some (.generic _)), object) => (.error .invalidPropertyDescriptor, object)
  | (.ok (some (.data data)), object) =>
    if !data.writable.getD false then (.ok (.complete false), object)
    else object.writeDataPropertyBoolean ctx key val
  | (.ok none, object) => object.writeDataPropertyBoolean ctx key val

end Descriptors

end ChainObject

/-! ## The two walks -/

/-- What an object of the chain decides. -/
inductive Verdict where
  | reject
  | setter (setter : Value)
  | write

namespace WriteChain

section Walks

variable (ctx : WriteContext) (key : PropertyKey) (val : Value)

/-- The end of both walks, with the routine that writes to the receiver. -/
def conclude (write : ChainObject → Except WriteError PropertyWrite × ChainObject)
    (chain : WriteChain) : Option Verdict → Except WriteError PropertyWrite × WriteChain
  | some .reject => (.ok (.complete false), chain)
  | some (.setter setter) => (.ok (.setter setter), chain)
  | some .write =>
    let (result, receiver) := write chain.receiver
    (result, { chain with receiver := receiver })
  | none =>
    match chain.root with
    | some root => (.error (.notObject root), chain)
    | none =>
      let (result, receiver) := write chain.receiver
      (result, { chain with receiver := receiver })

/-- One round of the loop of an assignment. -/
def assignmentRound (host : PropertyHost) (key : PropertyKey) (isReceiver : Bool)
    (current : ChainObject) : Option Verdict :=
  if current.isModuleNamespace then some .reject
  else if (current.own.denseArrayValue host key).isSome then some .write
  else
    match current.own.lookup key with
    | some property =>
      match property.stored with
      | some (.data _) => if property.attributes.writable then some .write else some .reject
      | some (.accessor _ setter) =>
        if setter = .undefined then some .reject else some (.setter setter)
      | none => if isReceiver then some .write else none
    | none =>
      if current.isFunctionMetadataProperty host key then some .reject
      else if current.isFunctionPrototypeProperty host key then
        if current.hasReadOnlyPrototype then some .reject else some .write
      else none

/-- Ordinary assignment. -/
def resolvePropertyWrite (chain : WriteChain) : Except WriteError PropertyWrite × WriteChain :=
  if chain.receiver.isStrictArgumentsRestrictedProperty ctx.host key then
    (.ok (.complete false), chain)
  else if chain.receiver.isStringVirtual ctx.host key then (.ok (.complete false), chain)
  else
    chain.conclude (fun receiver => receiver.writeDataPropertyBoolean ctx key val)
      ((assignmentRound ctx.host key true chain.receiver).or
        (chain.prototypes.findSome? (assignmentRound ctx.host key false)))

/-- What a complete descriptor decides. -/
def descriptorVerdict : PropertyDescriptor → Except WriteError Verdict
  | .data data => .ok (if !data.writable.getD false then .reject else .write)
  | .accessor accessor =>
    match accessor.setter with
    | some setter => .ok (if setter = .undefined then .reject else .setter setter)
    | none => .ok .reject
  | .generic _ => .error .invalidPropertyDescriptor

/-- One round of the loop of `Reflect.set`. -/
def reflectRound (current : ChainObject) : Except WriteError (Option Verdict) × ChainObject :=
  if current.isModuleNamespace then (.ok (some .reject), current)
  else
    match current.completeOwnPropertyDescriptor ctx key with
    | (.error error, current) => (.error error, current)
    | (.ok none, current) => (.ok none, current)
    | (.ok (some descriptor), current) => ((descriptorVerdict descriptor).map some, current)

def reflectWalk : List ChainObject → Except WriteError (Option Verdict) × List ChainObject
  | [] => (.ok none, [])
  | current :: rest =>
    match reflectRound ctx key current with
    | (.ok none, current) =>
      let (result, rest) := reflectWalk rest
      (result, current :: rest)
    | (result, current) => (result, current :: rest)

/-- `Reflect.set` with the receiver as the target, which is the first object of the walk. -/
def resolveReflectPropertyWrite (chain : WriteChain) :
    Except WriteError PropertyWrite × WriteChain :=
  let write (receiver : ChainObject) := receiver.writeReflectReceiver ctx key val
  match reflectRound ctx key chain.receiver with
  | (.error error, receiver) => (.error error, { chain with receiver := receiver })
  | (.ok (some verdict), receiver) =>
      { chain with receiver := receiver }.conclude write (some verdict)
  | (.ok none, receiver) =>
    match reflectWalk ctx key chain.prototypes with
    | (.error error, prototypes) => (.error error, ⟨receiver, prototypes, chain.root⟩)
    | (.ok verdict, prototypes) =>
      conclude write ⟨receiver, prototypes, chain.root⟩ verdict

end Walks

end WriteChain

end TachyonEngine.Vm
