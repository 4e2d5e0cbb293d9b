import TachyonEngine.Gc.Layout

/-!
# JavaScript values

A value is one of the cases its tag distinguishes. The same Number has two of them: a double,
and a 32-bit integer when it is one and is not negative zero.
-/

namespace TachyonEngine.Vm

open Gc (RawHeapRef)

/-- The doubles. -/
abbrev F64 := Float.Model

/-- Values without a heap allocation. -/
inductive Immediate where
  | undefined
  | null
  | false
  | true
  | hole
  | uninitialized
  deriving DecidableEq

inductive Value where
  | float (number : F64)
  | int32 (value : Int32)
  | heapRef (reference : RawHeapRef)
  | immediate (value : Immediate)
  | smallBigint (value : Int)
  deriving DecidableEq

namespace Value

def fromF64 (number : F64) : Value := .float number

def fromI32 (value : Int32) : Value := .int32 value

def fromImmediate (value : Immediate) : Value := .immediate value

def undefined : Value := .fromImmediate .undefined

def asF64 : Value → Option F64
  | .float number => some number
  | _ => none

def asI32 : Value → Option Int32
  | .int32 value => some value
  | _ => none

def asImmediate : Value → Option Immediate
  | .immediate value => some value
  | _ => none

def asHeapRef : Value → Option RawHeapRef
  | .heapRef reference => some reference
  | _ => none

end Value

end TachyonEngine.Vm
