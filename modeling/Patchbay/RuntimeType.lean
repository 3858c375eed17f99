/-
# Types at run time

The runtime knows three types of values.  `RuntimeType` adds two cases for inputs that it
knows nothing about: a tag that was passed on as it is, and no tag at all.
-/
import Patchbay.Document.Basic

namespace Patchbay

/-- The type that the runtime gives an input. -/
inductive RuntimeType where
  | boolean
  | number
  | string
  /-- A tag that the runtime does not know. -/
  | unmapped (tag : String)
  /-- The input was declared without a type. -/
  | undeclared
  deriving DecidableEq, Repr

namespace RuntimeType

/-- The name of a type, or the tag that stands in for it. -/
def name? : RuntimeType → Option String
  | boolean => some "Boolean"
  | number => some "Number"
  | string => some "String"
  | unmapped tag => some tag
  | undeclared => none

/-- The name of a type for people. -/
def display (t : RuntimeType) : String := t.name?.getD "undeclared"

/-- The name of a type for the runtime, null without one. -/
def toJson (t : RuntimeType) : Json :=
  match t.name? with
  | some name => .string name
  | none => .null

end RuntimeType

/-! ## Types of declared pins -/

/-- The runtime's type for a declared one.  A trigger is a truth value at run time. -/
def PinType.atRuntime : PinType → RuntimeType
  | .pulse | .boolean => .boolean
  | .number => .number
  | .string => .string
  | .other tag => .unmapped tag

/-- The runtime's type for a declared pin. -/
def DeclaredPin.runtimeType (p : DeclaredPin) : RuntimeType :=
  match p.type with
  | some type => type.atRuntime
  | none => .undeclared

namespace NodeType

/-- The declared pins of one direction, in declaration order. -/
def pinsTowards (t : NodeType) (d : Direction) : OrderedMap DeclaredPin :=
  t.pins.filter fun p => p.hasDirection d

/-- The declared inputs. -/
def inputs (t : NodeType) : OrderedMap DeclaredPin := t.pinsTowards .input

/-- The declared outputs. -/
def outputs (t : NodeType) : OrderedMap DeclaredPin := t.pinsTowards .output

/-- The runtime's type of every input. -/
def inputTypes (t : NodeType) : OrderedMap RuntimeType := t.inputs.map DeclaredPin.runtimeType

end NodeType
end Patchbay
