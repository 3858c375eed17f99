/-
# Diagnostics

Resolving a project never fails.  Where it has to go on with an empty value, it leaves a
`Diagnostic` that names the place.  A pin that was simply never placed on a node is a note;
everything else means that the graph is probably not what its author had in mind, and is a
warning.
-/
import Patchbay.Json.Basic
import Patchbay.Traced

namespace Patchbay

/-! ## 1. Severities -/

/-- How much a fallback matters. -/
inductive Severity where
  | note
  | warning
  deriving DecidableEq, Repr

namespace Severity

/-- The rank of a severity. -/
def rank : Severity → Nat
  | note => 0
  | warning => 1

instance : LT Severity := ⟨fun a b => a.rank < b.rank⟩

instance (a b : Severity) : Decidable (a < b) := inferInstanceAs (Decidable (a.rank < b.rank))

/-- The name of a severity. -/
def name : Severity → String
  | note => "note"
  | warning => "warning"

end Severity

/-! ## 2. The five fallbacks -/

/-- A place where an empty value stands in for something that the project does not have. -/
inductive Diagnostic where
  /-- A node names no type, or one that the project lacks. -/
  | missingNodeType (node : String) (typeId : Option String)
  /-- A node has no pin for an output of its type. -/
  | missingPinInstance (node pinKey : String)
  /-- A link ends at no pin. -/
  | danglingLink (link : String) (pin : Option String)
  /-- The type tag of a declared input is not a known one. -/
  | unrecognizedPinType (nodeType pinKey tag : String)
  /-- A declared input has no type tag. -/
  | undeclaredPinType (nodeType pinKey : String)
  deriving DecidableEq, Repr

namespace Diagnostic

/-- How much the fallback matters. -/
def severity : Diagnostic → Severity
  | missingPinInstance .. => .note
  | missingNodeType .. | danglingLink .. | unrecognizedPinType .. | undeclaredPinType .. =>
    .warning

/-- Whether the fallback is worth a warning. -/
def isWarning (d : Diagnostic) : Bool := d.severity = .warning

/-- The fallback in a sentence. -/
def message : Diagnostic → String
  | missingNodeType node (some typeId) => s!"Node '{node}' has unknown type '{typeId}'"
  | missingNodeType node none => s!"Node '{node}' has no type id"
  | missingPinInstance node pinKey => s!"Node '{node}' has no pin instance for output '{pinKey}'"
  | danglingLink link (some pin) => s!"Link '{link}' points to missing pin '{pin}'"
  | danglingLink link none => s!"Link '{link}' has no destination pin"
  | unrecognizedPinType nodeType pinKey tag =>
    s!"Pin '{pinKey}' of node type '{nodeType}' has unrecognized type '{tag}'"
  | undeclaredPinType nodeType pinKey =>
    s!"Pin '{pinKey}' of node type '{nodeType}' declares no type"

/-- A text, or null in its absence. -/
def textOrNull : Option String → Json
  | some s => .string s
  | none => .null

/-- The fallback as a record whose first member names its kind. -/
def toJson : Diagnostic → Json
  | missingNodeType node typeId => .object
    [("kind", .string "missingNodeType"), ("node", .string node), ("type_id", textOrNull typeId)]
  | missingPinInstance node pinKey => .object
    [("kind", .string "missingPinInstance"), ("node", .string node), ("pin_key", .string pinKey)]
  | danglingLink link pin => .object
    [("kind", .string "danglingLink"), ("link", .string link), ("pin", textOrNull pin)]
  | unrecognizedPinType nodeType pinKey tag => .object
    [("kind", .string "unrecognizedPinType"), ("node_type", .string nodeType),
      ("pin_key", .string pinKey), ("tag", .string tag)]
  | undeclaredPinType nodeType pinKey => .object
    [("kind", .string "undeclaredPinType"), ("node_type", .string nodeType),
      ("pin_key", .string pinKey)]

end Diagnostic

/-- A value that was looked up, with the fallbacks on the way to it. -/
abbrev Resolved (α : Type) := Traced Diagnostic α

end Patchbay
