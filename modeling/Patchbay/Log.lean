/-
# The log

What the library does besides answering is to leave log entries.  Each entry is a cause with
its data; its level and its wording are functions of the cause.  Odd places of a document are
warnings, the progress of the work is for debugging, and a diagnostic is logged by its
severity.

An entry of a map that holds no record is logged with the reason (`Rejection`).  The reason is
data, too, and the words for it are those of the JSON library, so the wording of the log is a
function of them.
-/
import Patchbay.Diagnostic

namespace Patchbay

/-! ## 1. Rejections -/

/-- What a value was to be. -/
inductive Expected where
  /-- A text, in a field of a record. -/
  | text
  | node
  | pin
  | link
  | declaredPin
  | nodeType
  | patch
  | destination
  deriving DecidableEq, Repr

/-- Why a value holds no record. -/
inductive Rejection where
  /-- The value, or one of its parts, is of another form. -/
  | mismatch (found : Json.Outline) (expected : Expected)
  /-- An array has more items than the record has fields. -/
  | surplus (count : Nat)
  deriving DecidableEq, Repr

/-- What reading a value for a record comes to: the record, or the reason why there is none. -/
abbrev Verdict (α : Type) := Except Rejection α

theorem Verdict.isOk_iff {α : Type} {x : Verdict α} : x.isOk = true ↔ ∃ a, x = .ok a := by
  cases x <;> simp [Except.isOk, Except.toBool]

/-! ## 2. Entries -/

/-- The three sorts of record that patches share out among themselves. -/
inductive Entity where
  | node
  | pin
  | link
  deriving DecidableEq, Repr

/-- The word for a sort of record. -/
def Entity.name : Entity → String
  | node => "node"
  | pin => "pin"
  | link => "link"

/-- The level of a log entry. -/
inductive LogLevel where
  | warn
  | debug
  deriving DecidableEq, Repr

/-- What is worth a log entry. -/
inductive LogEntry where
  /-- An id or key was neither a text nor a number. -/
  | oddId (found : Json.Kind)
  /-- Something else stood in place of a map. -/
  | oddMap (found : Json.Kind)
  /-- An entry of a map did not hold a record. -/
  | skippedEntry (key : String) (reason : Rejection)
  /-- A project was read. -/
  | loaded (patches nodeTypes : Nat)
  /-- A patch wrote to a key of an earlier one. -/
  | overridden (patch : Option String) (entity : Entity) (key : String)
  /-- The patches of a project were merged. -/
  | merged (patches nodes pins links : Nat)
  /-- A lookup fell back to an empty value. -/
  | fallback (diagnostic : Diagnostic)
  /-- The nodes of a project were transformed. -/
  | transformed (nodes diagnostics warnings : Nat)
  deriving DecidableEq, Repr

namespace LogEntry

/-- The level of an entry. -/
def level : LogEntry → LogLevel
  | oddId _ | oddMap _ | skippedEntry .. => .warn
  | loaded .. | overridden .. | merged .. | transformed .. => .debug
  | fallback d => if d.isWarning then .warn else .debug

/-- The wording of an entry, by the words for a reason. -/
def message (words : Rejection → String) : LogEntry → String
  | oddId found =>
    let found := found.phrase
    s!"Expected a string id, found {found}; ignoring it"
  | oddMap found =>
    let found := found.phrase
    s!"Expected an object, found {found}; using an empty map"
  | skippedEntry key reason =>
    let reason := words reason
    s!"Skipping malformed entry '{key}': {reason}"
  | loaded patches nodeTypes =>
    s!"Loaded project with {patches} patches and {nodeTypes} node types"
  | overridden patch entity key =>
    let patch := patch.getD "<anonymous>"
    let entity := entity.name
    s!"Patch '{patch}' overrides {entity} '{key}'"
  | merged patches nodes pins links =>
    s!"Merged {patches} patches: {nodes} nodes, {pins} pins, {links} links"
  | fallback d => d.message
  | transformed nodes diagnostics warnings =>
    s!"Transformed {nodes} nodes ({diagnostics} diagnostics, {warnings} warnings)"

/-- Whether an entry is a warning. -/
def isWarning (e : LogEntry) : Bool := e.level = .warn

end LogEntry

/-- A value with the log entries left on the way to it. -/
abbrev Logged (α : Type) := Traced LogEntry α

end Patchbay
