/-
# Loading a project

`Project.ofJson` takes any object for a project: what does not fit is logged and left out.
`Project.ofText` reads the text first.

* `Project.ofJson_object_eq_ok_iff`: an object is the project that its members are read as.
-/
import Patchbay.Document.Format
import Patchbay.Json.Reader

namespace Patchbay

/-- Why a project cannot be loaded. -/
inductive LoadError where
  /-- The text is not JSON. -/
  | text (fault : Json.Fault)
  /-- The document is something else than an object. -/
  | notAnObject (found : Json.Kind)
  /-- A member rejects the document. -/
  | rejected (reason : Rejection)
  deriving DecidableEq, Repr

/-- The wording of an error, by what the JSON library says of it. -/
def LoadError.message (said : String) : LoadError → String
  | text _ | rejected _ => "Invalid project JSON: " ++ said
  | notAnObject found =>
    let found := found.phrase
    s!"Project document must be a JSON object, found {found}"

namespace Project

/-- Reads a project from a document. -/
def ofJson : Json → Logged (Except LoadError Project)
  | .object members => do
    match ← Field.readMembers fields (fun p _ => p) members {} with
    | .error reason => return .error (.rejected reason)
    | .ok p => do
      Traced.note (.loaded p.patches.size p.nodeTypes.size)
      return .ok p
  | other => return .error (.notAnObject other.kind)

theorem ofJson_object_eq_ok_iff {members : List (String × Json)} {p : Project} :
    (ofJson (.object members)).value = .ok p ↔
      (Field.readMembers fields (fun p _ => p) members {}).value = .ok p := by
  unfold ofJson
  rw [Traced.value_bind]
  cases (Field.readMembers fields (fun p _ => p) members {}).value with
  | error reason => simp
  | ok q => simp

/-- Reads a project from the text of a document. -/
def ofText (text : String) : Logged (Except LoadError Project) :=
  match Json.read? text with
  | .error fault => return .error (.text fault)
  | .ok v => ofJson v

end Project
end Patchbay
