/-
# Reports of a run

A run takes the nodes of a blueprint to the runtime's table and collects the diagnostics on
the way: first those of the declared inputs, type by type, and then those of the nodes, in the
order of the graph.  Nothing stops it.  In strict mode, though, a report with a warning is
withheld, and `Degraded` says how many there were and what the first one was.

* `nodes_report`, `diagnostics_report`: what a report holds;
* `value_run`: settings have no influence on it.
-/
import Patchbay.RuntimeNode
import Patchbay.Settings.Reader
import Patchbay.Document.Load

namespace Patchbay

/-! ## 1. Declared inputs -/

/-- The diagnostic of a declared pin whose type the runtime does not know, if it is an input. -/
def DeclaredPin.check? (typeId key : String) (p : DeclaredPin) : Option Diagnostic :=
  if p.hasDirection .input then
    match p.type with
    | none => some (.undeclaredPinType typeId key)
    | some (.other tag) => some (.unrecognizedPinType typeId key tag)
    | some _ => none
  else none

/-- The diagnostics of the declared inputs of a type. -/
def NodeType.check (typeId : String) (t : NodeType) : List Diagnostic :=
  t.pins.entries.filterMap fun e => e.2.check? typeId e.1

/-! ## 2. Reports -/

/-- The runtime's table of nodes, and every fallback on the way to it. -/
structure Report where
  nodes : OrderedMap RuntimeNode := .empty
  diagnostics : List Diagnostic := []
  deriving DecidableEq, Repr, Inhabited

/-- The diagnostics that are warnings. -/
def Report.warnings (r : Report) : List Diagnostic := r.diagnostics.filter Diagnostic.isWarning

/-- Whether there are warnings. -/
def Report.hasWarnings (r : Report) : Bool := !r.warnings.isEmpty

/-- Why a strict run withholds its report. -/
structure Degraded where
  warnings : Nat
  first : Diagnostic
  deriving DecidableEq, Repr

/-- The wording of the refusal. -/
def Degraded.message (d : Degraded) : String :=
  let warnings := d.warnings
  let first := d.first.message
  s!"Strict transform rejected {warnings} degraded lookup(s), first: {first}"

namespace Blueprint

/-- The diagnostics of all declared inputs. -/
def typeDiagnostics (b : Blueprint) : List Diagnostic :=
  b.nodeTypes.entries.flatMap fun e => e.2.check e.1

/-- The table of all nodes by their keys in the graph. -/
def resolveNodes (b : Blueprint) : Resolved (OrderedMap RuntimeNode) :=
  let resolved := b.graph.nodes.map b.resolveNode
  ⟨resolved.map Traced.value, resolved.values.flatMap Traced.trace⟩

/-- The report of a run. -/
def report (b : Blueprint) : Report :=
  let resolved := b.resolveNodes
  { nodes := resolved.value, diagnostics := b.typeDiagnostics ++ resolved.trace }

theorem nodes_report (b : Blueprint) : b.report.nodes = b.graph.nodes.map b.runtimeNode := by
  apply OrderedMap.ext
  simp [report, resolveNodes, OrderedMap.map, runtimeNode]

theorem diagnostics_report (b : Blueprint) :
    b.report.diagnostics = b.typeDiagnostics ++
      b.graph.nodes.values.flatMap fun n => (b.resolveNode n).trace := by
  simp [report, resolveNodes, List.flatMap_map]

/-- Runs, logging the diagnostics if the settings want it and the totals in any case. -/
def run (b : Blueprint) (s : Settings) : Logged Report := do
  let r := b.report
  if s.logDiagnostics then Traced.notes (r.diagnostics.map .fallback)
  Traced.note (.transformed r.nodes.size r.diagnostics.length r.warnings.length)
  return r

theorem value_run (b : Blueprint) (s : Settings) : (b.run s).value = b.report := by
  unfold run
  split <;> rfl

/-- Runs; in strict mode a report with warnings is withheld. -/
def tryRun (b : Blueprint) (s : Settings) : Logged (Except Degraded Report) := do
  let r ← b.run s
  match s.strict, r.warnings with
  | true, first :: rest => return .error ⟨rest.length + 1, first⟩
  | _, _ => return .ok r

end Blueprint

/-! ## 3. From a project or a text to the table -/

/-- Why a transformation gives no table. -/
inductive TransformError where
  /-- The project cannot be loaded. -/
  | project (error : LoadError)
  /-- The settings cannot be read. -/
  | settings (fault : Settings.Fault)
  /-- A strict run met warnings. -/
  | degraded (refusal : Degraded)
  deriving DecidableEq, Repr

/-- The wording of an error, by what the JSON library says of it. -/
def TransformError.message (said : String) : TransformError → String
  | project error => "Project error: " ++ error.message said
  | settings _ => "Invalid transform config: " ++ said
  | degraded refusal => refusal.message

namespace Project

/-- The runtime's table of a project, with default settings. -/
def transform (p : Project) : Logged (OrderedMap RuntimeNode) := do
  let b ← Blueprint.ofProject p
  let r ← b.run {}
  return r.nodes

/-- The runtime's table of the project that a text holds. -/
def transformText (text : String) : Logged (Except TransformError (OrderedMap RuntimeNode)) := do
  match ← Project.ofText text with
  | .error e => return .error (.project e)
  | .ok p => do
    let nodes ← p.transform
    return .ok nodes

end Project
end Patchbay
