/-
# Blueprints: looking up what belongs together

A `Blueprint` is a project made ready for looking things up: its node types beside its merged
graph.  From a node the way leads to its type, from an output of the type to the pin that
stands for it on the node, from the pin to the links that start there, and from each link to
the pin where it ends:

    node and declared output -> pin -> links -> pins -> destinations

Each step compares ids as they are written, and an id that is missing is compared like any
other value when a pin is looked for by its node and key.  A lookup that finds nothing gives
an empty value and a diagnostic, so following the way never fails (`Resolved`).

* `value_resolveNodeType`: what stands in for a type is the type without pins and behaviour;
* `deliver_of_none`: a link that ends at no pin is reported, with the empty destination.
-/
import Patchbay.Destination
import Patchbay.Graph
import Patchbay.RuntimeType

namespace Patchbay

/-- A project's node types and its merged graph. -/
structure Blueprint where
  nodeTypes : OrderedMap NodeType := .empty
  graph : Graph := {}
  deriving DecidableEq, Repr, Inhabited

/-- The name of a node in a diagnostic. -/
def Node.label (n : Node) : String := n.id.getD ""

namespace Blueprint

/-- The blueprint of a project. -/
def ofProject (p : Project) : Logged Blueprint := do
  let graph ← Graph.ofProject p
  return { nodeTypes := p.nodeTypes, graph }

/-! ## 1. From a node to its type -/

/-- The type of a node, if the project has it. -/
def nodeType? (b : Blueprint) (n : Node) : Option NodeType := n.typeId.bind b.nodeTypes.get?

/-- The type of a node, or one without pins and behaviour. -/
def nodeType (b : Blueprint) (n : Node) : NodeType := (b.nodeType? n).getD {}

/-- The type of a node, with a diagnostic if the empty one stands in. -/
def resolveNodeType (b : Blueprint) (n : Node) : Resolved NodeType :=
  match b.nodeType? n with
  | some t => return t
  | none => do
    Traced.note (.missingNodeType n.label n.typeId)
    return {}

/-! ## 2. From an output to its destinations -/

/-- The first pin that stands for a declared pin on a node. -/
def pinFor? (b : Blueprint) (owner : Node) (declared : DeclaredPin) : Option Pin :=
  b.graph.pins.values.find? fun p => p.nodeId = owner.id ∧ p.key = declared.key

/-- The links that start from a pin, in order.  A pin without an id has none. -/
def linksFrom (b : Blueprint) (p : Pin) : List Link :=
  match p.id with
  | some id => b.graph.links.values.filter fun l => l.source = some id
  | none => []

/-- Where a link leads, none if it ends at no pin. -/
def destination? (b : Blueprint) (l : Link) : Option Destination :=
  (l.destination.bind b.graph.pins.get?).map .ofPin

/-- Where a link leads, or the empty destination with a diagnostic. -/
def deliver (b : Blueprint) (l : Link) : Resolved Destination :=
  match b.destination? l with
  | some d => return d
  | none => do
    Traced.note (.danglingLink (l.id.getD "") l.destination)
    return {}

/-- The destinations of one output of a node, one for each link.  `pinKey` names the output in
a diagnostic. -/
def resolveOutput (b : Blueprint) (owner : Node) (pinKey : String) (declared : DeclaredPin) :
    Resolved (List Destination) :=
  match b.pinFor? owner declared with
  | some p => Traced.each b.deliver (b.linksFrom p)
  | none => do
    Traced.note (.missingPinInstance owner.label pinKey)
    return []

/-- The destinations of one output of a node. -/
def destinations (b : Blueprint) (owner : Node) (declared : DeclaredPin) : List Destination :=
  (b.resolveOutput owner (declared.key.getD "") declared).value

/-- The destinations of one output of a node, its diagnostics added behind recorded ones. -/
def resolveOutputAfter (b : Blueprint) (recorded : List Diagnostic) (owner : Node)
    (pinKey : String) (declared : DeclaredPin) : Resolved (List Destination) := do
  Traced.notes recorded
  b.resolveOutput owner pinKey declared

/-! ## 3. What the fallbacks give -/

theorem deliver_of_some {b : Blueprint} {l : Link} {d : Destination}
    (h : b.destination? l = some d) : b.deliver l = ⟨d, []⟩ := by
  rw [deliver, h]
  rfl

theorem deliver_of_none {b : Blueprint} {l : Link} (h : b.destination? l = none) :
    b.deliver l = ⟨{}, [.danglingLink (l.id.getD "") l.destination]⟩ := by
  rw [deliver, h]
  rfl

theorem resolveOutput_of_some {b : Blueprint} {owner : Node} {pinKey : String}
    {declared : DeclaredPin} {p : Pin} (h : b.pinFor? owner declared = some p) :
    b.resolveOutput owner pinKey declared = Traced.each b.deliver (b.linksFrom p) := by
  rw [resolveOutput, h]

theorem resolveOutput_of_none {b : Blueprint} {owner : Node} {pinKey : String}
    {declared : DeclaredPin} (h : b.pinFor? owner declared = none) :
    b.resolveOutput owner pinKey declared =
      ⟨[], [.missingPinInstance owner.label pinKey]⟩ := by
  rw [resolveOutput, h]
  rfl

theorem value_resolveNodeType (b : Blueprint) (n : Node) :
    (b.resolveNodeType n).value = b.nodeType n := by
  unfold resolveNodeType nodeType
  cases b.nodeType? n <;> rfl

end Blueprint

/-- The blueprint of a project, without the log of its making. -/
def Project.blueprint (p : Project) : Blueprint := (Blueprint.ofProject p).value

end Patchbay
