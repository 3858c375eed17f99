/-
# Nodes as the runtime takes them

A `RuntimeNode` is a node with the behaviour of its type copied into it, the runtime's types
of its inputs, and one `OutLink` for each link that starts at one of its outputs.  Out links
stand in the declaration order of the outputs, and those of one output in the order of the
links.  An output that feeds nothing leaves no trace.

`outLinksByPin` regroups them by output.

* `value_resolveOutLinks`, `trace_resolveOutLinks`: the out links of a node and the diagnostics
  on the way, output by output.
-/
import Patchbay.Blueprint

namespace Patchbay

/-! ## 1. The records -/

/-- What a node takes over from its type. -/
structure Behavior where
  purity : Option Json := none
  setup : Option Json := none
  evaluate : Option Json := none
  inputTypes : OrderedMap RuntimeType := .empty
  deriving DecidableEq, Repr, Inhabited

/-- One destination of one output. -/
structure OutLink where
  pinKey : String
  destination : Destination
  deriving DecidableEq, Repr, Inhabited

/-- A node as the runtime takes it. -/
structure RuntimeNode where
  id : Option String := none
  behavior : Behavior := {}
  outLinks : List OutLink := []
  deriving DecidableEq, Repr, Inhabited

/-- What the nodes of a type take over from it. -/
def NodeType.behavior (t : NodeType) : Behavior where
  purity := t.purity
  setup := t.setup
  evaluate := t.evaluate
  inputTypes := t.inputTypes

/-! ## 2. From a blueprint -/

namespace Blueprint

/-- The out links of a node that is taken to be of type `t`. -/
def resolveOutLinks (b : Blueprint) (n : Node) (t : NodeType) : Resolved (List OutLink) := do
  let perOutput ← Traced.each
    (fun (output : String × DeclaredPin) => do
      let destinations ← b.resolveOutput n output.1 output.2
      return destinations.map fun d => OutLink.mk output.1 d)
    t.outputs.entries
  return perOutput.flatten

theorem value_resolveOutLinks (b : Blueprint) (n : Node) (t : NodeType) :
    (b.resolveOutLinks n t).value = t.outputs.entries.flatMap fun e =>
      (b.resolveOutput n e.1 e.2).value.map (OutLink.mk e.1) := by
  simp [resolveOutLinks, List.flatMap]

theorem trace_resolveOutLinks (b : Blueprint) (n : Node) (t : NodeType) :
    (b.resolveOutLinks n t).trace = t.outputs.entries.flatMap fun e =>
      (b.resolveOutput n e.1 e.2).trace := by
  simp [resolveOutLinks]

/-- The out links of a node. -/
def outLinks (b : Blueprint) (n : Node) : List OutLink :=
  (b.resolveOutLinks n (b.nodeType n)).value

/-- A node for the runtime, with the diagnostics on the way. -/
def resolveNode (b : Blueprint) (n : Node) : Resolved RuntimeNode := do
  let t ← b.resolveNodeType n
  let outLinks ← b.resolveOutLinks n t
  return { id := n.id, behavior := t.behavior, outLinks }

/-- A node for the runtime. -/
def runtimeNode (b : Blueprint) (n : Node) : RuntimeNode := (b.resolveNode n).value

end Blueprint

/-! ## 3. Regrouping -/

/-- Adds a destination to the group of its output. -/
def OutLink.addTo (groups : OrderedMap (List Destination)) (l : OutLink) :
    OrderedMap (List Destination) :=
  groups.insert l.pinKey ((groups.get? l.pinKey).getD [] ++ [l.destination])

/-- The destinations of every output that has any, by the output's key. -/
def RuntimeNode.outLinksByPin (n : RuntimeNode) : OrderedMap (List Destination) :=
  n.outLinks.foldl OutLink.addTo .empty

/-! ## 4. Written form -/

/-- An out link as an object whose one member is named by the output. -/
def OutLink.toJson (l : OutLink) : Json := .object [(l.pinKey, l.destination.toJson)]

/-- A member that is left out in the absence of a value. -/
def optionalMember (name : String) (v : Option Json) : List (String × Json) :=
  (v.map fun v => (name, v)).toList

/-- A table of input types by pin key. -/
def inputTypesToJson (types : OrderedMap RuntimeType) : Json :=
  .object (types.map RuntimeType.toJson).entries

/-- A node as the runtime takes it. -/
def RuntimeNode.toJson (n : RuntimeNode) : Json :=
  .object
    (optionalMember "id" (n.id.map .string)
      ++ optionalMember "pure" n.behavior.purity
      ++ optionalMember "setup" n.behavior.setup
      ++ optionalMember "evaluate" n.behavior.evaluate
      ++ [("inputTypes", inputTypesToJson n.behavior.inputTypes),
        ("outLinks", .array (n.outLinks.map OutLink.toJson))])

/-- The table of nodes that the runtime starts from. -/
def nodeTableToJson (nodes : OrderedMap RuntimeNode) : Json :=
  .object (nodes.map RuntimeNode.toJson).entries

end Patchbay
