/-
# The records of a project

A project is authored as patches, each of which contributes nodes, pins and links, and as a
table of node types that the nodes refer to.  Every field is optional, because documents are
edited by hand: what is missing is dealt with where it is looked up.

Records are made either by reading a document or by the builders of section 2, which file a
record under the key that it names itself.
-/
import Patchbay.Document.Tag
import Patchbay.Json.Basic

namespace Patchbay

/-! ## 1. The records -/

/-- An instance of a node type. -/
structure Node where
  id : Option String := none
  typeId : Option String := none
  deriving DecidableEq, Repr, Inhabited

/-- A pin of one node, standing for the pin of that key that the node's type declares. -/
structure Pin where
  id : Option String := none
  nodeId : Option String := none
  key : Option String := none
  deriving DecidableEq, Repr, Inhabited

/-- A directed edge between two pins, which are named by position: source, then destination.
An end that is not a text is kept as a gap. -/
structure Link where
  id : Option String := none
  ends : List (Option String) := []
  deriving DecidableEq, Repr, Inhabited

/-- A pin as a node type declares it. -/
structure DeclaredPin where
  key : Option String := none
  direction : Option Direction := none
  type : Option PinType := none
  deriving DecidableEq, Repr, Inhabited

/-- What nodes of one type have in common: behaviour that is passed on as it is, and pins. -/
structure NodeType where
  id : Option String := none
  purity : Option Json := none
  setup : Option Json := none
  evaluate : Option Json := none
  pins : OrderedMap DeclaredPin := .empty
  deriving DecidableEq, Repr, Inhabited

/-- A part of the graph, with whatever else its author put there. -/
structure Patch where
  id : Option String := none
  nodes : OrderedMap Node := .empty
  pins : OrderedMap Pin := .empty
  links : OrderedMap Link := .empty
  extra : OrderedMap Json := .empty
  deriving DecidableEq, Repr, Inhabited

/-- Patches and the node types that their nodes refer to. -/
structure Project where
  patches : OrderedMap Patch := .empty
  nodeTypes : OrderedMap NodeType := .empty
  deriving DecidableEq, Repr, Inhabited

/-- The pin that a link starts from. -/
def Link.source (l : Link) : Option String := l.ends[0]?.join

/-- The pin that a link leads to. -/
def Link.destination (l : Link) : Option String := l.ends[1]?.join

/-- Whether a pin is declared with this direction. -/
def DeclaredPin.hasDirection (p : DeclaredPin) (d : Direction) : Bool := p.direction = some d

/-! ## 2. Builders -/

/-- A node of a type. -/
def Node.ofType (id typeId : String) : Node := ⟨some id, some typeId⟩

/-- The pin of a node for a key. -/
def Pin.onNode (id nodeId key : String) : Pin := ⟨some id, some nodeId, some key⟩

/-- A link from one pin to another. -/
def Link.between (id source destination : String) : Link :=
  ⟨some id, [some source, some destination]⟩

/-- A declared input. -/
def DeclaredPin.input (key : String) (type : PinType) : DeclaredPin :=
  ⟨some key, some .input, some type⟩

/-- A declared output. -/
def DeclaredPin.output (key : String) (type : PinType) : DeclaredPin :=
  ⟨some key, some .output, some type⟩

namespace NodeType

/-- Sets the mark for types without side effects. -/
def withPurity (t : NodeType) (pure : Bool) : NodeType := { t with purity := some (.bool pure) }

/-- Sets what is run once. -/
def withSetup (t : NodeType) (v : Json) : NodeType := { t with setup := some v }

/-- Sets what is run on every evaluation. -/
def withEvaluate (t : NodeType) (v : Json) : NodeType := { t with evaluate := some v }

/-- Declares a pin under its own key. -/
def declare (t : NodeType) (p : DeclaredPin) : NodeType :=
  { t with pins := t.pins.insert (p.key.getD "") p }

end NodeType

namespace Patch

/-- A patch with nothing in it but its id. -/
def named (id : String) : Patch := { id := some id }

/-- Adds a node under its own id. -/
def addNode (p : Patch) (n : Node) : Patch := { p with nodes := p.nodes.insert (n.id.getD "") n }

/-- Adds a pin under its own id. -/
def addPin (p : Patch) (n : Pin) : Patch := { p with pins := p.pins.insert (n.id.getD "") n }

/-- Adds a link under its own id. -/
def addLink (p : Patch) (l : Link) : Patch := { p with links := p.links.insert (l.id.getD "") l }

/-- Adds a member that is none of the fields of a patch. -/
def addExtra (p : Patch) (key : String) (v : Json) : Patch :=
  { p with extra := p.extra.insert key v }

end Patch

namespace Project

/-- Adds a patch under its own id; one without an id goes under the number of patches there
are. -/
def addPatch (p : Project) (patch : Patch) : Project :=
  { p with patches := p.patches.insert (patch.id.getD (toString p.patches.size)) patch }

/-- Adds a node type. -/
def addNodeType (p : Project) (typeId : String) (t : NodeType) : Project :=
  { p with nodeTypes := p.nodeTypes.insert typeId t }

/-- The node type of an id. -/
def nodeType? (p : Project) (typeId : String) : Option NodeType := p.nodeTypes.get? typeId

end Project
end Patchbay
