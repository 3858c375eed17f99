/-
# The document format

The tables of fields of all records, and with them the functions `ofJson` and `toJson` of each.
`ofJson` gives the reason if a value holds no such record; `toJson` writes the fields in the
order of the table, leaving absent options out and always writing maps and link ends.

Most records may also stand as an array.  A patch may not, because it keeps the members that it
has no field for, and neither may a project.
-/
import Patchbay.Document.Field

namespace Patchbay

/-! ## 1. Records without maps -/

namespace Node

/-- The fields of a node. -/
def fields : List (Field Node) :=
  [.ident "id" Node.id fun n id => { n with id },
    .ident "typeId" Node.typeId fun n typeId => { n with typeId }]

/-- Reads a node. -/
def ofJson : Json → Logged (Verdict Node) := Field.readRecord .node fields {}

/-- Writes a node. -/
def toJson : Node → Json := Field.writeRecord fields

end Node

namespace Pin

/-- The fields of a pin. -/
def fields : List (Field Pin) :=
  [.ident "id" Pin.id fun p id => { p with id },
    .ident "nodeId" Pin.nodeId fun p nodeId => { p with nodeId },
    .ident "key" Pin.key fun p key => { p with key }]

/-- Reads a pin. -/
def ofJson : Json → Logged (Verdict Pin) := Field.readRecord .pin fields {}

/-- Writes a pin. -/
def toJson : Pin → Json := Field.writeRecord fields

end Pin

namespace Link

/-- The fields of a link. -/
def fields : List (Field Link) :=
  [.ident "id" Link.id fun l id => { l with id },
    .ends "pins" Link.ends fun l ends => { l with ends }]

/-- Reads a link. -/
def ofJson : Json → Logged (Verdict Link) := Field.readRecord .link fields {}

/-- Writes a link. -/
def toJson : Link → Json := Field.writeRecord fields

end Link

namespace DeclaredPin

/-- The fields of a declared pin. -/
def fields : List (Field DeclaredPin) :=
  [.ident "key" DeclaredPin.key fun p key => { p with key },
    .tagged "direction" Direction.ofTag Direction.tag DeclaredPin.direction
      fun p direction => { p with direction },
    .tagged "type" PinType.ofTag PinType.tag DeclaredPin.type fun p type => { p with type }]

/-- Reads a declared pin. -/
def ofJson : Json → Logged (Verdict DeclaredPin) := Field.readRecord .declaredPin fields {}

/-- Writes a declared pin. -/
def toJson : DeclaredPin → Json := Field.writeRecord fields

end DeclaredPin

/-! ## 2. Records with maps -/

namespace NodeType

/-- The fields of a node type. -/
def fields : List (Field NodeType) :=
  [.ident "id" NodeType.id fun t id => { t with id },
    .payload "pure" NodeType.purity fun t purity => { t with purity },
    .payload "setup" NodeType.setup fun t setup => { t with setup },
    .payload "evaluate" NodeType.evaluate fun t evaluate => { t with evaluate },
    .records "pins" DeclaredPin.ofJson DeclaredPin.toJson NodeType.pins
      fun t pins => { t with pins }]

/-- Reads a node type. -/
def ofJson : Json → Logged (Verdict NodeType) := Field.readRecord .nodeType fields {}

/-- Writes a node type. -/
def toJson : NodeType → Json := Field.writeRecord fields

end NodeType

namespace Patch

/-- The fields of a patch. -/
def fields : List (Field Patch) :=
  [.ident "id" Patch.id fun p id => { p with id },
    .records "nodes" Node.ofJson Node.toJson Patch.nodes fun p nodes => { p with nodes },
    .records "pins" Pin.ofJson Pin.toJson Patch.pins fun p pins => { p with pins },
    .records "links" Link.ofJson Link.toJson Patch.links fun p links => { p with links }]

/-- Reads a patch, keeping the members that are no fields. -/
def ofJson : Json → Logged (Verdict Patch)
  | .object members => Field.readMembers fields (fun p m => p.addExtra m.1 m.2) members {}
  | other => return .error (.mismatch other.outline .patch)

/-- Writes a patch, the other members behind its fields. -/
def toJson (p : Patch) : Json := .object (Field.writeMembers fields p ++ p.extra.entries)

end Patch

namespace Project

/-- The fields of a project. -/
def fields : List (Field Project) :=
  [.records "patches" Patch.ofJson Patch.toJson Project.patches
      fun p patches => { p with patches },
    .records "nodeTypes" NodeType.ofJson NodeType.toJson Project.nodeTypes
      fun p nodeTypes => { p with nodeTypes }]

/-- Writes a project. -/
def toJson : Project → Json := Field.writeRecord fields

end Project

/-! ## 3. Tags by themselves -/

/-- Reads a direction that stands by itself. -/
def Direction.ofJson : Json → Verdict Direction
  | .string s => .ok (.ofTag s)
  | v => .error (.mismatch v.outline .text)

/-- Writes a direction. -/
def Direction.toJson (d : Direction) : Json := .string d.tag

/-- Reads a type that stands by itself. -/
def PinType.ofJson : Json → Verdict PinType
  | .string s => .ok (.ofTag s)
  | v => .error (.mismatch v.outline .text)

/-- Writes a type. -/
def PinType.toJson (p : PinType) : Json := .string p.tag

end Patchbay
