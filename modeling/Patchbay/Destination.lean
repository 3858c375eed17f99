/-
# Destinations

Where the values of an output go: a node and the key of one of its inputs.  Both parts may be
missing, and a destination without either is what stands for a link that leads nowhere.
-/
import Patchbay.Document.Field

namespace Patchbay

/-- The receiving end of a link. -/
structure Destination where
  nodeId : Option String := none
  key : Option String := none
  deriving DecidableEq, Repr, Inhabited

namespace Destination

/-- The input of a key at a node. -/
def inputOf (nodeId key : String) : Destination := ⟨some nodeId, some key⟩

/-- The destination that a pin stands for. -/
def ofPin (p : Pin) : Destination := ⟨p.nodeId, p.key⟩

/-- Whether both parts are missing. -/
def isEmpty (d : Destination) : Bool := d.nodeId.isNone && d.key.isNone

/-- The fields of a destination: texts as they are. -/
def fields : List (Field Destination) :=
  [.tagged "nodeId" id id Destination.nodeId fun d nodeId => { d with nodeId },
    .tagged "key" id id Destination.key fun d key => { d with key }]

/-- Reads a destination. -/
def ofJson : Json → Logged (Verdict Destination) := Field.readRecord .destination fields {}

/-- Writes a destination. -/
def toJson : Destination → Json := Field.writeRecord fields

end Destination
end Patchbay
