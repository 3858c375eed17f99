/-
# The merged graph

`Graph` is what the patches of a project make together.  They are laid over each other in
document order.  A later patch that writes to a key of an earlier one replaces the whole
record and leaves its position, and the log says so.  The other members of patches are laid
over each other one level deeper: two objects are combined member by member.  A patch's id is
its own and never part of the graph.

* `value_overlay`, `trace_overlay`: what one layer over another gives, and which keys it
  overrides;
* `addPatches_append`: patches may be laid over a graph in any number of goes.
-/
import Patchbay.Document.Basic
import Patchbay.Log

namespace Patchbay

/-- The nodes, pins and links of several patches, and their other members. -/
structure Graph where
  nodes : OrderedMap Node := .empty
  pins : OrderedMap Pin := .empty
  links : OrderedMap Link := .empty
  extra : OrderedMap Json := .empty
  deriving DecidableEq, Repr, Inhabited

/-! ## 1. One layer over another -/

/-- Lays records over others, with a log entry for each key that was there already. -/
def overlay {α : Type} (patch : Option String) (entity : Entity) (below above : OrderedMap α) :
    Logged (OrderedMap α) := do
  Traced.notes ((above.keys.filter below.contains).map (.overridden patch entity))
  return below.insertAll above.entries

/-- Lays a value over another: the members of an object over those of an object, anything else
over all of it. -/
def Json.overlay : (below above : Json) → Json
  | .object below, .object above => .object (Entries.placeAll below above)
  | _, above => above

/-- Lays one member over others. -/
def overlayMember (below : OrderedMap Json) (m : String × Json) : OrderedMap Json :=
  below.insert m.1 (match below.get? m.1 with
    | some v => v.overlay m.2
    | none => m.2)

/-- Lays members over others, except a patch's id. -/
def overlayExtra (below above : OrderedMap Json) : OrderedMap Json :=
  (above.entries.filter fun m => m.1 ≠ "id").foldl overlayMember below

@[simp] theorem value_overlay {α : Type} (patch : Option String) (entity : Entity)
    (below above : OrderedMap α) :
    (overlay patch entity below above).value = below.insertAll above.entries := rfl

@[simp] theorem trace_overlay {α : Type} (patch : Option String) (entity : Entity)
    (below above : OrderedMap α) :
    (overlay patch entity below above).trace =
      (above.keys.filter below.contains).map (.overridden patch entity) := by
  simp [overlay]

/-! ## 2. Patches over a graph -/

namespace Graph

/-- Lays a patch over the graph. -/
def addPatch (g : Graph) (p : Patch) : Logged Graph := do
  let nodes ← overlay p.id .node g.nodes p.nodes
  let pins ← overlay p.id .pin g.pins p.pins
  let links ← overlay p.id .link g.links p.links
  return { nodes, pins, links, extra := overlayExtra g.extra p.extra }

theorem nodes_addPatch (g : Graph) (p : Patch) :
    (g.addPatch p).value.nodes = g.nodes.insertAll p.nodes.entries := rfl

theorem pins_addPatch (g : Graph) (p : Patch) :
    (g.addPatch p).value.pins = g.pins.insertAll p.pins.entries := rfl

theorem links_addPatch (g : Graph) (p : Patch) :
    (g.addPatch p).value.links = g.links.insertAll p.links.entries := rfl

theorem extra_addPatch (g : Graph) (p : Patch) :
    (g.addPatch p).value.extra = overlayExtra g.extra p.extra := rfl

/-- Lays patches over the graph, first to last. -/
def addPatches (g : Graph) : List Patch → Logged Graph
  | [] => return g
  | p :: ps => do
    let grown ← g.addPatch p
    grown.addPatches ps

/-- The graph of a project. -/
def ofProject (p : Project) : Logged Graph := do
  let g ← addPatches {} p.patches.values
  Traced.note (.merged p.patches.size g.nodes.size g.pins.size g.links.size)
  return g

theorem addPatches_append (g : Graph) (ps qs : List Patch) :
    g.addPatches (ps ++ qs) = g.addPatches ps >>= fun grown => grown.addPatches qs := by
  induction ps generalizing g with
  | nil => simp [addPatches]
  | cons p ps ih => simp [addPatches, ih]

end Graph
end Patchbay
