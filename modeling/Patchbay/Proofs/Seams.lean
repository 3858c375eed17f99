/-
# Seams: where one patch ends and the next begins does not show

A project may be cut into patches in many ways.  Several patches in a row can be replaced by a
single one that holds what they make together (`Patch.Joins`), and the graph of the project has
the same nodes, pins and links in the same order.  This is associativity of writing over with
positions kept: what the parts make together may be settled before it is written, even where a
key of the parts is written by patches before and behind them, too.

* `ofList_flatMap_join`, `view_join`: the entries of all patches make the same map, with the
  parts or with the whole;
* `Blueprint.report_congr`: a report sees the node types and the nodes, pins and links of the
  graph, and nothing else;
* `run_join`: a run of either project gives the same table and the same diagnostics.
-/
import Patchbay.Proofs.Layers
import Patchbay.Report

namespace Patchbay

/-! ## 1. Joining patches -/

/-- The patch holds the nodes, pins and links that the parts make together.  Its id and its
other members are its own. -/
structure Patch.Joins (whole : Patch) (parts : List Patch) : Prop where
  nodes : whole.nodes = (Graph.addPatches {} parts).value.nodes
  pins : whole.pins = (Graph.addPatches {} parts).value.pins
  links : whole.links = (Graph.addPatches {} parts).value.links

/-- The entries of all patches make the same map if some patches in a row are replaced by one
that holds what they make together. -/
theorem ofList_flatMap_join {α : Type} {layer : Patch → OrderedMap α} {whole : Patch}
    {parts : List Patch} (hwhole : layer whole = .ofList (parts.flatMap fun p => (layer p).entries))
    (before after : List Patch) :
    OrderedMap.ofList ((before ++ whole :: after).flatMap fun p => (layer p).entries) =
      .ofList ((before ++ parts ++ after).flatMap fun p => (layer p).entries) := by
  simp only [List.flatMap_append, List.flatMap_cons, OrderedMap.ofList_append,
    OrderedMap.insertAll_append, hwhole, OrderedMap.insertAll_ofList]

/-- The same for a map of the graph that every patch writes its own layer into. -/
theorem view_join {α : Type} (view : Graph → OrderedMap α) (layer : Patch → OrderedMap α)
    (hstep : ∀ g p, view (Graph.addPatch g p).value = (view g).insertAll (layer p).entries)
    (hempty : view {} = .empty) {p q : Project} {before parts after : List Patch} {whole : Patch}
    (hparts : p.patches.values = before ++ parts ++ after)
    (hjoined : q.patches.values = before ++ whole :: after)
    (hwhole : layer whole = view (Graph.addPatches {} parts).value) :
    view (Graph.ofProject q).value = view (Graph.ofProject p).value := by
  have hadd : ∀ ps, view (Graph.addPatches {} ps).value =
      .ofList (ps.flatMap fun p => (layer p).entries) := by
    intro ps
    rw [Graph.view_addPatches hstep, hempty]
    rfl
  calc view (Graph.ofProject q).value
    _ = view (Graph.addPatches {} q.patches.values).value := rfl
    _ = .ofList ((before ++ whole :: after).flatMap fun p => (layer p).entries) := by
      rw [hadd, hjoined]
    _ = .ofList ((before ++ parts ++ after).flatMap fun p => (layer p).entries) :=
      ofList_flatMap_join (hwhole.trans (hadd parts)) before after
    _ = view (Graph.addPatches {} p.patches.values).value := by rw [hadd, hparts]

/-! ## 2. What a report sees -/

/-- A report sees the node types and the nodes, pins and links of the graph. -/
theorem Blueprint.report_congr {a b : Blueprint} (htypes : a.nodeTypes = b.nodeTypes)
    (hnodes : a.graph.nodes = b.graph.nodes) (hpins : a.graph.pins = b.graph.pins)
    (hlinks : a.graph.links = b.graph.links) : a.report = b.report := by
  obtain ⟨types, ⟨nodes, pins, links, extra⟩⟩ := a
  obtain ⟨types', ⟨nodes', pins', links', extra'⟩⟩ := b
  dsimp only at htypes hnodes hpins hlinks
  subst htypes hnodes hpins hlinks
  rfl

/-! ## 3. Runs -/

/-- **Patch boundaries are invisible to a run.**  If some patches in a row are replaced by one
that holds what they make together, a run gives the same table, record by record and in the
same order, and the same diagnostics. -/
theorem run_join (p q : Project) (s : Settings) {before parts after : List Patch} {whole : Patch}
    (hparts : p.patches.values = before ++ parts ++ after)
    (hjoined : q.patches.values = before ++ whole :: after) (hwhole : whole.Joins parts)
    (htypes : q.nodeTypes = p.nodeTypes) :
    (q.blueprint.run s).value.nodes = (p.blueprint.run s).value.nodes ∧
      (q.blueprint.run s).value.diagnostics = (p.blueprint.run s).value.diagnostics := by
  have hnodes : q.blueprint.graph.nodes = p.blueprint.graph.nodes :=
    view_join Graph.nodes Patch.nodes Graph.nodes_addPatch rfl hparts hjoined hwhole.nodes
  have hpins : q.blueprint.graph.pins = p.blueprint.graph.pins :=
    view_join Graph.pins Patch.pins Graph.pins_addPatch rfl hparts hjoined hwhole.pins
  have hlinks : q.blueprint.graph.links = p.blueprint.graph.links :=
    view_join Graph.links Patch.links Graph.links_addPatch rfl hparts hjoined hwhole.links
  have hreport : q.blueprint.report = p.blueprint.report :=
    Blueprint.report_congr htypes hnodes hpins hlinks
  rw [Blueprint.value_run, Blueprint.value_run, hreport]
  exact ⟨rfl, rfl⟩

namespace Example

/-- Sends the output of `a` to a pin of `b` that later patches write again. -/
def base : Patch := (Patch.named "base")
  |>.addNode (.ofType "a" "source") |>.addPin (.onNode "a.out" "a" "out")
  |>.addPin (.onNode "b.in" "b" "old") |>.addLink (.between "l1" "a.out" "b.in")

/-- Writes the pin of `base` again, and what `right` and `tip` write once more. -/
def left : Patch := (Patch.named "left")
  |>.addNode (.ofType "b" "gone") |>.addPin (.onNode "b.in" "b" "in")
  |>.addLink (.between "l2" "a.out" "b.in")

/-- Writes the node of `left` and the link of `base` again. -/
def right : Patch := (Patch.named "right")
  |>.addNode (.ofType "b" "sink") |>.addPin (.onNode "c.in" "c" "in")
  |>.addLink (.between "l1" "a.out" "c.in")

/-- Writes the link of `left` again, towards a pin that is not there. -/
def tip : Patch := (Patch.named "tip")
  |>.addNode (.ofType "c" "sink") |>.addLink (.between "l2" "a.out" "nowhere")

/-- What `left` and `right` make together. -/
def middle : Patch :=
  let g := (Graph.addPatches {} [left, right]).value
  { id := some "middle", nodes := g.nodes, pins := g.pins, links := g.links }

/-- A project of these patches and the types of their nodes. -/
def withTypes (patches : List Patch) : Project :=
  patches.foldl Project.addPatch {}
    |>.addNodeType "source" (({} : NodeType).declare (.output "out" .number))
    |>.addNodeType "sink" (({} : NodeType).declare (.input "in" .number))

theorem run_with_middle :
    let cut := withTypes [base, left, right, tip]
    let sewn := withTypes [base, middle, tip]
    (sewn.blueprint.run {}).value.nodes = (cut.blueprint.run {}).value.nodes ∧
      (sewn.blueprint.run {}).value.diagnostics = (cut.blueprint.run {}).value.diagnostics ∧
      (cut.blueprint.run {}).value.diagnostics = [.danglingLink "l2" (some "nowhere")] := by
  intro cut sewn
  have hsame := @run_join cut sewn {} [base] [left, right] [tip] middle (by decide +kernel)
    (by decide +kernel) ⟨rfl, rfl, rfl⟩ rfl
  exact ⟨hsame.1, hsame.2, by decide +kernel⟩

end Example

end Patchbay
