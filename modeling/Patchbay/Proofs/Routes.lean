/-
# Routes: which way values go

A run looks things up one after another and stands in for what it does not find.  This file
says what comes out of that in terms of the graph alone.  An end of a link names a pin or it
does not (`Graph.pinNamed?`); so a link has a place where it starts (`Graph.origin?`), a
destination where it arrives (`Graph.arrival`), and it may dangle (`Graph.Dangles`).

* `value_deliver`, `trace_deliver`: a link arrives where it says, and leaves a diagnostic
  exactly if it dangles;
* `value_resolveOutput`, `trace_resolveOutput`: the same for the links of one output
  (`Blueprint.routes`);
* `outLinks_runtimeNode`: the out links of a node, output by output and link by link;
* `of_pinFor?`, `mem_linksFrom_iff`, `mem_routes_iff`, `mem_outLinks_iff`: the records that were
  found on the way to one of them.

Everything that is proved about runs goes through these.
-/
import Patchbay.Report

namespace Patchbay

/-! ## 1. The ends of a link -/

namespace Graph

/-- The pin that an end of a link names, if the graph has it. -/
def pinNamed? (g : Graph) (id : Option String) : Option Pin := id.bind g.pins.get?

/-- Where a link starts: the node and the key of the pin at its first end, if both are there. -/
def origin? (g : Graph) (l : Link) : Option (String × String) :=
  (g.pinNamed? l.source).bind fun p =>
    p.nodeId.bind fun nodeId => p.key.map fun key => (nodeId, key)

/-- Where a link arrives: the node and the key of the pin at its second end, and the empty
destination if there is no such pin. -/
def arrival (g : Graph) (l : Link) : Destination :=
  match g.pinNamed? l.destination with
  | some p => ⟨p.nodeId, p.key⟩
  | none => {}

/-- The second end of the link is missing, or names no pin of the graph. -/
def Dangles (g : Graph) (l : Link) : Prop :=
  ∀ id, l.destination = some id → id ∉ g.pins.keys

theorem pinNamed?_eq_some_iff {g : Graph} {id : Option String} {p : Pin} :
    g.pinNamed? id = some p ↔ ∃ key, id = some key ∧ (key, p) ∈ g.pins.entries := by
  simp [pinNamed?, Option.bind_eq_some_iff, OrderedMap.get?_eq_some_iff]

theorem dangles_iff {g : Graph} {l : Link} :
    g.Dangles l ↔ g.pinNamed? l.destination = none := by
  unfold Dangles pinNamed?
  cases l.destination with
  | none => simp
  | some id => simp [OrderedMap.get?_eq_none_iff]

instance (g : Graph) (l : Link) : Decidable (g.Dangles l) := decidable_of_iff _ dangles_iff.symm

theorem origin?_eq_some_iff {g : Graph} {l : Link} {nodeId key : String} :
    g.origin? l = some (nodeId, key) ↔
      ∃ p, g.pinNamed? l.source = some p ∧ p.nodeId = some nodeId ∧ p.key = some key := by
  simp [origin?, Option.bind_eq_some_iff]

end Graph

/-! ## 2. One link and one output -/

namespace Blueprint

/-- The links that carry the values of one output of a node. -/
def routes (b : Blueprint) (owner : Node) (declared : DeclaredPin) : List Link :=
  match b.pinFor? owner declared with
  | some p => b.linksFrom p
  | none => []

/-- The pin for an output has the node's id and the output's key, or lacks them as these do. -/
theorem of_pinFor? {b : Blueprint} {owner : Node} {declared : DeclaredPin} {p : Pin}
    (h : b.pinFor? owner declared = some p) :
    p ∈ b.graph.pins.values ∧ p.nodeId = owner.id ∧ p.key = declared.key :=
  ⟨List.mem_of_find?_eq_some h, by simpa using List.find?_some h⟩

theorem mem_linksFrom_iff {b : Blueprint} {p : Pin} {l : Link} :
    l ∈ b.linksFrom p ↔ l ∈ b.graph.links.values ∧ ∃ id, p.id = some id ∧ l.source = some id := by
  unfold linksFrom
  cases p.id <;> simp

theorem mem_routes_iff {b : Blueprint} {owner : Node} {declared : DeclaredPin} {l : Link} :
    l ∈ b.routes owner declared ↔ ∃ p, b.pinFor? owner declared = some p ∧ l ∈ b.linksFrom p := by
  unfold routes
  cases b.pinFor? owner declared <;> simp

/-- The diagnostic of a link that ends at no pin. -/
def dangling (l : Link) : Diagnostic := .danglingLink (l.id.getD "") l.destination

theorem destination?_eq (b : Blueprint) (l : Link) :
    b.destination? l = (b.graph.pinNamed? l.destination).map .ofPin := rfl

/-- A link arrives where its second end says. -/
theorem value_deliver (b : Blueprint) (l : Link) :
    (b.deliver l).value = b.graph.arrival l := by
  unfold Graph.arrival
  cases h : b.graph.pinNamed? l.destination with
  | none => rw [deliver_of_none (by rw [destination?_eq, h]; rfl)]
  | some p => rw [deliver_of_some (d := .ofPin p) (by rw [destination?_eq, h]; rfl)]; rfl

/-- A link leaves a diagnostic exactly if it dangles. -/
theorem trace_deliver (b : Blueprint) (l : Link) :
    (b.deliver l).trace = if b.graph.Dangles l then [dangling l] else [] := by
  split
  case isTrue h =>
    rw [deliver_of_none (by rw [destination?_eq, Graph.dangles_iff.mp h]; rfl)]
    rfl
  case isFalse h =>
    obtain ⟨p, hp⟩ := Option.ne_none_iff_exists'.mp fun e => h (Graph.dangles_iff.mpr e)
    rw [deliver_of_some (d := .ofPin p) (by rw [destination?_eq, hp]; rfl)]

theorem flatMap_trace_deliver (b : Blueprint) (ls : List Link) :
    (ls.flatMap fun l => (b.deliver l).trace) =
      (ls.filter fun l => b.graph.Dangles l).map dangling := by
  induction ls with
  | nil => rfl
  | cons l rest ih =>
    rw [List.flatMap_cons, ih, trace_deliver, List.filter_cons]
    by_cases h : b.graph.Dangles l <;> simp [h]

/-- The destinations of an output are where its links arrive. -/
theorem value_resolveOutput (b : Blueprint) (n : Node) (pinKey : String) (d : DeclaredPin) :
    (b.resolveOutput n pinKey d).value = (b.routes n d).map b.graph.arrival := by
  unfold routes
  cases h : b.pinFor? n d with
  | none => rw [resolveOutput_of_none h]; rfl
  | some p => simp [resolveOutput_of_some h, value_deliver]

/-- An output without a pin leaves one diagnostic, and any other one for each link that
dangles. -/
theorem trace_resolveOutput (b : Blueprint) (n : Node) (pinKey : String) (d : DeclaredPin) :
    (b.resolveOutput n pinKey d).trace =
      if b.pinFor? n d = none then [.missingPinInstance n.label pinKey]
      else ((b.routes n d).filter fun l => b.graph.Dangles l).map dangling := by
  unfold routes
  cases h : b.pinFor? n d with
  | none => rw [resolveOutput_of_none h, if_pos rfl]
  | some p =>
    rw [resolveOutput_of_some h, Traced.trace_each, flatMap_trace_deliver, if_neg (by simp)]

/-! ## 3. One node and the whole table -/

end Blueprint

/-- The out links of a table, node by node. -/
def Report.outLinks (r : Report) : List OutLink := r.nodes.values.flatMap RuntimeNode.outLinks

namespace Blueprint

/-- The outputs of a node are those that its type declares, if the project has the type. -/
theorem mem_outputs_iff {b : Blueprint} {n : Node} {key : String} {d : DeclaredPin} :
    (key, d) ∈ (b.nodeType n).outputs.entries ↔
      ∃ t, b.nodeType? n = some t ∧ (key, d) ∈ t.pins.entries ∧ d.direction = some .output := by
  unfold nodeType
  cases b.nodeType? n with
  | none => simp [NodeType.outputs, NodeType.pinsTowards]
  | some t => simp [NodeType.outputs, NodeType.pinsTowards, DeclaredPin.hasDirection]

theorem behavior_runtimeNode (b : Blueprint) (n : Node) :
    (b.runtimeNode n).behavior = (b.nodeType n).behavior := by
  rw [← value_resolveNodeType]
  rfl

/-- A node has one out link for each link that carries the values of one of its outputs. -/
theorem outLinks_runtimeNode (b : Blueprint) (n : Node) :
    (b.runtimeNode n).outLinks = (b.nodeType n).outputs.entries.flatMap fun e =>
      ((b.routes n e.2).map b.graph.arrival).map (OutLink.mk e.1) := by
  have hvalue : (b.runtimeNode n).outLinks =
      (b.resolveOutLinks n (b.resolveNodeType n).value).value := rfl
  rw [hvalue, value_resolveNodeType, value_resolveOutLinks]
  simp only [value_resolveOutput]

theorem mem_outLinks_iff {b : Blueprint} {n : Node} {l : OutLink} :
    l ∈ (b.runtimeNode n).outLinks ↔ ∃ d, (l.pinKey, d) ∈ (b.nodeType n).outputs.entries ∧
      ∃ link ∈ b.routes n d, b.graph.arrival link = l.destination := by
  rw [outLinks_runtimeNode, List.mem_flatMap]
  constructor
  · rintro ⟨⟨key, d⟩, hd, hl⟩
    obtain ⟨dest, hdest, rfl⟩ := List.mem_map.mp hl
    obtain ⟨link, hlink, rfl⟩ := List.mem_map.mp hdest
    exact ⟨d, hd, link, hlink, rfl⟩
  · rintro ⟨d, hd, link, hlink, hdest⟩
    refine ⟨(l.pinKey, d), hd, List.mem_map.mpr ⟨l.destination, ?_, rfl⟩⟩
    exact List.mem_map.mpr ⟨link, hlink, hdest⟩

theorem entries_nodes_report (b : Blueprint) :
    b.report.nodes.entries = b.graph.nodes.entries.map fun e => (e.1, b.runtimeNode e.2) := by
  rw [nodes_report, OrderedMap.entries_map]

theorem trace_resolveNode (b : Blueprint) (n : Node) :
    (b.resolveNode n).trace = (b.resolveNodeType n).trace ++
      (b.nodeType n).outputs.entries.flatMap fun e => (b.resolveOutput n e.1 e.2).trace := by
  have htrace : (b.resolveNode n).trace = (b.resolveNodeType n).trace ++
      ((b.resolveOutLinks n (b.resolveNodeType n).value).trace ++ []) := rfl
  rw [htrace, List.append_nil, value_resolveNodeType, trace_resolveOutLinks]

theorem trace_resolveNodeType (b : Blueprint) (n : Node) :
    (b.resolveNodeType n).trace =
      if b.nodeType? n = none then [.missingNodeType n.label n.typeId] else [] := by
  unfold resolveNodeType
  cases b.nodeType? n <;> simp

end Blueprint
end Patchbay
