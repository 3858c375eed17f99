/-
# Grounding: what an out link rests on

An out link of a node rests on three records: an output that the node's type declares, the pin
that stands for the output on the node, and a link that starts at the pin.  Each of them names
the next by an id or a key, and authors may leave any of these out.

The link is found by the id of the pin, and a pin without an id has no links.  But the pin is
found by comparing what the node and the output say with what the pin says, and what is missing
on both sides agrees.  A node without an id thus gets the links of a pin that belongs to no node,
and no diagnostic says so; if it had found no pin there would be one.

* `restsOn_of_mem`: every out link rests on such records, where what is missing agrees with what
  is missing;
* `outLinks_grounded_iff`: an out link of a run is grounded in ids and keys that are there exactly
  if its node has an id and its output a key;
* `grounded_of_placed`: so it is if every pin says its node and its key.
-/
import Patchbay.Proofs.Routes

namespace Patchbay

/-! ## 1. The records of one out link -/

namespace Blueprint

/-- The records that an out link of a node rests on: the output declared under its key, a pin
with the node's id and the output's key *or without them as these are*, and a link from the id of
the pin to the destination. -/
structure RestsOn (b : Blueprint) (n : Node) (l : OutLink) (d : DeclaredPin) (p : Pin)
    (link : Link) : Prop where
  declared : ∃ t, b.nodeType? n = some t ∧ t.pins.get? l.pinKey = some d
  output : d.direction = some .output
  pin_mem : p ∈ b.graph.pins.values
  pin_nodeId : p.nodeId = n.id
  pin_key : p.key = d.key
  link_mem : link ∈ b.graph.links.values
  starts : ∃ id, p.id = some id ∧ link.source = some id
  arrives : b.graph.arrival link = l.destination

/-- An out link rests on records that name each other: nothing that was compared is missing. -/
def Grounded (b : Blueprint) (n : Node) (l : OutLink) : Prop :=
  ∃ d p link nodeId key, b.RestsOn n l d p link ∧
    n.id = some nodeId ∧ p.nodeId = some nodeId ∧ d.key = some key ∧ p.key = some key

variable {b : Blueprint} {n : Node} {l : OutLink}

/-- **Every out link rests on an output, a pin and a link.** -/
theorem restsOn_of_mem (h : l ∈ (b.runtimeNode n).outLinks) :
    ∃ d p link, b.RestsOn n l d p link := by
  obtain ⟨d, hd, link, hroute, harrival⟩ := mem_outLinks_iff.mp h
  obtain ⟨t, htype, hpins, houtput⟩ := mem_outputs_iff.mp hd
  obtain ⟨p, hp, hfrom⟩ := mem_routes_iff.mp hroute
  obtain ⟨hpin, hnode, hkey⟩ := of_pinFor? hp
  obtain ⟨hlink, hsource⟩ := mem_linksFrom_iff.mp hfrom
  exact ⟨d, p, link, {
    declared := ⟨t, htype, OrderedMap.get?_eq_some_iff.mpr hpins⟩
    output := houtput
    pin_mem := hpin
    pin_nodeId := hnode
    pin_key := hkey
    link_mem := hlink
    starts := hsource
    arrives := harrival }⟩

/-- There is one output under a key, whatever else an out link rests on. -/
theorem RestsOn.declared_unique {d d' : DeclaredPin} {p p' : Pin} {link link' : Link}
    (h : b.RestsOn n l d p link) (h' : b.RestsOn n l d' p' link') : d = d' := by
  obtain ⟨t, htype, hd⟩ := h.declared
  obtain ⟨t', htype', hd'⟩ := h'.declared
  obtain rfl : t = t' := Option.some.inj (htype.symm.trans htype')
  exact Option.some.inj (hd.symm.trans hd')

/-- All that can be missing is the id of the node and the key of the output. -/
theorem RestsOn.grounded_iff {d : DeclaredPin} {p : Pin} {link : Link}
    (h : b.RestsOn n l d p link) :
    b.Grounded n l ↔ n.id.isSome = true ∧ d.key.isSome = true := by
  constructor
  · rintro ⟨d', p', link', nodeId, key, h', hnode, -, hkey, -⟩
    rw [h.declared_unique h', hnode, hkey]
    exact ⟨rfl, rfl⟩
  · rintro ⟨hnode, hkey⟩
    obtain ⟨nodeId, hnode⟩ := Option.isSome_iff_exists.mp hnode
    obtain ⟨key, hkey⟩ := Option.isSome_iff_exists.mp hkey
    exact ⟨d, p, link, nodeId, key, h, hnode, h.pin_nodeId.trans hnode, hkey,
      h.pin_key.trans hkey⟩

/-- Where every pin says its node and its key nothing can be missing. -/
theorem grounded_of_placed
    (hplaced : ∀ p ∈ b.graph.pins.values, p.nodeId.isSome = true ∧ p.key.isSome = true)
    (h : l ∈ (b.runtimeNode n).outLinks) : b.Grounded n l := by
  obtain ⟨d, p, link, hrests⟩ := restsOn_of_mem h
  obtain ⟨hnode, hkey⟩ := hplaced p hrests.pin_mem
  rw [hrests.pin_nodeId] at hnode
  rw [hrests.pin_key] at hkey
  exact hrests.grounded_iff.mpr ⟨hnode, hkey⟩

end Blueprint

/-! ## 2. Runs -/

/-- **An out link is grounded exactly if its node has an id and its output a key.**  A run's table
has the nodes of the graph under their keys and with their ids.  Every out link of one rests on an
output, a pin and a link; and of what is compared to find these nothing is missing exactly if the
node says its id and the output its key. -/
theorem outLinks_grounded_iff (p : Project) (s : Settings) :
    let b := p.blueprint
    let r := (b.run s).value
    ∀ e ∈ r.nodes.entries, ∃ n, b.graph.nodes.get? e.1 = some n ∧ e.2.id = n.id ∧
      ∀ l ∈ e.2.outLinks, ∃ d pin link, b.RestsOn n l d pin link ∧
        (b.Grounded n l ↔ n.id.isSome = true ∧ d.key.isSome = true) := by
  intro b r e he
  have hnodes : r.nodes.entries = b.graph.nodes.entries.map fun e => (e.1, b.runtimeNode e.2) :=
    (congrArg (fun r : Report => r.nodes.entries) (b.value_run s)).trans b.entries_nodes_report
  rw [hnodes] at he
  obtain ⟨⟨key, n⟩, hn, rfl⟩ := List.mem_map.mp he
  refine ⟨n, OrderedMap.get?_eq_some_iff.mpr hn, rfl, fun l hl => ?_⟩
  obtain ⟨d, pin, link, h⟩ := Blueprint.restsOn_of_mem hl
  exact ⟨d, pin, link, h, h.grounded_iff⟩

namespace Example

/-- The output of `a` feeds `b`, and every record says its id and its key. -/
def wired : Project :=
  let graph := (Patch.named "graph")
    |>.addNode (.ofType "a" "source") |>.addPin (.onNode "a.out" "a" "out")
    |>.addPin (.onNode "b.in" "b" "in") |>.addLink (.between "l" "a.out" "b.in")
  (({} : Project).addPatch graph)
    |>.addNodeType "source" (({} : NodeType).declare (.output "out" .number))

/-- The one out link of `wired` is grounded. -/
theorem wired_is_grounded :
    let b := wired.blueprint
    let l : OutLink := ⟨"out", .inputOf "b" "in"⟩
    ∃ e ∈ (b.run {}).value.nodes.entries, e.1 = "a" ∧ e.2.outLinks = [l] ∧
      b.Grounded (.ofType "a" "source") l := by
  intro b l
  have hentry : ("a", b.runtimeNode (.ofType "a" "source")) ∈ (b.run {}).value.nodes.entries := by
    decide +kernel
  have houtLinks : (b.runtimeNode (.ofType "a" "source")).outLinks = [l] := by decide +kernel
  have hnode : b.graph.nodes.get? "a" = some (.ofType "a" "source") := by decide +kernel
  have htype : b.nodeType? (.ofType "a" "source") =
      some (({} : NodeType).declare (.output "out" .number)) := by decide +kernel
  obtain ⟨n, hn, -, hl⟩ := outLinks_grounded_iff wired {} _ hentry
  obtain rfl : n = .ofType "a" "source" := Option.some.inj (hn.symm.trans hnode)
  obtain ⟨d, pin, link, hrests, hgrounded⟩ := hl l (by rw [houtLinks]; exact List.mem_singleton_self l)
  obtain ⟨t, ht, hd⟩ := hrests.declared
  obtain rfl := Option.some.inj (htype.symm.trans ht)
  obtain rfl : DeclaredPin.output "out" .number = d := Option.some.inj hd
  exact ⟨_, hentry, rfl, houtLinks, hgrounded.mpr ⟨rfl, rfl⟩⟩

/-- Two authors left out an id: the node that is filed as `a` has none, and the pin `stray` does
not say its node. -/
def stray : Project :=
  let graph : Patch :=
    { id := some "graph"
      nodes := .ofList [("a", { typeId := some "source" })]
      pins := .ofList [("stray", { id := some "stray", key := some "out" }),
        ("b.in", .onNode "b.in" "b" "in")]
      links := .ofList [("l", .between "l" "stray" "b.in")] }
  (({} : Project).addPatch graph)
    |>.addNodeType "source" (({} : NodeType).declare (.output "out" .number))

/-- The node gets the link of the pin, and no diagnostic speaks of either. -/
theorem stray_pin_is_taken :
    let r := (stray.blueprint.run {}).value
    (¬ ∀ e ∈ r.nodes.entries, ∀ l ∈ e.2.outLinks, e.2.id.isSome = true) ∧
      (r.nodes.get? "a").map RuntimeNode.outLinks = some [⟨"out", .inputOf "b" "in"⟩] ∧
      r.diagnostics = [] := by
  decide +kernel

end Example
end Patchbay
