/-
# Reordering: independent patches may come in any order

Patches are independent when no two of them write to a common key, and the pins of a project
are set apart when no two of them are of the same node and key (`Project.Independent`).  Then
nothing is overridden, so the graphs of two orders of the patches hold the same entries in
different orders (`Blueprint.Rearranges`).  What is looked up by key is the same in both, and so
is the pin for an output, since only one fits; what is listed is listed in another order.

* `entries_ofList_flatMap`: without a common key, the entries of all patches are kept as they
  stand;
* `Rearranges.pinFor?_eq`, `Rearranges.arrival_eq`: one pin for an output, one destination for a
  link;
* `Rearranges.routes_perm`, `Rearranges.trace_resolveNode_perm`: the links of an output, and the
  diagnostics of a node, in another order;
* `run_perm`: a run gives the same records up to the order in which destinations are listed
  under an output, and the same diagnostics up to their order.
-/
import Patchbay.Proofs.Delivery
import Patchbay.Proofs.Grouping
import Patchbay.Proofs.Seams

namespace Patchbay

open scoped List

/-! ## 1. Entries in another order -/

section Entries

variable {α : Type}

theorem OrderedMap.get?_eq_of_perm {m n : OrderedMap α} (h : m.entries ~ n.entries)
    (key : String) : m.get? key = n.get? key := by
  refine Option.ext fun value => ?_
  rw [get?_eq_some_iff, get?_eq_some_iff]
  exact h.mem_iff

/-- A search that only one item can answer gives it in any order. -/
theorem find?_eq_of_perm {p : α → Bool} {xs ys : List α} (h : xs ~ ys)
    (hone : xs.Pairwise fun a b => ¬ (p a = true ∧ p b = true)) : xs.find? p = ys.find? p := by
  have hlength : (xs.filter p).length ≤ 1 := by
    have hpair : (xs.filter p).Pairwise fun a b => ¬ (p a = true ∧ p b = true) := hone.filter p
    match hf : xs.filter p with
    | [] | [_] => simp
    | a :: b :: rest =>
      have ha : a ∈ xs.filter p := by simp [hf]
      have hb : b ∈ xs.filter p := by simp [hf]
      rw [hf] at hpair
      exact absurd ⟨(List.mem_filter.mp ha).2, (List.mem_filter.mp hb).2⟩
        (List.rel_of_pairwise_cons hpair List.mem_cons_self)
  have hperm : xs.filter p ~ ys.filter p := h.filter p
  rw [← List.head?_filter, ← List.head?_filter]
  match hf : xs.filter p with
  | [] => rw [hf] at hperm; rw [hperm.nil_eq]
  | [a] => rw [hf] at hperm; rw [List.singleton_perm.mp hperm]
  | a :: b :: rest => simp [hf] at hlength

/-- Maps without a common key, written one after another, are kept as they stand. -/
theorem entries_ofList_flatMap {layer : Patch → OrderedMap α} {ps : List Patch}
    (h : ps.Pairwise fun p q => (layer p).keys.Disjoint (layer q).keys) :
    (OrderedMap.ofList (ps.flatMap fun p => (layer p).entries)).entries =
      ps.flatMap fun p => (layer p).entries := by
  refine OrderedMap.entries_ofList ?_
  have hkeys : Entries.keys (ps.flatMap fun p => (layer p).entries) =
      ps.flatMap fun p => (layer p).keys := List.map_flatMap
  rw [hkeys, List.nodup_flatMap]
  exact ⟨fun p _ => (layer p).nodup, h⟩

end Entries

/-! ## 2. Independent patches -/

/-- The two patches write to no common key. -/
structure Patch.Independent (p q : Patch) : Prop where
  nodes : p.nodes.keys.Disjoint q.nodes.keys
  pins : p.pins.keys.Disjoint q.pins.keys
  links : p.links.keys.Disjoint q.links.keys

theorem Patch.Independent.symm {p q : Patch} (h : p.Independent q) : q.Independent p :=
  ⟨h.nodes.symm, h.pins.symm, h.links.symm⟩

instance (p q : Patch) : Decidable (p.Independent q) :=
  decidable_of_iff ((∀ key ∈ p.nodes.keys, key ∉ q.nodes.keys) ∧
    (∀ key ∈ p.pins.keys, key ∉ q.pins.keys) ∧ ∀ key ∈ p.links.keys, key ∉ q.links.keys)
    ⟨fun h => ⟨h.1, h.2.1, h.2.2⟩, fun h => ⟨h.nodes, h.pins, h.links⟩⟩

/-- The node and the key that a pin says, each as it is, even if it is missing. -/
def Pin.place (p : Pin) : Option String × Option String := (p.nodeId, p.key)

/-- No two patches of the project write to a common key, and no two of its pins are of the same
node and key. -/
structure Project.Independent (p : Project) : Prop where
  patches : p.patches.values.Pairwise Patch.Independent
  pins : ((p.patches.values.flatMap fun q => q.pins.values).map Pin.place).Nodup

namespace Blueprint

/-- The two blueprints have the same node types and the same entries in their graphs, in
whatever order, and no two pins are of the same node and key. -/
structure Rearranges (b c : Blueprint) : Prop where
  nodeTypes : b.nodeTypes = c.nodeTypes
  nodes : b.graph.nodes.entries ~ c.graph.nodes.entries
  pins : b.graph.pins.entries ~ c.graph.pins.entries
  links : b.graph.links.entries ~ c.graph.links.entries
  places : (b.graph.pins.values.map Pin.place).Nodup

theorem rearranges_of_perm {p q : Project} (htypes : p.nodeTypes = q.nodeTypes)
    (hperm : p.patches.values ~ q.patches.values) (h : p.Independent) :
    p.blueprint.Rearranges q.blueprint := by
  have hq : q.patches.values.Pairwise Patch.Independent :=
    (hperm.pairwise_iff fun hpq => hpq.symm).mp h.patches
  have hmap : ∀ {α : Type} {layer : Patch → OrderedMap α},
      (∀ p q : Patch, p.Independent q → (layer p).keys.Disjoint (layer q).keys) →
        (OrderedMap.ofList (p.patches.values.flatMap fun p => (layer p).entries)).entries ~
          (OrderedMap.ofList (q.patches.values.flatMap fun p => (layer p).entries)).entries := by
    intro α layer hlayer
    rw [entries_ofList_flatMap (h.patches.imp (hlayer _ _)),
      entries_ofList_flatMap (hq.imp (hlayer _ _))]
    exact hperm.flatMap_right _
  have hnodes := hmap fun _ _ hpq => hpq.nodes
  have hpins := hmap fun _ _ hpq => hpq.pins
  have hlinks := hmap fun _ _ hpq => hpq.links
  rw [← Graph.nodes_ofProject, ← Graph.nodes_ofProject] at hnodes
  rw [← Graph.pins_ofProject, ← Graph.pins_ofProject] at hpins
  rw [← Graph.links_ofProject, ← Graph.links_ofProject] at hlinks
  have hvalues : p.blueprint.graph.pins.values =
      p.patches.values.flatMap fun q => q.pins.values := by
    have hentries := entries_ofList_flatMap (h.patches.imp fun hpq => hpq.pins)
    show (Graph.ofProject p).value.pins.entries.map Prod.snd = _
    rw [Graph.pins_ofProject, hentries, List.map_flatMap]
    rfl
  exact ⟨htypes, hnodes, hpins, hlinks, hvalues ▸ h.pins⟩

/-! ## 3. What a run finds, and what it lists -/

namespace Rearranges

variable {b c : Blueprint}

theorem nodeType_eq (h : b.Rearranges c) (n : Node) : b.nodeType n = c.nodeType n := by
  rw [nodeType, nodeType, nodeType?, nodeType?, h.nodeTypes]

/-- Only one pin can stand for an output. -/
theorem pinFor?_eq (h : b.Rearranges c) (n : Node) (d : DeclaredPin) :
    b.pinFor? n d = c.pinFor? n d := by
  refine find?_eq_of_perm (h.pins.map Prod.snd) ?_
  refine (List.pairwise_map.mp h.places).imp fun {p q} hne hboth => hne ?_
  simp only [decide_eq_true_eq] at hboth
  rw [Pin.place, Pin.place, hboth.1.1, hboth.1.2, hboth.2.1, hboth.2.2]

theorem pinNamed?_eq (h : b.Rearranges c) (id : Option String) :
    b.graph.pinNamed? id = c.graph.pinNamed? id := by
  unfold Graph.pinNamed?
  cases id with
  | none => rfl
  | some id => exact OrderedMap.get?_eq_of_perm h.pins id

theorem arrival_eq (h : b.Rearranges c) (l : Link) : b.graph.arrival l = c.graph.arrival l := by
  rw [Graph.arrival, Graph.arrival, h.pinNamed?_eq]

theorem dangles_iff (h : b.Rearranges c) (l : Link) :
    b.graph.Dangles l ↔ c.graph.Dangles l := by
  rw [Graph.dangles_iff, Graph.dangles_iff, h.pinNamed?_eq]

theorem linksFrom_perm (h : b.Rearranges c) (p : Pin) : b.linksFrom p ~ c.linksFrom p := by
  unfold linksFrom
  cases p.id with
  | none => exact List.Perm.refl _
  | some id => exact (h.links.map Prod.snd).filter _

/-- The links of an output are listed in another order. -/
theorem routes_perm (h : b.Rearranges c) (n : Node) (d : DeclaredPin) :
    b.routes n d ~ c.routes n d := by
  unfold routes
  rw [h.pinFor?_eq]
  cases c.pinFor? n d with
  | none => exact List.Perm.refl _
  | some p => exact h.linksFrom_perm p

theorem arrivals_perm (h : b.Rearranges c) (n : Node) (d : DeclaredPin) :
    (b.routes n d).map b.graph.arrival ~ (c.routes n d).map c.graph.arrival := by
  have harrival : b.graph.arrival = c.graph.arrival := funext h.arrival_eq
  rw [harrival]
  exact (h.routes_perm n d).map _

theorem liveOutputs_eq (h : b.Rearranges c) (n : Node) : b.liveOutputs n = c.liveOutputs n := by
  unfold liveOutputs
  rw [h.nodeType_eq]
  refine congrArg Entries.keys (List.filter_congr fun e _ => ?_)
  have hperm := h.routes_perm n e.2
  have hnil : b.routes n e.2 = [] ↔ c.routes n e.2 = [] :=
    ⟨fun hb => (hb ▸ hperm).nil_eq.symm, fun hc => (hc ▸ hperm).eq_nil⟩
  simp only [ne_eq, hnil]

/-- Under an output the same destinations are listed in another order. -/
theorem under_perm (h : b.Rearranges c) (n : Node) (pinKey : String) :
    (b.runtimeNode n).under pinKey ~ (c.runtimeNode n).under pinKey := by
  by_cases hkey : pinKey ∈ (b.nodeType n).outputs.keys
  · obtain ⟨⟨_, d⟩, hd, rfl⟩ := List.mem_map.mp hkey
    have hd' := h.nodeType_eq n ▸ hd
    rw [under_runtimeNode_of_mem hd, under_runtimeNode_of_mem hd']
    exact h.arrivals_perm n d
  · have hkey' := h.nodeType_eq n ▸ hkey
    rw [under_runtimeNode_of_not_mem hkey, under_runtimeNode_of_not_mem hkey']

theorem trace_resolveOutput_perm (h : b.Rearranges c) (n : Node) (key : String)
    (d : DeclaredPin) : (b.resolveOutput n key d).trace ~ (c.resolveOutput n key d).trace := by
  rw [trace_resolveOutput, trace_resolveOutput, h.pinFor?_eq]
  split
  · exact List.Perm.refl _
  · simp only [h.dangles_iff]
    exact ((h.routes_perm n d).filter _).map _

/-- A node leaves the same diagnostics in another order. -/
theorem trace_resolveNode_perm (h : b.Rearranges c) (n : Node) :
    (b.resolveNode n).trace ~ (c.resolveNode n).trace := by
  have htype : b.nodeType? n = c.nodeType? n := by rw [nodeType?, nodeType?, h.nodeTypes]
  rw [trace_resolveNode, trace_resolveNode, trace_resolveNodeType, trace_resolveNodeType, htype,
    h.nodeType_eq]
  exact List.Perm.append_left _ (List.Perm.flatMap_left _ fun e _ =>
    h.trace_resolveOutput_perm n e.1 e.2)

theorem diagnostics_perm (h : b.Rearranges c) : b.report.diagnostics ~ c.report.diagnostics := by
  have htypes : b.typeDiagnostics = c.typeDiagnostics := by
    rw [typeDiagnostics, typeDiagnostics, h.nodeTypes]
  rw [diagnostics_report, diagnostics_report, htypes]
  exact List.Perm.append_left _ ((h.nodes.map Prod.snd).flatMap fun n _ =>
    h.trace_resolveNode_perm n)

end Rearranges

end Blueprint

/-! ## 4. Runs -/

/-- **The order of independent patches is only an order of listing.**  With the patches of a
project in another order, a run gives a table with the same keys.  At each key there is a record
with the same id and behaviour, whose outputs that feed something are the same, in declaration
order, each with the same destinations in another order.  The diagnostics are the same in
another order. -/
theorem run_perm (p q : Project) (s : Settings) (htypes : p.nodeTypes = q.nodeTypes)
    (hpatches : p.patches.values ~ q.patches.values) (h : p.Independent) :
    let r := (p.blueprint.run s).value
    let r' := (q.blueprint.run s).value
    r.nodes.keys ~ r'.nodes.keys ∧
    (∀ key node, r.nodes.get? key = some node →
      ∃ node' n, r'.nodes.get? key = some node' ∧ p.blueprint.graph.nodes.get? key = some n ∧
        node.id = node'.id ∧ node.behavior = node'.behavior ∧
        node.outLinksByPin.keys = node'.outLinksByPin.keys ∧
        node.outLinksByPin.keys.Sublist (p.blueprint.nodeType n).outputs.keys ∧
        ∀ pinKey, node.under pinKey ~ node'.under pinKey) ∧
    r.diagnostics ~ r'.diagnostics := by
  intro r r'
  have hr : r = p.blueprint.report := Blueprint.value_run _ s
  have hr' : r' = q.blueprint.report := Blueprint.value_run _ s
  have hb := Blueprint.rearranges_of_perm htypes hpatches h
  rw [hr, hr']
  refine ⟨?_, fun key node hnode => ?_, hb.diagnostics_perm⟩
  · rw [Blueprint.nodes_report, Blueprint.nodes_report, OrderedMap.keys_map, OrderedMap.keys_map]
    exact hb.nodes.map Prod.fst
  · rw [Blueprint.nodes_report, OrderedMap.get?_map] at hnode
    obtain ⟨n, hn, rfl⟩ := Option.map_eq_some_iff.mp hnode
    have hn' : q.blueprint.graph.nodes.get? key = some n :=
      (OrderedMap.get?_eq_of_perm hb.nodes key).symm.trans hn
    refine ⟨q.blueprint.runtimeNode n, n, ?_, hn, rfl, ?_, ?_, ?_, hb.under_perm n⟩
    · rw [Blueprint.nodes_report, OrderedMap.get?_map, hn', Option.map_some]
    · rw [Blueprint.behavior_runtimeNode, Blueprint.behavior_runtimeNode, hb.nodeType_eq]
    · rw [Blueprint.keys_outLinksByPin_runtimeNode, Blueprint.keys_outLinksByPin_runtimeNode,
        hb.liveOutputs_eq]
    · rw [Blueprint.keys_outLinksByPin_runtimeNode]
      exact List.filter_sublist.map Prod.fst

namespace Example

/-- Has the output that the links of `near` and `far` start from. -/
def hub : Patch := (Patch.named "hub")
  |>.addNode (.ofType "a" "source") |>.addPin (.onNode "a.out" "a" "out")

/-- Sends the output of `hub` to a node of its own. -/
def near : Patch := (Patch.named "near")
  |>.addNode (.ofType "b" "sink") |>.addPin (.onNode "b.in" "b" "in")
  |>.addLink (.between "l1" "a.out" "b.in")

/-- Sends the output of `hub` to a node of its own and to a pin that is not there. -/
def far : Patch := (Patch.named "far")
  |>.addNode (.ofType "c" "sink") |>.addPin (.onNode "c.in" "c" "in")
  |>.addLink (.between "l2" "a.out" "c.in") |>.addLink (.between "l3" "a.out" "gone")

theorem run_backward :
    let r := ((withTypes [hub, near, far]).blueprint.run {}).value
    let r' := ((withTypes [far, near, hub]).blueprint.run {}).value
    r.nodes.keys ~ r'.nodes.keys ∧ r.diagnostics ~ r'.diagnostics ∧
      ∃ node node', r.nodes.get? "a" = some node ∧ r'.nodes.get? "a" = some node' ∧
        node.under "out" = [.inputOf "b" "in", .inputOf "c" "in", {}] ∧
        node'.under "out" ~ [.inputOf "b" "in", .inputOf "c" "in", {}] := by
  intro r r'
  have hindependent : (withTypes [hub, near, far]).Independent :=
    ⟨by decide +kernel, by decide +kernel⟩
  obtain ⟨hkeys, hrecords, hdiagnostics⟩ := run_perm (withTypes [hub, near, far])
    (withTypes [far, near, hub]) {} rfl (by decide +kernel) hindependent
  obtain ⟨node, hnode, hout⟩ : ∃ node, r.nodes.get? "a" = some node ∧
      node.under "out" = [.inputOf "b" "in", .inputOf "c" "in", {}] :=
    ⟨((r.nodes.get? "a").getD {}), by decide +kernel, by decide +kernel⟩
  obtain ⟨node', -, hnode', -, -, -, -, -, hunder⟩ := hrecords "a" node hnode
  exact ⟨hkeys, hdiagnostics, node, node', hnode, hnode', hout, hout ▸ (hunder "out").symm⟩

end Example

end Patchbay
