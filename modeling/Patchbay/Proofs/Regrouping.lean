/-
# Regrouping: the out links of a node as a partition

`RuntimeNode.outLinksByPin` sorts the out links of a node into groups, one for each output that
occurs.  Any list of out links can be sorted so, also one that no run gives, in which the outputs
take turns.  Each out link goes to the group of its output, behind those that went there before
(`getD_get?_foldl_addTo`), and that settles the groups:

* `entries_outLinksByPin`: the groups are the outputs in the order in which they occur first, each
  with the destinations that the node lists under it (`RuntimeNode.under`);
* `regrouped_perm`: read group by group (`RuntimeNode.regrouped`), the out links are the same but
  for their order, so no group is empty and together they are as long as the list;
* `regrouped_runtimeNode`: those of a node of a run even stand in their own order, for a run lists
  them output by output;
* `outLinksByPin_partitions`: all of this, with the outputs of a node that have a group
  (`Blueprint.Feeds`).
-/
import Mathlib.Algebra.GroupWithZero.Nat
import Patchbay.Proofs.Delivery
import Patchbay.Proofs.Diagnosis
import Patchbay.Proofs.Grouping

namespace Patchbay

open scoped List

/-! ## 1. Groups of any list -/

/-- The out links of a node, group by group. -/
def RuntimeNode.regrouped (n : RuntimeNode) : List OutLink :=
  n.outLinksByPin.entries.flatMap fun g => g.2.map (OutLink.mk g.1)

/-- An out link goes to the end of the group of its output, and to no other. -/
theorem getD_get?_addTo (l : OutLink) (groups : OrderedMap (List Destination)) (key : String) :
    ((l.addTo groups).get? key).getD [] =
      (groups.get? key).getD [] ++ if l.pinKey = key then [l.destination] else [] := by
  rw [OutLink.addTo, OrderedMap.get?_insert]
  by_cases h : key = l.pinKey
  · subst h
    simp
  · simp [h, Ne.symm h]

/-- A group grows by the destinations under its key, in order. -/
theorem getD_get?_foldl_addTo (key : String) :
    ∀ (ls : List OutLink) (groups : OrderedMap (List Destination)),
      ((ls.foldl OutLink.addTo groups).get? key).getD [] =
        (groups.get? key).getD [] ++ (ls.filter fun l => l.pinKey = key).map OutLink.destination
  | [], groups => by simp
  | l :: ls, groups => by
    rw [List.foldl_cons, getD_get?_foldl_addTo key ls, getD_get?_addTo, List.append_assoc,
      List.filter_cons]
    by_cases h : l.pinKey = key <;> simp [h]

namespace RuntimeNode

theorem getD_get?_outLinksByPin (n : RuntimeNode) (key : String) :
    (n.outLinksByPin.get? key).getD [] = n.under key :=
  getD_get?_foldl_addTo key n.outLinks .empty

/-- **The groups are the outputs that occur, each with what is listed under it.** -/
theorem entries_outLinksByPin (n : RuntimeNode) : n.outLinksByPin.entries =
    (n.outLinks.map OutLink.pinKey).eraseDups.map fun key => (key, n.under key) := by
  have hgroup : ∀ key ∈ n.outLinksByPin.keys,
      (n.outLinksByPin.get? key).map (fun group => (key, group)) = some (key, n.under key) := by
    intro key hkey
    cases hget : n.outLinksByPin.get? key with
    | none => exact absurd hkey (OrderedMap.get?_eq_none_iff.mp hget)
    | some group =>
      have hunder := n.getD_get?_outLinksByPin key
      rw [hget, Option.getD_some] at hunder
      rw [Option.map_some, hunder]
  rw [OrderedMap.entries_eq_filterMap, List.filterMap_congr hgroup, ← keys_outLinksByPin]
  exact congrFun List.filterMap_eq_map _

/-- Where the outputs take turns, the groups do not. -/
example (d e f : Destination) :
    (RuntimeNode.mk none {} [⟨"y", d⟩, ⟨"x", e⟩, ⟨"y", f⟩]).outLinksByPin.entries =
      [("y", [d, f]), ("x", [e])] := rfl

theorem mem_values_outLinksByPin_ne_nil {n : RuntimeNode} {group : List Destination}
    (h : group ∈ n.outLinksByPin.values) : group ≠ [] := by
  obtain ⟨key, hgroup⟩ := OrderedMap.mem_values_iff.mp h
  rw [entries_outLinksByPin] at hgroup
  obtain ⟨k, hk, heq⟩ := List.mem_map.mp hgroup
  obtain ⟨rfl, rfl⟩ := Prod.mk.inj heq
  obtain ⟨l, hl, hkey⟩ := List.mem_map.mp (List.mem_eraseDups.mp hk)
  have hmem : l.destination ∈ n.under k :=
    List.mem_map.mpr ⟨l, List.mem_filter.mpr ⟨hl, by simpa using hkey⟩, rfl⟩
  exact List.ne_nil_of_mem hmem

theorem regrouped_eq (n : RuntimeNode) : n.regrouped =
    (n.outLinks.map OutLink.pinKey).eraseDups.flatMap fun key =>
      (n.under key).map (OutLink.mk key) := by
  rw [regrouped, entries_outLinksByPin, List.flatMap_map]

/-- **Regrouping loses nothing.**  Each out link is in the group of its output once. -/
theorem regrouped_perm (n : RuntimeNode) : n.regrouped ~ n.outLinks := by
  have hperm := flatMap_filter_perm (fun l : OutLink => some l.pinKey)
    (fun key l => OutLink.mk key l.destination)
    (p := fun key => key ∈ n.outLinks.map OutLink.pinKey) (fun _ => List.mem_eraseDups.symm)
    (nodup_eraseDups (n.outLinks.map OutLink.pinKey)) n.outLinks
  have hself : (n.outLinks.filterMap fun l => (some l.pinKey).bind fun key =>
      if key ∈ n.outLinks.map OutLink.pinKey then some (OutLink.mk key l.destination) else none) =
        n.outLinks := by
    refine (List.filterMap_congr fun l hl => ?_).trans List.filterMap_some
    rw [Option.bind_some, if_pos (List.mem_map_of_mem hl)]
  rw [hself] at hperm
  rw [regrouped_eq]
  simpa [under, Function.comp_def] using hperm

/-- The groups together are as long as the list. -/
theorem sum_length_outLinksByPin (n : RuntimeNode) :
    (n.outLinksByPin.values.map List.length).sum = n.outLinks.length := by
  rw [← n.regrouped_perm.length_eq, regrouped, List.length_flatMap, OrderedMap.values,
    List.map_map]
  simp [Function.comp_def]

end RuntimeNode

/-! ## 2. Groups of a run -/

namespace Blueprint

/-- The output feeds something: a pin stands for it on the node, and a link starts at the first
pin that does. -/
def Feeds (b : Blueprint) (n : Node) (d : DeclaredPin) : Prop :=
  ∃ p, (b.graph.pins.values.filter fun p => p.nodeId = n.id ∧ p.key = d.key).head? = some p ∧
    ∃ l ∈ b.graph.links.values, ∃ id, p.id = some id ∧ l.source = some id

theorem feeds_iff {b : Blueprint} {n : Node} {d : DeclaredPin} :
    b.Feeds n d ↔ b.routes n d ≠ [] := by
  unfold Feeds
  rw [← pinFor?_eq_head?]
  constructor
  · rintro ⟨p, hp, l, hl, hstarts⟩
    have hfrom : l ∈ b.linksFrom p := mem_linksFrom_iff.mpr ⟨hl, hstarts⟩
    exact List.ne_nil_of_mem (mem_routes_iff.mpr ⟨p, hp, hfrom⟩)
  · intro hroutes
    obtain ⟨l, hroute⟩ := List.exists_mem_of_ne_nil _ hroutes
    obtain ⟨p, hp, hfrom⟩ := mem_routes_iff.mp hroute
    obtain ⟨hl, hstarts⟩ := mem_linksFrom_iff.mp hfrom
    exact ⟨p, hp, l, hl, hstarts⟩

instance (b : Blueprint) (n : Node) (d : DeclaredPin) : Decidable (b.Feeds n d) :=
  decidable_of_iff _ feeds_iff.symm

/-- The groups of a node of a run are its outputs that feed something. -/
theorem keys_outLinksByPin_eq (b : Blueprint) (n : Node) : (b.runtimeNode n).outLinksByPin.keys =
    Entries.keys ((b.nodeType n).pins.entries.filter fun e =>
      e.2.direction = some .output ∧ b.Feeds n e.2) := by
  have houtputs : (b.nodeType n).outputs.entries =
      (b.nodeType n).pins.entries.filter fun e => e.2.direction = some .output := rfl
  rw [keys_outLinksByPin_runtimeNode, liveOutputs, houtputs, List.filter_filter]
  refine congrArg Entries.keys (List.filter_congr fun e _ => ?_)
  simp [feeds_iff, Bool.and_comm]

/-- **The out links of a node of a run are listed group by group.**  A run visits the outputs one
by one, so the links of one output stand together, and those of another are never among them. -/
theorem regrouped_runtimeNode (b : Blueprint) (n : Node) :
    (b.runtimeNode n).regrouped = (b.runtimeNode n).outLinks := by
  have hrow : ∀ e ∈ (b.nodeType n).outputs.entries,
      ((b.runtimeNode n).under e.1).map (OutLink.mk e.1) =
        ((b.routes n e.2).map b.graph.arrival).map (OutLink.mk e.1) := fun e he => by
    rw [under_runtimeNode_of_mem (show (e.1, e.2) ∈ _ from he)]
  calc (b.runtimeNode n).regrouped
      = (b.liveOutputs n).flatMap fun key =>
          ((b.runtimeNode n).under key).map (OutLink.mk key) := by
        rw [RuntimeNode.regrouped_eq, ← keys_outLinksByPin, keys_outLinksByPin_runtimeNode]
    _ = ((b.nodeType n).outputs.entries.filter fun e => b.routes n e.2 ≠ []).flatMap fun e =>
          ((b.routes n e.2).map b.graph.arrival).map (OutLink.mk e.1) := by
        rw [liveOutputs, Entries.keys, List.flatMap_map]
        exact List.flatMap_congr fun e he => hrow e (List.mem_of_mem_filter he)
    _ = (b.nodeType n).outputs.entries.flatMap fun e =>
          ((b.routes n e.2).map b.graph.arrival).map (OutLink.mk e.1) := by
        -- an output that feeds nothing has no out links to leave out
        rw [flatMap_filter]
        refine List.flatMap_congr fun e _ => ?_
        cases b.routes n e.2 <;> simp
    _ = (b.runtimeNode n).outLinks := (outLinks_runtimeNode b n).symm

end Blueprint

/-- **Regrouping is a stable partition, and loses nothing.**  Of any list of out links: the groups
are the outputs in the order in which they occur first, each with the destinations listed under
it, in their order; none is empty, and together they are as long as the list.  Of a node of a run:
the groups are the outputs of its type that feed something, in declaration order, and read one
after another they are its out links. -/
theorem outLinksByPin_partitions :
    (∀ n : RuntimeNode,
      n.outLinksByPin.entries = (n.outLinks.map OutLink.pinKey).eraseDups.map (fun key =>
        (key, (n.outLinks.filter fun l => l.pinKey = key).map OutLink.destination)) ∧
      (∀ group ∈ n.outLinksByPin.values, group ≠ []) ∧
      (n.outLinksByPin.values.map List.length).sum = n.outLinks.length) ∧
    ∀ (p : Project) (s : Settings),
      let b := p.blueprint
      ∀ e ∈ (b.run s).value.nodes.entries, ∃ n, b.graph.nodes.get? e.1 = some n ∧
        e.2.outLinksByPin.keys = Entries.keys ((b.nodeType n).pins.entries.filter fun d =>
          d.2.direction = some .output ∧ b.Feeds n d.2) ∧
        e.2.regrouped = e.2.outLinks := by
  refine ⟨fun n => ⟨n.entries_outLinksByPin, fun group hgroup =>
    RuntimeNode.mem_values_outLinksByPin_ne_nil hgroup, n.sum_length_outLinksByPin⟩, ?_⟩
  intro p s b e he
  rw [b.value_run, b.entries_nodes_report] at he
  obtain ⟨⟨key, n⟩, hn, rfl⟩ := List.mem_map.mp he
  exact ⟨n, OrderedMap.get?_eq_some_iff.mpr hn, b.keys_outLinksByPin_eq n,
    b.regrouped_runtimeNode n⟩

namespace Example

/-- A node with three outputs: `x` feeds two inputs, `y` has a pin and no link, and `z` feeds the
first of the two again. -/
def branching : Project :=
  let graph := (Patch.named "graph")
    |>.addNode (.ofType "a" "fork") |>.addPin (.onNode "a.z" "a" "z")
    |>.addPin (.onNode "a.y" "a" "y") |>.addPin (.onNode "a.x" "a" "x")
    |>.addPin (.onNode "b.in" "b" "in") |>.addPin (.onNode "c.in" "c" "in")
    |>.addLink (.between "l1" "a.x" "b.in") |>.addLink (.between "l2" "a.z" "b.in")
    |>.addLink (.between "l3" "a.x" "c.in")
  let fork := ({} : NodeType)
    |>.declare (.output "x" .number) |>.declare (.output "y" .number)
    |>.declare (.output "z" .number)
  (({} : Project).addPatch graph).addNodeType "fork" fork

/-- The groups of `a` are `x` and `z`, and they are its out links. -/
theorem branching_is_regrouped :
    let b := branching.blueprint
    ∃ e ∈ (b.run {}).value.nodes.entries, e.1 = "a" ∧ e.2.outLinksByPin.keys = ["x", "z"] ∧
      e.2.regrouped = e.2.outLinks ∧ e.2.outLinks.length = 3 := by
  intro b
  have hentry : ("a", b.runtimeNode (.ofType "a" "fork")) ∈ (b.run {}).value.nodes.entries := by
    decide +kernel
  have hlength : (b.runtimeNode (.ofType "a" "fork")).outLinks.length = 3 := by decide +kernel
  have hnode : b.graph.nodes.get? "a" = some (.ofType "a" "fork") := by decide +kernel
  obtain ⟨n, hn, hkeys, hregrouped⟩ := outLinksByPin_partitions.2 branching {} _ hentry
  obtain rfl : n = .ofType "a" "fork" := Option.some.inj (hn.symm.trans hnode)
  have hfeeds : Entries.keys ((b.nodeType (.ofType "a" "fork")).pins.entries.filter fun d =>
      d.2.direction = some .output ∧ b.Feeds (.ofType "a" "fork") d.2) = ["x", "z"] := by
    decide +kernel
  exact ⟨_, hentry, rfl, hkeys.trans hfeeds, hregrouped, hlength⟩

end Example
end Patchbay
