/-
# Frame: an unrelated patch disturbs nothing

A patch that is appended to a project adds nodes, pins and links behind those that are there,
and every lookup of an old node now searches longer lists.  There are three ways in which it
could find something new: a pin of the patch could stand for an output of the node, a link of
the patch could start from a pin of the node, and a link of the node could end at a pin of the
patch.  A patch that has no key of the graph and offers none of the three is unrelated to it
(`Patch.UnrelatedTo`).  The other direction is open: links of the patch may end at old pins.

* `entries_insertAll_of_disjoint`: what has new keys is written behind the rest;
* `pinFor?_withPatch`, `linksFrom_withPatch`, `deliver_withPatch`: the three lookups, each shut
  by one clause of the definition;
* `resolveNode_withPatch`: so an old node is resolved as before, diagnostics included;
* `run_withPatch`: a run keeps its table and its diagnostics, and what the nodes of the patch
  give comes behind.
-/
import Patchbay.Proofs.Routes
import Patchbay.Proofs.Seams

namespace Patchbay

/-! ## 1. Writing behind what is there -/

namespace OrderedMap

variable {α : Type}

/-- Maps without a common key are written one behind the other. -/
theorem entries_insertAll_of_disjoint {m n : OrderedMap α} (h : m.keys.Disjoint n.keys) :
    (m.insertAll n.entries).entries = m.entries ++ n.entries := by
  refine Entries.placeAll_of_nodup ?_
  rw [Entries.keys, List.map_append]
  exact List.nodup_append.mpr ⟨m.nodup, n.nodup, fun a ha b hb hab => h ha (hab ▸ hb)⟩

theorem values_insertAll_of_disjoint {m n : OrderedMap α} (h : m.keys.Disjoint n.keys) :
    (m.insertAll n.entries).values = m.values ++ n.values := by
  rw [values, entries_insertAll_of_disjoint h, List.map_append]
  rfl

/-- A key that is not written keeps its value. -/
theorem get?_insertAll_of_not_mem {m n : OrderedMap α} {key : String} (h : key ∉ n.keys) :
    (m.insertAll n.entries).get? key = m.get? key := by
  rw [get?_insertAll, lookup_reverse_entries, get?_eq_none_iff.mpr h, Option.none_or]

end OrderedMap

theorem Traced.each_congr {ε α β : Type} {f g : α → Traced ε β} {xs : List α}
    (h : ∀ a ∈ xs, f a = g a) : Traced.each f xs = Traced.each g xs := by
  unfold Traced.each
  rw [List.map_congr_left h]

/-! ## 2. Unrelated patches -/

/-- The patch has no key of the graph, none of its pins is of a node of the graph, none of its
links starts from a pin of the graph, and no link of the graph ends at one of its pins.  A pin
that does not say its node is of every node without an id. -/
structure Patch.UnrelatedTo (q : Patch) (g : Graph) : Prop where
  nodes : g.nodes.keys.Disjoint q.nodes.keys
  pins : g.pins.keys.Disjoint q.pins.keys
  links : g.links.keys.Disjoint q.links.keys
  owners : ∀ p ∈ q.pins.values, ∀ n ∈ g.nodes.values, p.nodeId ≠ n.id
  sources : ∀ l ∈ q.links.values, ∀ p ∈ g.pins.values, p.id ≠ none → l.source ≠ p.id
  destinations : ∀ l ∈ g.links.values, ∀ key ∈ q.pins.keys, l.destination ≠ some key

instance (q : Patch) (g : Graph) : Decidable (q.UnrelatedTo g) :=
  decidable_of_iff ((∀ key ∈ g.nodes.keys, key ∉ q.nodes.keys) ∧
    (∀ key ∈ g.pins.keys, key ∉ q.pins.keys) ∧ (∀ key ∈ g.links.keys, key ∉ q.links.keys) ∧
    (∀ p ∈ q.pins.values, ∀ n ∈ g.nodes.values, p.nodeId ≠ n.id) ∧
    (∀ l ∈ q.links.values, ∀ p ∈ g.pins.values, p.id ≠ none → l.source ≠ p.id) ∧
    ∀ l ∈ g.links.values, ∀ key ∈ q.pins.keys, l.destination ≠ some key)
    ⟨fun ⟨nodes, pins, links, owners, sources, destinations⟩ =>
      ⟨nodes, pins, links, owners, sources, destinations⟩,
    fun h => ⟨h.nodes, h.pins, h.links, h.owners, h.sources, h.destinations⟩⟩

/-- The project with one more patch behind the others, under a key of its own. -/
def Project.withPatch (p : Project) (key : String) (q : Patch) : Project :=
  { p with patches := p.patches.insert key q }

/-- The blueprint with one more patch laid over its graph. -/
def Blueprint.withPatch (b : Blueprint) (q : Patch) : Blueprint :=
  { b with graph := (b.graph.addPatch q).value }

theorem Project.blueprint_withPatch {p : Project} {key : String} (h : key ∉ p.patches.keys)
    (q : Patch) : (p.withPatch key q).blueprint = p.blueprint.withPatch q := by
  have hvalues : (p.withPatch key q).patches.values = p.patches.values ++ [q] := by
    show (Entries.place key q p.patches.entries).map Prod.snd = _
    rw [Entries.place_of_not_mem h, List.map_append]
    rfl
  have hgraph : (Graph.ofProject (p.withPatch key q)).value =
      ((Graph.ofProject p).value.addPatch q).value := by
    show (Graph.addPatches {} (p.withPatch key q).patches.values).value = _
    rw [hvalues, Graph.addPatches_append]
    rfl
  show Blueprint.mk _ (Graph.ofProject (p.withPatch key q)).value = _
  rw [hgraph]
  rfl

/-! ## 3. The three lookups -/

namespace Blueprint

variable {b : Blueprint} {q : Patch}

/-- No pin of the patch stands for an output of an old node. -/
theorem pinFor?_withPatch (h : q.UnrelatedTo b.graph) {n : Node} (hn : n ∈ b.graph.nodes.values)
    (d : DeclaredPin) : (b.withPatch q).pinFor? n d = b.pinFor? n d := by
  have hvalues : (b.withPatch q).graph.pins.values = b.graph.pins.values ++ q.pins.values :=
    OrderedMap.values_insertAll_of_disjoint h.pins
  have hnew : (q.pins.values.find? fun p => p.nodeId = n.id ∧ p.key = d.key) = none := by
    refine List.find?_eq_none.mpr fun p hp hfits => ?_
    exact h.owners p hp n hn (of_decide_eq_true hfits).1
  unfold pinFor?
  rw [hvalues, List.find?_append, hnew, Option.or_none]

/-- No link of the patch starts from an old pin. -/
theorem linksFrom_withPatch (h : q.UnrelatedTo b.graph) {p : Pin}
    (hp : p ∈ b.graph.pins.values) : (b.withPatch q).linksFrom p = b.linksFrom p := by
  have hvalues : (b.withPatch q).graph.links.values = b.graph.links.values ++ q.links.values :=
    OrderedMap.values_insertAll_of_disjoint h.links
  unfold linksFrom
  cases hid : p.id with
  | none => rfl
  | some id =>
    have hnew : (q.links.values.filter fun l => l.source = some id) = [] := by
      refine List.filter_eq_nil_iff.mpr fun l hl hsource => ?_
      have hne : l.source ≠ p.id := h.sources l hl p hp (by simp [hid])
      exact hne (hid ▸ of_decide_eq_true hsource)
    show (b.withPatch q).graph.links.values.filter _ = b.graph.links.values.filter _
    rw [hvalues, List.filter_append, hnew, List.append_nil]

/-- No old link ends at a pin of the patch. -/
theorem deliver_withPatch (h : q.UnrelatedTo b.graph) {l : Link}
    (hl : l ∈ b.graph.links.values) : (b.withPatch q).deliver l = b.deliver l := by
  have hnamed : (b.withPatch q).graph.pinNamed? l.destination =
      b.graph.pinNamed? l.destination := by
    unfold Graph.pinNamed?
    cases hdest : l.destination with
    | none => rfl
    | some key =>
      have hkey : key ∉ q.pins.keys := fun hmem => h.destinations l hl key hmem hdest
      exact OrderedMap.get?_insertAll_of_not_mem hkey
  unfold deliver
  rw [destination?_eq, destination?_eq, hnamed]

/-! ## 4. Old nodes -/

theorem resolveOutput_withPatch (h : q.UnrelatedTo b.graph) {n : Node}
    (hn : n ∈ b.graph.nodes.values) (pinKey : String) (d : DeclaredPin) :
    (b.withPatch q).resolveOutput n pinKey d = b.resolveOutput n pinKey d := by
  have hpin := pinFor?_withPatch h hn d
  cases hp : b.pinFor? n d with
  | none => rw [resolveOutput_of_none hp, resolveOutput_of_none (hpin.trans hp)]
  | some p =>
    rw [resolveOutput_of_some hp, resolveOutput_of_some (hpin.trans hp),
      linksFrom_withPatch h (of_pinFor? hp).1]
    exact Traced.each_congr fun l hl => deliver_withPatch h (mem_linksFrom_iff.mp hl).1

/-- An old node is resolved as before. -/
theorem resolveNode_withPatch (h : q.UnrelatedTo b.graph) {n : Node}
    (hn : n ∈ b.graph.nodes.values) : (b.withPatch q).resolveNode n = b.resolveNode n := by
  have hlinks : ∀ t, (b.withPatch q).resolveOutLinks n t = b.resolveOutLinks n t := by
    intro t
    unfold resolveOutLinks
    simp only [resolveOutput_withPatch h hn]
  have htype : (b.withPatch q).resolveNodeType n = b.resolveNodeType n := rfl
  unfold resolveNode
  simp only [hlinks, htype]

/-! ## 5. Reports -/

theorem entries_nodes_report_withPatch (h : q.UnrelatedTo b.graph) :
    (b.withPatch q).report.nodes.entries = b.report.nodes.entries ++
      q.nodes.entries.map fun e => (e.1, (b.withPatch q).runtimeNode e.2) := by
  have hentries : (b.withPatch q).graph.nodes.entries = b.graph.nodes.entries ++ q.nodes.entries :=
    OrderedMap.entries_insertAll_of_disjoint h.nodes
  rw [entries_nodes_report, entries_nodes_report, hentries, List.map_append]
  refine congrArg (· ++ _) (List.map_congr_left fun e he => ?_)
  have hn : e.2 ∈ b.graph.nodes.values := List.mem_map.mpr ⟨e, he, rfl⟩
  rw [runtimeNode, resolveNode_withPatch h hn]
  rfl

theorem diagnostics_report_withPatch (h : q.UnrelatedTo b.graph) :
    (b.withPatch q).report.diagnostics = b.report.diagnostics ++
      q.nodes.values.flatMap fun n => ((b.withPatch q).resolveNode n).trace := by
  have hvalues : (b.withPatch q).graph.nodes.values = b.graph.nodes.values ++ q.nodes.values :=
    OrderedMap.values_insertAll_of_disjoint h.nodes
  have htypes : (b.withPatch q).typeDiagnostics = b.typeDiagnostics := rfl
  have hold : (b.graph.nodes.values.flatMap fun n => ((b.withPatch q).resolveNode n).trace) =
      b.graph.nodes.values.flatMap fun n => (b.resolveNode n).trace :=
    List.flatMap_congr fun n hn => by rw [resolveNode_withPatch h hn]
  rw [diagnostics_report, diagnostics_report, hvalues, htypes, List.flatMap_append, hold,
    List.append_assoc]

end Blueprint

/-- **An unrelated patch disturbs nothing.**  With the patch behind the others, a run gives the
table that it gave without it, entry by entry, and behind it one entry for each node of the
patch; and it leaves the diagnostics that it left, and behind them those of the nodes of the
patch. -/
theorem run_withPatch (p : Project) (key : String) (q : Patch) (s : Settings)
    (hkey : key ∉ p.patches.keys) (h : q.UnrelatedTo p.blueprint.graph) :
    let b := (p.withPatch key q).blueprint
    let r := (p.blueprint.run s).value
    let r' := (b.run s).value
    r'.nodes.entries = r.nodes.entries ++
        q.nodes.entries.map (fun e => (e.1, b.runtimeNode e.2)) ∧
      r'.diagnostics = r.diagnostics ++
        q.nodes.values.flatMap fun n => (b.resolveNode n).trace := by
  intro b r r'
  have hb : b = p.blueprint.withPatch q := Project.blueprint_withPatch hkey q
  have hr : r = p.blueprint.report := Blueprint.value_run _ s
  have hr' : r' = b.report := Blueprint.value_run _ s
  rw [hr, hr', hb]
  exact ⟨Blueprint.entries_nodes_report_withPatch h, Blueprint.diagnostics_report_withPatch h⟩

namespace Example

/-- The output of `a` feeds `b`, and a second link of it ends at no pin. -/
def island : Patch := (Patch.named "island")
  |>.addNode (.ofType "a" "source") |>.addNode (.ofType "b" "sink")
  |>.addPin (.onNode "a.out" "a" "out") |>.addPin (.onNode "b.in" "b" "in")
  |>.addLink (.between "l1" "a.out" "b.in") |>.addLink (.between "l2" "a.out" "gone")

/-- Feeds `b`, too, from an output of its own, and has a node of a type that is not there. -/
def visitor : Patch := (Patch.named "visitor")
  |>.addNode (.ofType "v" "source") |>.addNode (.ofType "w" "lost")
  |>.addPin (.onNode "v.out" "v" "out") |>.addLink (.between "l3" "v.out" "b.in")

theorem run_with_visitor :
    let p := withTypes [island]
    let r := (p.blueprint.run {}).value
    let r' := ((p.withPatch "visitor" visitor).blueprint.run {}).value
    visitor.UnrelatedTo p.blueprint.graph ∧
      r.diagnostics = [.danglingLink "l2" (some "gone")] ∧
      r'.diagnostics = r.diagnostics ++ [.missingNodeType "w" (some "lost")] ∧
      ∃ v w, r'.nodes.entries = r.nodes.entries ++ [("v", v), ("w", w)] ∧
        v.outLinks = [⟨"out", .inputOf "b" "in"⟩] ∧ w.outLinks = [] := by
  intro p r r'
  have hunrelated : visitor.UnrelatedTo p.blueprint.graph := by decide +kernel
  obtain ⟨hnodes, hdiagnostics⟩ := run_withPatch p "visitor" visitor {} (by decide +kernel)
    hunrelated
  refine ⟨hunrelated, by decide +kernel, ?_, _, _, hnodes, ?_, ?_⟩
  · rw [hdiagnostics]
    decide +kernel
  · decide +kernel
  · decide +kernel

end Example

end Patchbay
