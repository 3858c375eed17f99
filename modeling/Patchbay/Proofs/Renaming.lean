/-
# Renaming: ids are only names

Nodes, pins and links have ids of their own, which occur both as keys of maps and inside of
records: a node's id in its pins, a pin's id at the ends of links.  A `Renaming` has a new name
for each id of each kind, and different names for different ids.  Renaming a project puts the
new names wherever an id stands (`Project.rename`).

A run compares ids for equality only, and never an id of one kind with one of another.  So the
table of the renamed project is the old one with new names for its nodes; pins and links leave
no trace in it.  Diagnostics do name links and pins, but by a text, in which an id that is
missing looks like one that is empty.  What they are about is therefore listed first with the
ids as they are (`Finding`), and only these are renamed.

* `place_map`, `ofList_map`, `get?_bimap`: maps are made, and looked up, by equality of keys;
* `pinFor?_rename`, `linksFrom_rename`, `pinNamed?_rename`: so are pins and links found;
* `runtimeNode_rename`, `nodeFindings_rename`: what a node gives;
* `run_rename`: what a run gives.
-/
import Mathlib.Logic.Function.Basic
import Patchbay.Proofs.Diagnosis
import Patchbay.Proofs.Seams

namespace Patchbay

/-! ## 1. Maps under new keys -/

section Rekeying

variable {α β : Type} {f : String → String} {g : α → β}

theorem Entries.keys_map (f : String → String) (g : α → β) (es : List (String × α)) :
    Entries.keys (es.map (Prod.map f g)) = (Entries.keys es).map f := by
  rw [Entries.keys, Entries.keys, List.map_map, List.map_map]
  rfl

theorem Entries.place_map (hf : Function.Injective f) (key : String) (value : α) :
    ∀ es : List (String × α), Entries.place (f key) (g value) (es.map (Prod.map f g)) =
      (Entries.place key value es).map (Prod.map f g)
  | [] => rfl
  | (k, v) :: rest => by
    rw [List.map_cons, Prod.map_apply, Entries.place, Entries.place, Entries.place_map hf]
    by_cases hk : k = key
    · rw [if_pos hk, if_pos (congrArg f hk), List.map_cons, Prod.map_apply]
    · rw [if_neg hk, if_neg fun he => hk (hf he), List.map_cons, Prod.map_apply]

theorem Entries.placeAll_map (hf : Function.Injective f) (target incoming : List (String × α)) :
    Entries.placeAll (target.map (Prod.map f g)) (incoming.map (Prod.map f g)) =
      (Entries.placeAll target incoming).map (Prod.map f g) := by
  induction incoming generalizing target with
  | nil => rfl
  | cons e rest ih =>
    have hstep : Entries.place (f e.1) (g e.2) (target.map (Prod.map f g)) =
        (Entries.place e.1 e.2 target).map (Prod.map f g) := Entries.place_map hf e.1 e.2 target
    show Entries.placeAll (Entries.place (f e.1) (g e.2) _) (rest.map _) = _
    rw [hstep, ih]
    rfl

namespace OrderedMap

/-- Every key under its new name and every value replaced by its image. -/
def bimap (f : String → String) (hf : Function.Injective f) (g : α → β) (m : OrderedMap α) :
    OrderedMap β :=
  ⟨m.entries.map (Prod.map f g), Entries.keys_map f g m.entries ▸ m.nodup.map hf⟩

variable (hf : Function.Injective f)

@[simp] theorem entries_bimap (m : OrderedMap α) :
    (m.bimap f hf g).entries = m.entries.map (Prod.map f g) := rfl

@[simp] theorem values_bimap (m : OrderedMap α) : (m.bimap f hf g).values = m.values.map g := by
  simp [values, Function.comp_def]

theorem ofList_map (es : List (String × α)) :
    ofList (es.map (Prod.map f g)) = (ofList es).bimap f hf g :=
  ext (Entries.placeAll_map hf [] es)

/-- Under its new name a key has the image of its value. -/
theorem get?_bimap (m : OrderedMap α) (key : String) :
    (m.bimap f hf g).get? (f key) = (m.get? key).map g := by
  refine Option.ext fun value => ?_
  rw [get?_eq_some_iff, entries_bimap, List.mem_map, Option.map_eq_some_iff]
  constructor
  · rintro ⟨⟨k, v⟩, hv, heq⟩
    obtain ⟨hk, hvalue⟩ := Prod.mk.inj heq
    exact ⟨v, get?_eq_some_iff.mpr (hf hk ▸ hv), hvalue⟩
  · rintro ⟨v, hv, hvalue⟩
    exact ⟨(key, v), get?_eq_some_iff.mp hv, Prod.ext rfl hvalue⟩

end OrderedMap

end Rekeying

/-! ## 2. Renamings -/

/-- New names for the ids of nodes, of pins and of links, each kind by itself. -/
structure Renaming where
  node : String → String
  pin : String → String
  link : String → String
  node_injective : Function.Injective node
  pin_injective : Function.Injective pin
  link_injective : Function.Injective link

section Records

variable (r : Renaming)

/-- The node under its new id. -/
def Node.rename (n : Node) : Node := { n with id := n.id.map r.node }

/-- The pin under its new id, and of the renamed node. -/
def Pin.rename (p : Pin) : Pin := { p with id := p.id.map r.pin, nodeId := p.nodeId.map r.node }

/-- The link under its new id, between the renamed pins. -/
def Link.rename (l : Link) : Link where
  id := l.id.map r.link
  ends := l.ends.map (Option.map r.pin)

/-- The patch with its nodes, pins and links renamed, records and keys. -/
def Patch.rename (p : Patch) : Patch :=
  { p with
    nodes := p.nodes.bimap r.node r.node_injective (Node.rename r)
    pins := p.pins.bimap r.pin r.pin_injective (Pin.rename r)
    links := p.links.bimap r.link r.link_injective (Link.rename r) }

/-- The project with all its patches renamed, each under its old key. -/
def Project.rename (p : Project) : Project := { p with patches := p.patches.map (Patch.rename r) }

/-- The graph with its nodes, pins and links renamed, records and keys. -/
def Graph.rename (g : Graph) : Graph :=
  { g with
    nodes := g.nodes.bimap r.node r.node_injective (Node.rename r)
    pins := g.pins.bimap r.pin r.pin_injective (Pin.rename r)
    links := g.links.bimap r.link r.link_injective (Link.rename r) }

/-- The blueprint with its graph renamed. -/
def Blueprint.rename (b : Blueprint) : Blueprint := { b with graph := b.graph.rename r }

end Records

section Results

variable (f : String → String)

/-- The destination at the renamed node. -/
def Destination.rename (d : Destination) : Destination := { d with nodeId := d.nodeId.map f }

/-- The out link to the renamed node. -/
def OutLink.rename (l : OutLink) : OutLink := { l with destination := l.destination.rename f }

/-- The node of the table under its new id, with out links to the renamed nodes. -/
def RuntimeNode.rename (n : RuntimeNode) : RuntimeNode :=
  { n with id := n.id.map f, outLinks := n.outLinks.map (OutLink.rename f) }

end Results

/-! ## 3. Making the graph and looking things up -/

/-- The entries of renamed patches make the renamed map. -/
theorem ofList_flatMap_rename {α : Type} {r : Renaming} {layer : Patch → OrderedMap α}
    {f : String → String} {hf : Function.Injective f} {g : α → α}
    (hlayer : ∀ q : Patch, layer (q.rename r) = (layer q).bimap f hf g) (p : Project) :
    OrderedMap.ofList ((p.rename r).patches.values.flatMap fun q => (layer q).entries) =
      (OrderedMap.ofList (p.patches.values.flatMap fun q => (layer q).entries)).bimap f hf g := by
  have hentries : ((p.rename r).patches.values.flatMap fun q => (layer q).entries) =
      (p.patches.values.flatMap fun q => (layer q).entries).map (Prod.map f g) := by
    rw [Project.rename, OrderedMap.values_map, List.flatMap_map, List.map_flatMap]
    simp only [hlayer, OrderedMap.entries_bimap]
  rw [hentries, OrderedMap.ofList_map hf]

theorem Link.source_rename (r : Renaming) (l : Link) :
    (l.rename r).source = l.source.map r.pin := by
  unfold Link.source Link.rename
  rw [List.getElem?_map]
  cases l.ends[0]? <;> rfl

theorem Link.destination_rename (r : Renaming) (l : Link) :
    (l.rename r).destination = l.destination.map r.pin := by
  unfold Link.destination Link.rename
  rw [List.getElem?_map]
  cases l.ends[1]? <;> rfl

namespace Graph

theorem pinNamed?_rename (r : Renaming) (g : Graph) (id : Option String) :
    (g.rename r).pinNamed? (id.map r.pin) = (g.pinNamed? id).map (Pin.rename r) := by
  unfold pinNamed?
  cases id with
  | none => rfl
  | some key => exact OrderedMap.get?_bimap r.pin_injective g.pins key

/-- A renamed link arrives at the renamed node. -/
theorem arrival_rename (r : Renaming) (g : Graph) (l : Link) :
    (g.rename r).arrival (l.rename r) = (g.arrival l).rename r.node := by
  unfold arrival
  rw [Link.destination_rename, pinNamed?_rename]
  cases g.pinNamed? l.destination <;> rfl

theorem dangles_rename (r : Renaming) (g : Graph) (l : Link) :
    (g.rename r).Dangles (l.rename r) ↔ g.Dangles l := by
  rw [dangles_iff, dangles_iff, Link.destination_rename, pinNamed?_rename, Option.map_eq_none_iff]

end Graph

namespace Blueprint

variable (r : Renaming) (b : Blueprint)

theorem nodeType?_rename (n : Node) : (b.rename r).nodeType? (n.rename r) = b.nodeType? n := rfl

theorem nodeType_rename (n : Node) : (b.rename r).nodeType (n.rename r) = b.nodeType n := rfl

/-- The renamed pin stands for the output on the renamed node. -/
theorem pinFor?_rename (n : Node) (d : DeclaredPin) :
    (b.rename r).pinFor? (n.rename r) d = (b.pinFor? n d).map (Pin.rename r) := by
  have hvalues : (b.rename r).graph.pins.values = b.graph.pins.values.map (Pin.rename r) :=
    OrderedMap.values_bimap r.pin_injective b.graph.pins
  have hfits : ∀ p : Pin, ((p.rename r).nodeId = (n.rename r).id ∧ (p.rename r).key = d.key) ↔
      (p.nodeId = n.id ∧ p.key = d.key) := fun p =>
    and_congr_left' (Option.map_injective r.node_injective).eq_iff
  unfold pinFor?
  rw [hvalues, List.find?_map]
  simp only [Function.comp_def, hfits]

/-- The renamed links start from the renamed pin. -/
theorem linksFrom_rename (p : Pin) :
    (b.rename r).linksFrom (p.rename r) = (b.linksFrom p).map (Link.rename r) := by
  have hvalues : (b.rename r).graph.links.values = b.graph.links.values.map (Link.rename r) :=
    OrderedMap.values_bimap r.link_injective b.graph.links
  unfold linksFrom
  cases hid : p.id with
  | none =>
    have hid' : (p.rename r).id = none := by rw [Pin.rename, hid]; rfl
    rw [hid']
    rfl
  | some id =>
    have hid' : (p.rename r).id = some (r.pin id) := by rw [Pin.rename, hid]; rfl
    have hstarts : ∀ l : Link, (l.rename r).source = some (r.pin id) ↔ l.source = some id := by
      intro l
      rw [Link.source_rename]
      exact (Option.map_injective r.pin_injective).eq_iff (b := some id)
    rw [hid']
    simp only [hvalues, List.filter_map, Function.comp_def, hstarts]

theorem routes_rename (n : Node) (d : DeclaredPin) :
    (b.rename r).routes (n.rename r) d = (b.routes n d).map (Link.rename r) := by
  unfold routes
  rw [pinFor?_rename]
  cases b.pinFor? n d with
  | none => rfl
  | some p => exact linksFrom_rename r b p

/-! ## 4. What a node gives -/

theorem runtimeNode_rename (n : Node) :
    (b.rename r).runtimeNode (n.rename r) = (b.runtimeNode n).rename r.node := by
  have hlinks : ((b.rename r).runtimeNode (n.rename r)).outLinks =
      (b.runtimeNode n).outLinks.map (OutLink.rename r.node) := by
    rw [outLinks_runtimeNode, outLinks_runtimeNode, nodeType_rename, List.map_flatMap]
    refine List.flatMap_congr fun e _ => ?_
    rw [routes_rename, List.map_map, List.map_map, List.map_map, List.map_map]
    refine List.map_congr_left fun l _ => ?_
    show OutLink.mk e.1 ((b.graph.rename r).arrival (l.rename r)) = _
    rw [Graph.arrival_rename]
    rfl
  have hbehavior : ((b.rename r).runtimeNode (n.rename r)).behavior =
      (b.runtimeNode n).behavior := by
    rw [behavior_runtimeNode, behavior_runtimeNode, nodeType_rename]
  show RuntimeNode.mk _ ((b.rename r).runtimeNode (n.rename r)).behavior
    ((b.rename r).runtimeNode (n.rename r)).outLinks = _
  rw [hlinks, hbehavior]
  rfl

end Blueprint

/-- What a diagnostic of a node is about, each id as it is, even if it is missing. -/
inductive Finding where
  | missingNodeType (node typeId : Option String)
  | missingPinInstance (node : Option String) (pinKey : String)
  | danglingLink (link pin : Option String)
  deriving DecidableEq, Repr

namespace Finding

/-- The diagnostic, in which an id that is missing is the empty text. -/
def diagnostic : Finding → Diagnostic
  | missingNodeType node typeId => .missingNodeType (node.getD "") typeId
  | missingPinInstance node pinKey => .missingPinInstance (node.getD "") pinKey
  | danglingLink link pin => .danglingLink (link.getD "") pin

/-- The same of the renamed nodes, links and pins. -/
def rename (r : Renaming) : Finding → Finding
  | missingNodeType node typeId => missingNodeType (node.map r.node) typeId
  | missingPinInstance node pinKey => missingPinInstance (node.map r.node) pinKey
  | danglingLink link pin => danglingLink (link.map r.link) (pin.map r.pin)

end Finding

namespace Blueprint

/-- What there is to find at one output of a node. -/
def outputFindings (b : Blueprint) (n : Node) (key : String) (d : DeclaredPin) : List Finding :=
  match b.pinFor? n d with
  | none => [.missingPinInstance n.id key]
  | some p => ((b.linksFrom p).filter fun l => b.graph.Dangles l).map fun l =>
      .danglingLink l.id l.destination

/-- What there is to find at a node. -/
def nodeFindings (b : Blueprint) (n : Node) : List Finding :=
  match b.nodeType? n with
  | none => [.missingNodeType n.id n.typeId]
  | some t => t.outputs.entries.flatMap fun e => b.outputFindings n e.1 e.2

/-- What there is to find at all nodes of the graph, in their order. -/
def findings (b : Blueprint) : List Finding := b.graph.nodes.values.flatMap b.nodeFindings

theorem trace_resolveOutput_eq_map (b : Blueprint) (n : Node) (key : String) (d : DeclaredPin) :
    (b.resolveOutput n key d).trace = (b.outputFindings n key d).map Finding.diagnostic := by
  rw [trace_resolveOutput]
  unfold outputFindings routes
  cases b.pinFor? n d with
  | none => rfl
  | some p =>
    rw [if_neg (by simp), List.map_map]
    rfl

/-- A node leaves the diagnostics of what there is to find at it. -/
theorem trace_resolveNode_eq_map (b : Blueprint) (n : Node) :
    (b.resolveNode n).trace = (b.nodeFindings n).map Finding.diagnostic := by
  rw [trace_resolveNode, trace_resolveNodeType]
  unfold nodeFindings nodeType
  cases b.nodeType? n with
  | none => rfl
  | some t =>
    simp only [reduceCtorEq, if_false, List.nil_append, Option.getD_some, List.map_flatMap,
      trace_resolveOutput_eq_map]

theorem diagnostics_report_eq_map (b : Blueprint) :
    b.report.diagnostics = b.typeDiagnostics ++ b.findings.map Finding.diagnostic := by
  rw [diagnostics_report, findings, List.map_flatMap]
  simp only [trace_resolveNode_eq_map]

variable (r : Renaming) (b : Blueprint)

theorem outputFindings_rename (n : Node) (key : String) (d : DeclaredPin) :
    (b.rename r).outputFindings (n.rename r) key d =
      (b.outputFindings n key d).map (Finding.rename r) := by
  unfold outputFindings
  rw [pinFor?_rename]
  cases b.pinFor? n d with
  | none => rfl
  | some p =>
    have hdangles : ∀ l : Link, (b.rename r).graph.Dangles (l.rename r) ↔ b.graph.Dangles l :=
      b.graph.dangles_rename r
    simp only [Option.map_some, linksFrom_rename, List.filter_map, Function.comp_def, hdangles,
      List.map_map]
    refine List.map_congr_left fun l _ => ?_
    rw [Link.destination_rename]
    rfl

theorem nodeFindings_rename (n : Node) :
    (b.rename r).nodeFindings (n.rename r) = (b.nodeFindings n).map (Finding.rename r) := by
  unfold nodeFindings
  rw [nodeType?_rename]
  cases b.nodeType? n with
  | none => rfl
  | some t =>
    simp only [outputFindings_rename, List.map_flatMap]

/-! ## 5. Runs -/

theorem findings_rename : (b.rename r).findings = b.findings.map (Finding.rename r) := by
  have hvalues : (b.rename r).graph.nodes.values = b.graph.nodes.values.map (Node.rename r) :=
    OrderedMap.values_bimap r.node_injective b.graph.nodes
  rw [findings, findings, hvalues, List.flatMap_map, List.map_flatMap]
  simp only [nodeFindings_rename]

theorem nodes_report_rename : (b.rename r).report.nodes =
    b.report.nodes.bimap r.node r.node_injective (RuntimeNode.rename r.node) := by
  have hentries : (b.rename r).graph.nodes.entries =
      b.graph.nodes.entries.map (Prod.map r.node (Node.rename r)) := rfl
  apply OrderedMap.ext
  rw [entries_nodes_report, hentries, OrderedMap.entries_bimap, entries_nodes_report,
    List.map_map, List.map_map]
  refine List.map_congr_left fun e _ => ?_
  exact Prod.ext rfl (runtimeNode_rename r b e.2)

end Blueprint

theorem Project.report_rename (r : Renaming) (p : Project) :
    (p.rename r).blueprint.report = (p.blueprint.rename r).report := by
  have hnodes : (Graph.ofProject (p.rename r)).value.nodes =
      (Graph.ofProject p).value.nodes.bimap r.node r.node_injective (Node.rename r) := by
    rw [Graph.nodes_ofProject, Graph.nodes_ofProject]
    exact ofList_flatMap_rename (fun _ => rfl) p
  have hpins : (Graph.ofProject (p.rename r)).value.pins =
      (Graph.ofProject p).value.pins.bimap r.pin r.pin_injective (Pin.rename r) := by
    rw [Graph.pins_ofProject, Graph.pins_ofProject]
    exact ofList_flatMap_rename (fun _ => rfl) p
  have hlinks : (Graph.ofProject (p.rename r)).value.links =
      (Graph.ofProject p).value.links.bimap r.link r.link_injective (Link.rename r) := by
    rw [Graph.links_ofProject, Graph.links_ofProject]
    exact ofList_flatMap_rename (fun _ => rfl) p
  exact Blueprint.report_congr rfl hnodes hpins hlinks

/-- **Ids are only names.**  A run of the renamed project gives the old table with new names for
the nodes: in its keys, as the ids of its records, and in the destinations of their out links,
everything in its old order.  It leaves the old diagnostics about the types, and behind them
those of the old findings with their nodes, links and pins renamed; an id that is missing stays
so. -/
theorem run_rename (r : Renaming) (p : Project) (s : Settings) :
    let b := p.blueprint
    let old := (b.run s).value
    let new := ((p.rename r).blueprint.run s).value
    new.nodes = old.nodes.bimap r.node r.node_injective (RuntimeNode.rename r.node) ∧
      old.diagnostics = b.typeDiagnostics ++ b.findings.map Finding.diagnostic ∧
      new.diagnostics = b.typeDiagnostics ++ b.findings.map fun c => (c.rename r).diagnostic := by
  intro b old new
  have hold : old = b.report := Blueprint.value_run _ s
  have hnew : new = (b.rename r).report :=
    (Blueprint.value_run _ s).trans (Project.report_rename r p)
  have htypes : (b.rename r).typeDiagnostics = b.typeDiagnostics := rfl
  rw [hold, hnew]
  refine ⟨Blueprint.nodes_report_rename r b, Blueprint.diagnostics_report_eq_map b, ?_⟩
  rw [Blueprint.diagnostics_report_eq_map, htypes, Blueprint.findings_rename, List.map_map]
  rfl

namespace Example

/-- A mark for each kind of id, in front of the old name. -/
def marked : Renaming where
  node := ("n:" ++ ·)
  pin := ("p:" ++ ·)
  link := ("l:" ++ ·)
  node_injective := fun _ _ h => (String.append_right_inj "n:").mp h
  pin_injective := fun _ _ h => (String.append_right_inj "p:").mp h
  link_injective := fun _ _ h => (String.append_right_inj "l:").mp h

/-- The sketch with every id marked: its pins and links have new names, too, but only the nodes'
come up in the table, and those of one pin and one link in a diagnostic. -/
theorem sketch_marked :
    let marks := (sketch.rename marked).blueprint
    let new := (marks.run {}).value
    marks.graph.pins.keys = ["p:a.out", "p:c.in"] ∧
      marks.graph.links.values.map Link.ends =
        [[some "p:a.out", some "p:c.in"], [some "p:a.out", some "p:gone"]] ∧
      new.nodes.keys = ["n:a", "n:b", "n:c"] ∧
      new.nodes.values.map RuntimeNode.outLinks =
        [[⟨"out", .inputOf "n:c" "in"⟩, ⟨"out", {}⟩], [], []] ∧
      new.diagnostics =
        [.undeclaredPinType "mixer" "mix", .unrecognizedPinType "mixer" "hue" "color",
          .danglingLink "l:l2" (some "p:gone"), .missingPinInstance "n:b" "out",
          .missingNodeType "n:c" (some "lost")] := by
  intro marks new
  obtain ⟨hnodes, -, hdiagnostics⟩ : new.nodes = _ ∧ _ ∧ new.diagnostics = _ :=
    run_rename marked sketch {}
  rw [hnodes, hdiagnostics]
  decide +kernel

/-- Two nodes of no type, one without an id and one whose id is the empty text. -/
def nameless : Project :=
  let patch : Patch := { nodes := .ofList [("a", {}), ("b", { id := some "" })] }
  ({} : Project).addPatch patch

example : (nameless.blueprint.run {}).value.diagnostics =
    [.missingNodeType "" none, .missingNodeType "" none] := by decide +kernel
example : ((nameless.rename marked).blueprint.run {}).value.diagnostics =
    [.missingNodeType "" none, .missingNodeType "n:" none] := by decide +kernel

end Example

end Patchbay
