/-
# Delivery: no link is lost, invented or delivered twice

On the way from a link to an out link five things are looked up, by five sorts of key: a type
by a node's type id, a declared output by its key in the type, a pin by node and key, links by
the pin's own id, and the pin at the other end by its key in the graph.  They fit together when
the blueprint is consistent (`Blueprint.Consistent`): records bear the keys they are filed
under, and no two pins share a place.

Then the table of a run can be read off the links, without looking up anything twice:

* `Consistent.routes_eq`: the links of an output are those that start at its place;
* `Consistent.under_runtimeNode`: what a node lists under a key;
* `Consistent.slots_perm`: the slots of the whole table are those of the links, one for each link
  that starts at an output (`Blueprint.slot?`).  This is the bijection: the table visits the
  places one by one, and no link is found at two of them.
-/
import Mathlib.Data.List.Perm.Basic
import Patchbay.Proofs.Routes

namespace Patchbay

open scoped List

/-! ## 1. Sorting by key -/

section Sorting

variable {α β κ : Type} [DecidableEq κ]

/-- Of distinct keys at most one is the key looked for. -/
theorem flatMap_ite_eq (key : κ) (f : κ → β) : ∀ {ks : List κ}, ks.Nodup →
    (ks.flatMap fun k => if key = k then [f k] else []) = if key ∈ ks then [f key] else []
  | [], _ => by simp
  | k :: rest, h => by
    have hnd := List.nodup_cons.mp h
    rw [List.flatMap_cons, flatMap_ite_eq key f hnd.2]
    by_cases hk : key = k
    · subst hk
      simp [hnd.1]
    · simp [hk]

/-- Collecting the items of every key in turn gives each item once, if its key is one of the
keys, and no other item. -/
theorem flatMap_filter_perm (key? : α → Option κ) (f : κ → α → β) {ks : List κ}
    {p : κ → Prop} [DecidablePred p] (hp : ∀ k, p k ↔ k ∈ ks) (hks : ks.Nodup) :
    ∀ xs : List α,
      (ks.flatMap fun k => (xs.filter fun x => key? x = some k).map (f k)) ~
        xs.filterMap fun x => (key? x).bind fun k => if p k then some (f k x) else none
  | [] => by simp
  | x :: xs => by
    have hsplit : ∀ k, ((x :: xs).filter fun y => key? y = some k).map (f k) =
        (if key? x = some k then [f k x] else []) ++
          (xs.filter fun y => key? y = some k).map (f k) := by
      intro k
      by_cases h : key? x = some k <;> simp [h]
    have hhead : (ks.flatMap fun k => if key? x = some k then [f k x] else []) =
        ((key? x).bind fun k => if p k then some (f k x) else none).toList := by
      cases key? x with
      | none => simp
      | some key =>
        simp only [Option.some.injEq, Option.bind_some]
        rw [flatMap_ite_eq key (fun k => f k x) hks]
        by_cases hk : key ∈ ks <;> simp [hp, hk]
    calc
      (ks.flatMap fun k => ((x :: xs).filter fun y => key? y = some k).map (f k))
          = ks.flatMap fun k => (if key? x = some k then [f k x] else []) ++
              (xs.filter fun y => key? y = some k).map (f k) := by simp only [hsplit]
      _ ~ (ks.flatMap fun k => if key? x = some k then [f k x] else []) ++
            ks.flatMap fun k => (xs.filter fun y => key? y = some k).map (f k) :=
          (List.flatMap_append_perm _ _ _).symm
      _ ~ ((key? x).bind fun k => if p k then some (f k x) else none).toList ++
            xs.filterMap fun y => (key? y).bind fun k => if p k then some (f k y) else none := by
          rw [hhead]
          exact List.Perm.append_left _ (flatMap_filter_perm key? f hp hks xs)
      _ = (x :: xs).filterMap fun y =>
            (key? y).bind fun k => if p k then some (f k y) else none := by
          rw [List.filterMap_cons]
          cases (key? x).bind fun k => if p k then some (f k x) else none <;> rfl

end Sorting

/-! ## 2. What a node lists under a key -/

/-- The destinations that a node lists under a key, in order. -/
def RuntimeNode.under (r : RuntimeNode) (pinKey : String) : List Destination :=
  (r.outLinks.filter fun l => l.pinKey = pinKey).map OutLink.destination

section Rows

variable {δ γ : Type} {row : String × δ → List γ} {p : γ → Bool} {key : String}

/-- Where every row is told by its key, no row of another key has what is told by this one. -/
theorem filter_rows_of_not_mem {es : List (String × δ)}
    (hp : ∀ e ∈ es, ∀ x ∈ row e, p x = decide (e.1 = key)) (h : key ∉ Entries.keys es) :
    (es.flatMap row).filter p = [] := by
  refine List.filter_eq_nil_iff.mpr fun x hx hpx => ?_
  obtain ⟨e, he, hx⟩ := List.mem_flatMap.mp hx
  rw [hp e he x hx] at hpx
  exact h (List.mem_map.mpr ⟨e, he, of_decide_eq_true hpx⟩)

/-- Of rows that are listed one after another, what is told by a key is the row of the key. -/
theorem filter_rows_of_mem {d : δ} : ∀ {es : List (String × δ)},
    (∀ e ∈ es, ∀ x ∈ row e, p x = decide (e.1 = key)) → (Entries.keys es).Nodup →
      (key, d) ∈ es → (es.flatMap row).filter p = row (key, d)
  | [], _, _, hd => absurd hd (by simp)
  | e :: rest, hp, h, hd => by
    have hnd := List.nodup_cons.mp h
    have hhead := hp e List.mem_cons_self
    have hrest : ∀ f ∈ rest, ∀ x ∈ row f, p x = decide (f.1 = key) :=
      fun f hf => hp f (List.mem_cons_of_mem _ hf)
    rw [List.flatMap_cons, List.filter_append]
    rcases List.mem_cons.mp hd with rfl | hmem
    · rw [filter_rows_of_not_mem hrest hnd.1, List.append_nil]
      exact List.filter_eq_self.mpr fun x hx => by rw [hhead x hx, decide_eq_true rfl]
    · have hne : e.1 ≠ key := fun he => hnd.1 (List.mem_map.mpr ⟨(key, d), hmem, he.symm⟩)
      have hnone : (row e).filter p = [] := by
        refine List.filter_eq_nil_iff.mpr fun x hx => ?_
        rw [hhead x hx, decide_eq_false hne]
        exact Bool.false_ne_true
      rw [hnone, List.nil_append, filter_rows_of_mem hrest hnd.2 hmem]

end Rows

section Listing

variable {δ : Type} (f : String × δ → List Destination) {pinKey : String}

theorem pinKey_of_mem_row {e : String × δ} {l : OutLink} (h : l ∈ (f e).map (OutLink.mk e.1)) :
    decide (l.pinKey = pinKey) = decide (e.1 = pinKey) := by
  obtain ⟨d, -, rfl⟩ := List.mem_map.mp h
  rfl

theorem filter_outLinks_of_not_mem {es : List (String × δ)} (h : pinKey ∉ Entries.keys es) :
    ((es.flatMap fun e => (f e).map (OutLink.mk e.1)).filter fun l => l.pinKey = pinKey) = [] :=
  filter_rows_of_not_mem (fun _ _ _ hl => pinKey_of_mem_row f hl) h

theorem filter_outLinks_of_mem {d : δ} {es : List (String × δ)} (h : (Entries.keys es).Nodup)
    (hd : (pinKey, d) ∈ es) :
    ((es.flatMap fun e => (f e).map (OutLink.mk e.1)).filter fun l => l.pinKey = pinKey) =
      (f (pinKey, d)).map (OutLink.mk pinKey) :=
  filter_rows_of_mem (fun _ _ _ hl => pinKey_of_mem_row f hl) h hd

end Listing

namespace Blueprint

theorem under_runtimeNode_of_mem {b : Blueprint} {n : Node} {pinKey : String} {d : DeclaredPin}
    (h : (pinKey, d) ∈ (b.nodeType n).outputs.entries) :
    (b.runtimeNode n).under pinKey = (b.routes n d).map b.graph.arrival := by
  rw [RuntimeNode.under, outLinks_runtimeNode,
    filter_outLinks_of_mem (fun e => (b.routes n e.2).map b.graph.arrival)
      (b.nodeType n).outputs.nodup h]
  simp [Function.comp_def]

theorem under_runtimeNode_of_not_mem {b : Blueprint} {n : Node} {pinKey : String}
    (h : pinKey ∉ (b.nodeType n).outputs.keys) : (b.runtimeNode n).under pinKey = [] := by
  rw [RuntimeNode.under, outLinks_runtimeNode,
    filter_outLinks_of_not_mem (fun e => (b.routes n e.2).map b.graph.arrival) h]
  rfl

/-! ## 3. Consistent blueprints -/

/-- Every record bears the key it is filed under, and no two pins are of the same node and
key.  Pins that do not say their node or their key may be as many as there are. -/
structure Consistent (b : Blueprint) : Prop where
  node_id : ∀ e ∈ b.graph.nodes.entries, e.2.id = some e.1
  pin_id : ∀ e ∈ b.graph.pins.entries, e.2.id = some e.1
  declared_key : ∀ t ∈ b.nodeTypes.values, ∀ e ∈ t.pins.entries, e.2.key = some e.1
  pin_place : ∀ e ∈ b.graph.pins.entries, ∀ f ∈ b.graph.pins.entries,
    e.2.nodeId.isSome → e.2.key.isSome → e.2.nodeId = f.2.nodeId → e.2.key = f.2.key → e.1 = f.1

/-- The type of a node exists and declares an output of that key. -/
def HasOutput (b : Blueprint) (n : Node) (pinKey : String) : Prop :=
  ∃ t d, n.typeId.bind b.nodeTypes.get? = some t ∧ t.pins.get? pinKey = some d ∧
    d.direction = some .output

theorem hasOutput_iff {b : Blueprint} {n : Node} {pinKey : String} :
    b.HasOutput n pinKey ↔ pinKey ∈ (b.nodeType n).outputs.keys := by
  constructor
  · rintro ⟨t, d, ht, hd, hout⟩
    have hmem : (pinKey, d) ∈ (b.nodeType n).outputs.entries :=
      mem_outputs_iff.mpr ⟨t, ht, OrderedMap.get?_eq_some_iff.mp hd, hout⟩
    exact List.mem_map.mpr ⟨_, hmem, rfl⟩
  · intro h
    obtain ⟨⟨k, d⟩, hmem, rfl⟩ := List.mem_map.mp h
    obtain ⟨t, ht, hd, hout⟩ := mem_outputs_iff.mp hmem
    exact ⟨t, d, ht, OrderedMap.get?_eq_some_iff.mpr hd, hout⟩

instance (b : Blueprint) (n : Node) (pinKey : String) : Decidable (b.HasOutput n pinKey) :=
  decidable_of_iff _ hasOutput_iff.symm

theorem Consistent.declared_key_of_output {b : Blueprint} (h : b.Consistent) {n : Node}
    {pinKey : String} {d : DeclaredPin} (hd : (pinKey, d) ∈ (b.nodeType n).outputs.entries) :
    d.key = some pinKey := by
  obtain ⟨t, ht, hmem, -⟩ := mem_outputs_iff.mp hd
  obtain ⟨typeId, -, ht⟩ := Option.bind_eq_some_iff.mp ht
  have hvalue : t ∈ b.nodeTypes.values :=
    OrderedMap.mem_values_iff.mpr ⟨typeId, OrderedMap.get?_eq_some_iff.mp ht⟩
  exact h.declared_key t hvalue _ hmem

/-- The links that start from a pin are those that start at its place: no other pin is there,
and its id is its key. -/
theorem Consistent.source_eq_iff {b : Blueprint} (h : b.Consistent) {id nodeKey pinKey : String}
    {p : Pin} (hp : (id, p) ∈ b.graph.pins.entries) (hnode : p.nodeId = some nodeKey)
    (hkey : p.key = some pinKey) (l : Link) :
    l.source = some id ↔ b.graph.origin? l = some (nodeKey, pinKey) := by
  rw [Graph.origin?_eq_some_iff]
  constructor
  · intro hl
    exact ⟨p, Graph.pinNamed?_eq_some_iff.mpr ⟨id, hl, hp⟩, hnode, hkey⟩
  · rintro ⟨q, hq, hqnode, hqkey⟩
    obtain ⟨other, hl, hq⟩ := Graph.pinNamed?_eq_some_iff.mp hq
    have heq : other = id := h.pin_place _ hq _ hp (by rw [hqnode]; rfl) (by rw [hqkey]; rfl)
      (by rw [hqnode, hnode]) (by rw [hqkey, hkey])
    rw [hl, heq]

/-- **The links of an output are those that start at its place.** -/
theorem Consistent.routes_eq {b : Blueprint} (h : b.Consistent) {nodeKey pinKey : String}
    {n : Node} {d : DeclaredPin} (hn : (nodeKey, n) ∈ b.graph.nodes.entries)
    (hd : (pinKey, d) ∈ (b.nodeType n).outputs.entries) :
    b.routes n d =
      b.graph.links.values.filter fun l => b.graph.origin? l = some (nodeKey, pinKey) := by
  have hid : n.id = some nodeKey := h.node_id _ hn
  have hkey : d.key = some pinKey := h.declared_key_of_output hd
  unfold routes
  cases hp : b.pinFor? n d with
  | none =>
    -- a link that starts at the place would name a pin of it
    symm
    refine List.filter_eq_nil_iff.mpr fun l _ hl => ?_
    obtain ⟨p, hp', hpnode, hpkey⟩ := Graph.origin?_eq_some_iff.mp (of_decide_eq_true hl)
    obtain ⟨id, -, hmem⟩ := Graph.pinNamed?_eq_some_iff.mp hp'
    have hnot := List.find?_eq_none.mp hp p (OrderedMap.mem_values_iff.mpr ⟨id, hmem⟩)
    exact hnot (by simp [hpnode, hpkey, hid, hkey])
  | some p =>
    -- the pin that was found first is the only one of its place
    have hplace : p.nodeId = some nodeKey ∧ p.key = some pinKey := by
      simpa [hid, hkey] using List.find?_some hp
    obtain ⟨id, hmem⟩ := OrderedMap.mem_values_iff.mp (List.mem_of_find?_eq_some hp)
    have hpid : p.id = some id := h.pin_id _ hmem
    simp only [linksFrom, hpid]
    refine List.filter_congr fun l _ => ?_
    simp only [h.source_eq_iff hmem hplace.1 hplace.2 l]

/-! ## 4. The slots of the table -/

end Blueprint

/-- Every out link of the table, beside the key of its node. -/
def Report.slots (r : Report) : List (String × OutLink) :=
  r.nodes.entries.flatMap fun e => e.2.outLinks.map fun l => (e.1, l)

namespace Blueprint

/-- The place is an output of a node of the graph. -/
def Serves (b : Blueprint) (place : String × String) : Prop :=
  ∃ n, b.graph.nodes.get? place.1 = some n ∧ b.HasOutput n place.2

/-- The places that a run visits, in order. -/
def places (b : Blueprint) : List (String × String) :=
  b.graph.nodes.entries.flatMap fun e => (b.nodeType e.2).outputs.keys.map fun k => (e.1, k)

theorem serves_iff {b : Blueprint} {place : String × String} :
    b.Serves place ↔ place ∈ b.places := by
  obtain ⟨nodeKey, pinKey⟩ := place
  simp only [Serves, places, List.mem_flatMap, List.mem_map, OrderedMap.get?_eq_some_iff,
    hasOutput_iff, Prod.mk.injEq]
  constructor
  · rintro ⟨n, hn, hk⟩
    exact ⟨(nodeKey, n), hn, pinKey, hk, rfl, rfl⟩
  · rintro ⟨⟨_, n⟩, hn, _, hk, rfl, rfl⟩
    exact ⟨n, hn, hk⟩

instance (b : Blueprint) (place : String × String) : Decidable (b.Serves place) :=
  decidable_of_iff _ serves_iff.symm

/-- A run visits no place twice. -/
theorem nodup_places (b : Blueprint) : b.places.Nodup := by
  refine List.pairwise_flatMap.mpr ⟨fun e _ => ?_, ?_⟩
  · refine List.pairwise_map.mpr ((b.nodeType e.2).outputs.nodup.imp fun hne heq => ?_)
    exact hne (Prod.mk.inj heq).2
  · refine (List.pairwise_map.mp b.graph.nodes.nodup).imp fun hne x hx y hy heq => ?_
    obtain ⟨_, -, rfl⟩ := List.mem_map.mp hx
    obtain ⟨_, -, rfl⟩ := List.mem_map.mp hy
    exact hne (Prod.mk.inj heq).1

/-- The slot of a link in the table: none if it starts at no output of a node. -/
def slot? (b : Blueprint) (l : Link) : Option (String × OutLink) :=
  (b.graph.origin? l).bind fun place =>
    if b.Serves place then some (place.1, ⟨place.2, b.graph.arrival l⟩) else none

/-- The link starts at an output of a node of the graph. -/
def Delivers (b : Blueprint) (l : Link) : Prop :=
  ∃ nodeKey pinKey n, b.graph.origin? l = some (nodeKey, pinKey) ∧
    b.graph.nodes.get? nodeKey = some n ∧ b.HasOutput n pinKey

theorem delivers_iff {b : Blueprint} {l : Link} : b.Delivers l ↔ (b.slot? l).isSome := by
  unfold Delivers slot? Serves
  cases b.graph.origin? l with
  | none => simp
  | some place =>
    obtain ⟨nodeKey, pinKey⟩ := place
    constructor
    · rintro ⟨_, _, n, heq, hn, hk⟩
      obtain ⟨rfl, rfl⟩ := Prod.mk.inj (Option.some.inj heq)
      simp [hn, hk]
    · intro h
      obtain ⟨n, hn, hk⟩ : ∃ n, b.graph.nodes.get? nodeKey = some n ∧ b.HasOutput n pinKey := by
        by_contra hne
        simp [hne] at h
      exact ⟨nodeKey, pinKey, n, rfl, hn, hk⟩

instance (b : Blueprint) (l : Link) : Decidable (b.Delivers l) :=
  decidable_of_iff _ delivers_iff.symm

/-- The table visits the places one by one, and lists at each the links that start there. -/
theorem Consistent.slots_eq {b : Blueprint} (h : b.Consistent) :
    b.report.slots = b.places.flatMap fun place =>
      (b.graph.links.values.filter fun l => b.graph.origin? l = some place).map fun l =>
        (place.1, ⟨place.2, b.graph.arrival l⟩) := by
  rw [Report.slots, entries_nodes_report, List.flatMap_map, places, List.flatMap_assoc]
  refine List.flatMap_congr fun e he => ?_
  rw [outLinks_runtimeNode, List.map_flatMap, OrderedMap.keys, Entries.keys, List.map_map,
    List.flatMap_map]
  refine List.flatMap_congr fun o ho => ?_
  have hroutes : b.routes e.2 o.2 =
      b.graph.links.values.filter fun l => b.graph.origin? l = some (e.1, o.1) :=
    h.routes_eq he ho
  rw [hroutes, List.map_map, List.map_map]
  rfl

/-- **The slots of the table are those of the links**, each link having one or none. -/
theorem Consistent.slots_perm {b : Blueprint} (h : b.Consistent) :
    b.report.slots ~ b.graph.links.values.filterMap b.slot? := by
  rw [h.slots_eq]
  exact flatMap_filter_perm b.graph.origin?
    (fun place l => (place.1, OutLink.mk place.2 (b.graph.arrival l))) (fun _ => serves_iff)
    b.nodup_places b.graph.links.values

theorem length_slots (r : Report) : r.slots.length = r.outLinks.length := by
  simp [Report.slots, Report.outLinks, OrderedMap.values, List.length_flatMap, Function.comp_def]

theorem Consistent.length_outLinks {b : Blueprint} (h : b.Consistent) :
    b.report.outLinks.length = (b.graph.links.values.filter fun l => b.Delivers l).length := by
  rw [← length_slots, h.slots_perm.length_eq, List.length_filterMap_eq_countP,
    List.countP_eq_length_filter]
  refine congrArg List.length (List.filter_congr fun l _ => ?_)
  simp [delivers_iff]

/-- What a node lists under a key: the arrivals of the links that start there. -/
theorem Consistent.under_runtimeNode {b : Blueprint} (h : b.Consistent) {nodeKey : String}
    {n : Node} (hn : (nodeKey, n) ∈ b.graph.nodes.entries) (pinKey : String) :
    (b.runtimeNode n).under pinKey =
      if b.HasOutput n pinKey then
        (b.graph.links.values.filter fun l =>
          b.graph.origin? l = some (nodeKey, pinKey)).map b.graph.arrival
      else [] := by
  split
  case isTrue hout =>
    obtain ⟨⟨_, d⟩, hd, rfl⟩ := List.mem_map.mp (hasOutput_iff.mp hout)
    rw [under_runtimeNode_of_mem hd, h.routes_eq hn hd]
  case isFalse hout =>
    exact under_runtimeNode_of_not_mem fun hk => hout (hasOutput_iff.mpr hk)

end Blueprint

/-! ## 5. Delivery -/

/-- **No link is lost, invented or delivered twice.**  In the report of a consistent project a
node lists under a key exactly the arrivals of the links that start there, if its type declares
that output, and nothing otherwise; so the slots of the table are those of the links, and there
are as many of them as links that start at an output. -/
theorem outLinks_of_consistent (p : Project) (s : Settings) (h : p.blueprint.Consistent) :
    let b := p.blueprint
    let r := (b.run s).value
    (∀ nodeKey n, b.graph.nodes.get? nodeKey = some n →
      ∃ node, r.nodes.get? nodeKey = some node ∧ ∀ pinKey, node.under pinKey =
        if b.HasOutput n pinKey then
          (b.graph.links.values.filter fun l =>
            b.graph.origin? l = some (nodeKey, pinKey)).map b.graph.arrival
        else []) ∧
    r.nodes.keys = b.graph.nodes.keys ∧
    r.slots ~ b.graph.links.values.filterMap b.slot? ∧
    r.outLinks.length = (b.graph.links.values.filter fun l => b.Delivers l).length := by
  intro b r
  have hr : r = b.report := Blueprint.value_run b s
  rw [hr]
  refine ⟨fun nodeKey n hn => ?_, ?_, h.slots_perm, h.length_outLinks⟩
  · have hmem := OrderedMap.get?_eq_some_iff.mp hn
    refine ⟨b.runtimeNode n, OrderedMap.get?_eq_some_iff.mpr ?_, h.under_runtimeNode hmem⟩
    rw [Blueprint.entries_nodes_report]
    exact List.mem_map.mpr ⟨_, hmem, rfl⟩
  · rw [Blueprint.nodes_report, OrderedMap.keys_map]

namespace Example

/-- The output of `a` feeds `b` and `c`.  A second patch sends a third link of it to a pin that
is not there, and starts two links at no output: one at an input, one at a node that the graph
lacks. -/
def fanOut : Project :=
  let graph := (Patch.named "graph")
    |>.addNode (.ofType "a" "source") |>.addNode (.ofType "b" "sink")
    |>.addNode (.ofType "c" "sink") |>.addPin (.onNode "a.out" "a" "out")
    |>.addPin (.onNode "b.in" "b" "in") |>.addPin (.onNode "c.in" "c" "in")
    |>.addLink (.between "l1" "a.out" "b.in") |>.addLink (.between "l2" "a.out" "c.in")
  let more := (Patch.named "more") |>.addPin (.onNode "z.out" "z" "out")
    |>.addLink (.between "l3" "b.in" "c.in") |>.addLink (.between "l4" "z.out" "b.in")
    |>.addLink (.between "l5" "a.out" "gone")
  (({} : Project).addPatch graph).addPatch more
    |>.addNodeType "source" (({} : NodeType).declare (.output "out" .number))
    |>.addNodeType "sink" (({} : NodeType).declare (.input "in" .number))

theorem fanOut_delivered :
    fanOut.blueprint.Consistent ∧
      ((fanOut.blueprint.run {}).value.nodes.get? "a").map (RuntimeNode.under · "out") =
        some [.inputOf "b" "in", .inputOf "c" "in", {}] ∧
      (fanOut.blueprint.run {}).value.outLinks.length = 3 := by
  have hconsistent : fanOut.blueprint.Consistent :=
    ⟨by decide +kernel, by decide +kernel, by decide +kernel, by decide +kernel⟩
  obtain ⟨hunder, -, -, hlength⟩ := outLinks_of_consistent fanOut {} hconsistent
  obtain ⟨node, hnode, hout⟩ := hunder "a" (.ofType "a" "source") (by decide +kernel)
  refine ⟨hconsistent, ?_, hlength.trans (by decide +kernel)⟩
  rw [hnode, Option.map_some, hout "out"]
  decide +kernel

end Example

end Patchbay
