/-
# Layers: what the patches of a project make together

The graph of a project is made patch by patch, and each patch entry by entry: a key that is
there already keeps its position and takes the new record.  Position and record of a key may
thus come from different patches.  This file says what comes out of that in one step.

Patches leave no boundary behind: laying them over a graph one after another is writing all
their entries, as one list, into its maps (`view_addPatches`), so each map of a project's graph
is `OrderedMap.ofList` of such a list (`nodes_ofProject`, `pins_ofProject`, `links_ofProject`).
The rest is about writing a list into a map:

* `keys_foldl_insert`, `keys_insertAll`, `get?_insertAll`: a key stands where it is written first
  and holds what is written last;
* `ext_keys_get?`: the order of the keys and the value at each are all there is to a map;
* `insertAll_ofList`: a list may be settled before it is written;
* `Graph.merges_patches`: the three maps of a project's graph, by first position and last
  record.
-/
import Mathlib.Data.Finset.Card
import Patchbay.Graph

namespace Patchbay

/-! ## 1. First occurrences -/

section FirstOccurrences

variable {α : Type} [BEq α] [LawfulBEq α]

/-- An item at the end stays if it does not repeat one before it. -/
theorem eraseDups_concat (l : List α) (a : α) :
    (l ++ [a]).eraseDups = if a ∈ l then l.eraseDups else l.eraseDups ++ [a] := by
  rw [List.eraseDups_append, List.cons_removeAll, List.nil_removeAll]
  by_cases h : a ∈ l <;> simp [h, List.eraseDups_cons]

theorem nodup_eraseDups (l : List α) : l.eraseDups.Nodup := by
  induction l using List.reverseRecOn with
  | nil => exact List.nodup_nil
  | append_singleton l a ih =>
    rw [eraseDups_concat]
    split
    case isTrue => exact ih
    case isFalse h =>
      refine List.nodup_append.mpr ⟨ih, by simp, fun b hb c hc hbc => h ?_⟩
      rw [← List.mem_singleton.mp hc, ← hbc]
      exact List.mem_eraseDups.mp hb

theorem eraseDups_of_nodup {l : List α} (h : l.Nodup) : l.eraseDups = l := by
  induction l using List.reverseRecOn with
  | nil => rfl
  | append_singleton l a ih =>
    have hnd := List.nodup_append.mp h
    have hnew : a ∉ l := fun hmem => hnd.2.2 a hmem a (by simp) rfl
    rw [eraseDups_concat, if_neg hnew, ih hnd.1]

/-- Leaving items out and dropping repeats may be done in either order. -/
theorem eraseDups_filter (p : α → Bool) (l : List α) :
    (l.filter p).eraseDups = l.eraseDups.filter p := by
  induction l using List.reverseRecOn with
  | nil => rfl
  | append_singleton l a ih =>
    rw [eraseDups_concat, List.filter_append]
    by_cases hp : p a = true
    · rw [List.filter_cons_of_pos hp, List.filter_nil, eraseDups_concat, ih]
      by_cases hmem : a ∈ l <;> simp [hmem, hp]
    · rw [List.filter_cons_of_neg hp, List.filter_nil, List.append_nil, ih]
      by_cases hmem : a ∈ l <;> simp [hmem, hp]

/-- Repeats behind a list may be dropped before it is put in front. -/
theorem eraseDups_append_eraseDups (xs ys : List α) :
    (xs ++ ys.eraseDups).eraseDups = (xs ++ ys).eraseDups := by
  have hremove : ys.eraseDups.removeAll xs = (ys.removeAll xs).eraseDups :=
    (eraseDups_filter _ ys).symm
  rw [List.eraseDups_append, List.eraseDups_append, hremove,
    eraseDups_of_nodup (nodup_eraseDups _)]

/-- Repeats within a list may be dropped before another is put behind it. -/
theorem eraseDups_eraseDups_append (xs ys : List α) :
    (xs.eraseDups ++ ys).eraseDups = (xs ++ ys).eraseDups := by
  have hremove : ys.removeAll xs.eraseDups = ys.removeAll xs := by
    refine List.filter_congr fun y _ => ?_
    simp
  rw [List.eraseDups_append, List.eraseDups_append, hremove,
    eraseDups_of_nodup (nodup_eraseDups _)]

/-- Putting distinct items behind distinct items makes one list, shorter by those that are in
both. -/
theorem length_eraseDups_append {xs ys : List α} (hxs : xs.Nodup) (hys : ys.Nodup) :
    (xs ++ ys).eraseDups.length + (ys.filter xs.contains).length = xs.length + ys.length := by
  have hremove : ys.removeAll xs = ys.filter fun y => !xs.contains y := rfl
  have hnew : (ys.removeAll xs).Nodup := hys.sublist List.filter_sublist
  have hsplit := List.length_eq_length_filter_add (l := ys) xs.contains
  rw [List.eraseDups_append, eraseDups_of_nodup hxs, eraseDups_of_nodup hnew, List.length_append,
    hremove]
  omega

end FirstOccurrences

/-! ## 2. Writing a list into a map -/

namespace OrderedMap

variable {α : Type}

theorem insertAll_append (m : OrderedMap α) (es fs : List (String × α)) :
    m.insertAll (es ++ fs) = (m.insertAll es).insertAll fs :=
  ext (List.foldl_append)

theorem ofList_append (es fs : List (String × α)) :
    ofList (es ++ fs) = (ofList es).insertAll fs :=
  insertAll_append empty es fs

/-- Keys stand where they are written first, whatever is written. -/
theorem keys_foldl_insert {ε : Type} (key : ε → String) (value : OrderedMap α → ε → α)
    (m : OrderedMap α) (es : List ε) :
    (es.foldl (fun m e => m.insert (key e) (value m e)) m).keys =
      (m.keys ++ es.map key).eraseDups := by
  induction es using List.reverseRecOn with
  | nil =>
    rw [List.foldl_nil, List.map_nil, List.append_nil]
    exact (eraseDups_of_nodup m.nodup).symm
  | append_singleton es e ih =>
    rw [List.foldl_append, List.foldl_cons, List.foldl_nil, keys_insert, ih, List.map_append,
      List.map_singleton, ← List.append_assoc, eraseDups_concat]
    simp only [List.mem_eraseDups]

/-- A key stands where it is written first. -/
theorem keys_insertAll (m : OrderedMap α) (es : List (String × α)) :
    (m.insertAll es).keys = (m.keys ++ Entries.keys es).eraseDups := by
  have hfold : m.insertAll es = es.foldl (fun m e => m.insert e.1 e.2) m := by
    induction es generalizing m with
    | nil => rfl
    | cons e rest ih => exact ih (m.insert e.1 e.2)
  rw [hfold]
  exact keys_foldl_insert Prod.fst (fun _ e => e.2) m es

/-- A key holds what is written last. -/
theorem get?_insertAll (m : OrderedMap α) (es : List (String × α)) (key : String) :
    (m.insertAll es).get? key = (es.reverse.lookup key).or (m.get? key) := by
  induction es generalizing m with
  | nil => simp
  | cons e rest ih =>
    obtain ⟨k, v⟩ := e
    have hhead : ([(k, v)].lookup key).or (m.get? key) = (m.insert k v).get? key := by
      rw [get?_insert]
      by_cases h : key = k
      · simp [h]
      · simp [h, Entries.lookup_cons_of_ne h]
    rw [insertAll_cons, ih, List.reverse_cons, List.lookup_append, Option.or_assoc, hhead]

theorem keys_ofList (es : List (String × α)) : (ofList es).keys = (Entries.keys es).eraseDups :=
  keys_insertAll empty es

theorem get?_ofList (es : List (String × α)) (key : String) :
    (ofList es).get? key = es.reverse.lookup key := by
  rw [ofList, get?_insertAll, get?_empty, Option.or_none]

/-- Of several writes to one key the first gives the position and the last the value. -/
example : (ofList [("a", 1), ("b", 2), ("a", 3)]).entries = [("a", 3), ("b", 2)] := by decide

/-- With distinct keys it does not matter from which end a key is looked up. -/
theorem lookup_reverse_entries (m : OrderedMap α) (key : String) :
    m.entries.reverse.lookup key = m.get? key := by
  rw [← get?_ofList, ofList_entries]

/-- The entries are the keys, each with its value. -/
theorem entries_eq_filterMap (m : OrderedMap α) :
    m.entries = m.keys.filterMap fun key => (m.get? key).map fun value => (key, value) := by
  have hself : ∀ e ∈ m.entries, (m.get? e.1).map (fun value => (e.1, value)) = some e := by
    intro e he
    rw [get?_eq_some_iff.mpr (show (e.1, e.2) ∈ m.entries from he), Option.map_some]
  rw [keys, Entries.keys, List.filterMap_map]
  exact (List.filterMap_some.symm.trans (List.filterMap_congr fun e he => (hself e he).symm))

/-- **A map is the order of its keys and the value at each.** -/
theorem ext_keys_get? {m n : OrderedMap α} (hkeys : m.keys = n.keys)
    (hget : ∀ key, m.get? key = n.get? key) : m = n := by
  refine ext ?_
  rw [entries_eq_filterMap, entries_eq_filterMap, hkeys]
  simp only [hget]

/-- A list may be settled by itself before it is written. -/
theorem insertAll_ofList (m : OrderedMap α) (es : List (String × α)) :
    m.insertAll (ofList es).entries = m.insertAll es := by
  refine ext_keys_get? ?_ fun key => ?_
  · have hkeys : Entries.keys (ofList es).entries = (Entries.keys es).eraseDups := keys_ofList es
    rw [keys_insertAll, keys_insertAll, hkeys, eraseDups_append_eraseDups]
  · rw [get?_insertAll, get?_insertAll, lookup_reverse_entries, get?_ofList]

/-! ## 3. Layers -/

/-- The map is what layers of records make together, the first at the bottom.  Its keys are
those of all layers, each where it first occurs; at a key there is the record, whole, of the
last layer that has the key; and there are as many records as distinct keys. -/
structure Merges (layers : List (OrderedMap α)) (m : OrderedMap α) : Prop where
  keys : m.keys = (layers.flatMap OrderedMap.keys).eraseDups
  record : ∀ key, m.get? key = (layers.filterMap fun layer => layer.get? key).getLast?
  size : m.size = (layers.flatMap OrderedMap.keys).toFinset.card

theorem keys_flatMap_entries (layers : List (OrderedMap α)) :
    Entries.keys (layers.flatMap entries) = layers.flatMap keys :=
  List.map_flatMap

theorem lookup_reverse_flatMap_entries (layers : List (OrderedMap α)) (key : String) :
    (layers.flatMap entries).reverse.lookup key =
      (layers.filterMap fun layer => layer.get? key).getLast? := by
  rw [List.getLast?_filterMap]
  induction layers with
  | nil => rfl
  | cons layer rest ih =>
    rw [List.flatMap_cons, List.reverse_append, List.lookup_append, ih, lookup_reverse_entries,
      List.reverse_cons, List.findSome?_append]
    cases h : layer.get? key <;> simp [h]

theorem merges_ofList (layers : List (OrderedMap α)) :
    Merges layers (ofList (layers.flatMap entries)) := by
  have hkeys : (ofList (layers.flatMap entries)).keys = (layers.flatMap keys).eraseDups := by
    rw [keys_ofList, keys_flatMap_entries]
  refine ⟨hkeys, fun key => ?_, ?_⟩
  · rw [get?_ofList, lookup_reverse_flatMap_entries]
  · have hset : (layers.flatMap keys).toFinset = (layers.flatMap keys).eraseDups.toFinset := by
      ext key
      simp
    rw [hset, List.toFinset_card_of_nodup (nodup_eraseDups _), ← hkeys]
    exact (List.length_map _).symm

end OrderedMap

/-! ## 4. The patches of a project -/

namespace Graph

theorem addPatches_concat (g : Graph) (ps : List Patch) (p : Patch) :
    (g.addPatches (ps ++ [p])).value = ((g.addPatches ps).value.addPatch p).value := by
  rw [addPatches_append]
  rfl

/-- If laying one patch writes its layer into a map of the graph, then laying many patches
writes all their layers. -/
theorem view_addPatches {α : Type} {view : Graph → OrderedMap α} {layer : Patch → OrderedMap α}
    (hstep : ∀ g p, view (g.addPatch p).value = (view g).insertAll (layer p).entries)
    (g : Graph) (ps : List Patch) :
    view (g.addPatches ps).value = (view g).insertAll (ps.flatMap fun p => (layer p).entries) := by
  induction ps generalizing g with
  | nil => rfl
  | cons p ps ih =>
    have hrun : (g.addPatches (p :: ps)).value = ((g.addPatch p).value.addPatches ps).value := rfl
    rw [hrun, ih, hstep, List.flatMap_cons, OrderedMap.insertAll_append]

theorem nodes_ofProject (p : Project) :
    (ofProject p).value.nodes = .ofList (p.patches.values.flatMap fun q => q.nodes.entries) :=
  view_addPatches nodes_addPatch {} p.patches.values

theorem pins_ofProject (p : Project) :
    (ofProject p).value.pins = .ofList (p.patches.values.flatMap fun q => q.pins.entries) :=
  view_addPatches pins_addPatch {} p.patches.values

theorem links_ofProject (p : Project) :
    (ofProject p).value.links = .ofList (p.patches.values.flatMap fun q => q.links.entries) :=
  view_addPatches links_addPatch {} p.patches.values

/-- **Patches merge by first position and last record**: the nodes, the pins and the links of a
project's graph are what those of its patches make together. -/
theorem merges_patches (p : Project) :
    let g := (ofProject p).value
    OrderedMap.Merges (p.patches.values.map Patch.nodes) g.nodes ∧
      OrderedMap.Merges (p.patches.values.map Patch.pins) g.pins ∧
      OrderedMap.Merges (p.patches.values.map Patch.links) g.links := by
  intro g
  have hlayers : ∀ {α : Type} (layer : Patch → OrderedMap α),
      OrderedMap.Merges (p.patches.values.map layer)
        (.ofList (p.patches.values.flatMap fun q => (layer q).entries)) := by
    intro α layer
    have h := OrderedMap.merges_ofList (p.patches.values.map layer)
    rwa [List.flatMap_map] at h
  refine ⟨?_, ?_, ?_⟩
  · exact nodes_ofProject p ▸ hlayers Patch.nodes
  · exact pins_ofProject p ▸ hlayers Patch.pins
  · exact links_ofProject p ▸ hlayers Patch.links

end Graph
end Patchbay
