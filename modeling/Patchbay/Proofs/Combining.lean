/-
# Combining: what becomes of a patch's further members

Further members of patches are laid over each other one level deeper than records.  Two objects
are combined member by member, and anything else takes the place of what was below it.  So a
value that is no object wipes out the objects below it, and those above it are combined among
themselves, while the name stays where it was written first.

* `Json.Settles`: what a list of values, laid over each other, comes to, which is one value
  (`Json.Settles.unique`);
* `Json.Settles.overlay`: one value more on the top;
* `OrderedMap.Merges.insertAll`: one layer more on the top;
* `keys_overlayExtra`, `get?_overlayExtra`: the further members of one patch over those of a
  graph;
* `Graph.extra_addPatches`: the further members of any number of patches.
-/
import Patchbay.Proofs.Layers
import Patchbay.Proofs.Tolerance

namespace Patchbay

/-! ## 1. Layers of one name -/

namespace OrderedMap

variable {α : Type}

/-- Layers make one map only. -/
theorem Merges.eq_ofList {layers : List (OrderedMap α)} {m : OrderedMap α}
    (h : Merges layers m) : m = ofList (layers.flatMap entries) := by
  have hlist := merges_ofList layers
  exact ext_keys_get? (h.keys.trans hlist.keys.symm) fun key =>
    (h.record key).trans (hlist.record key).symm

/-- A further layer is written over what the others make. -/
theorem Merges.insertAll {layers : List (OrderedMap α)} {m : OrderedMap α} (h : Merges layers m)
    (top : OrderedMap α) : Merges (layers ++ [top]) (m.insertAll top.entries) := by
  have hm : m.insertAll top.entries = ofList ((layers ++ [top]).flatMap entries) := by
    rw [h.eq_ofList, List.flatMap_append, ofList_append, List.flatMap_singleton]
  exact hm ▸ merges_ofList (layers ++ [top])

theorem merges_singleton (m : OrderedMap α) : Merges [m] m := by
  have h := merges_ofList [m]
  rwa [List.flatMap_singleton, ofList_entries] at h

end OrderedMap

namespace Json

/-- The members of an object as a map. -/
def membersOf (v : Json) : OrderedMap Json := .ofList (entriesOf (some v))

/-- What values come to that are laid over each other, the first at the bottom. -/
inductive Settles (vs : List Json) : Json → Prop where
  /-- The topmost is no object: it takes the place of all others. -/
  | replaced {v : Json} (htop : vs.getLast? = some v) (hv : v.isObject = false) : Settles vs v
  /-- The topmost is an object: it is combined, member by member, with as many values below it
  as are objects without a gap, and what is below them is lost. -/
  | combined {below objects : List Json} {m : OrderedMap Json} (hvs : vs = below ++ objects)
      (hsome : objects ≠ []) (hobjects : ∀ v ∈ objects, v.isObject = true)
      (hlongest : ∀ v, below.getLast? = some v → v.isObject = false)
      (hm : OrderedMap.Merges (objects.map membersOf) m) : Settles vs (.object m.entries)

/-- A well-formed object is written with the entries of its map. -/
theorem eq_object_membersOf {v : Json} (hv : v.WellFormed) (hobject : v.isObject = true) :
    v = .object (membersOf v).entries := by
  cases v with
  | object members =>
    have hentries : (OrderedMap.ofList members).entries = members :=
      OrderedMap.entries_ofList (wellFormed_object_iff.mp hv).1
    exact congrArg object hentries.symm
  | null | bool _ | number _ | string _ | array _ => exact absurd hobject Bool.false_ne_true

theorem overlay_of_not_isObject {v : Json} (below : Json)
    (h : below.isObject = false ∨ v.isObject = false) : below.overlay v = v := by
  match below, v, h with
  | .object _, .object _, h => exact absurd h (by simp [isObject])
  | .object _, .null, _ | .object _, .bool _, _ | .object _, .number _, _
  | .object _, .string _, _ | .object _, .array _, _ | .null, _, _ | .bool _, _, _
  | .number _, _, _ | .string _, _, _ | .array _, _, _ => rfl

namespace Settles

/-- An object on top of something else stands for itself. -/
theorem object_top {v : Json} (hv : v.WellFormed) (hobject : v.isObject = true) (vs : List Json)
    (hbelow : ∀ w, vs.getLast? = some w → w.isObject = false) : Settles (vs ++ [v]) v := by
  have h : Settles (vs ++ [v]) (.object (membersOf v).entries) :=
    .combined rfl (List.cons_ne_nil v []) (by simpa using hobject) hbelow
      (OrderedMap.merges_singleton (membersOf v))
  rwa [← eq_object_membersOf hv hobject] at h

theorem singleton {v : Json} (hv : v.WellFormed) : Settles [v] v := by
  cases hobject : v.isObject with
  | false => exact .replaced rfl hobject
  | true => exact object_top hv hobject [] (by simp)

/-- Objects on top of a run would prolong it. -/
theorem gap_eq_nil {below gap : List Json} (hobjects : ∀ v ∈ gap, v.isObject = true)
    (hlongest : ∀ v, (below ++ gap).getLast? = some v → v.isObject = false) : gap = [] := by
  rcases List.eq_nil_or_concat' gap with hgap | ⟨rest, v, rfl⟩
  · exact hgap
  · have hlast : (below ++ (rest ++ [v])).getLast? = some v := by
      rw [← List.append_assoc, List.getLast?_concat]
    have hv : v.isObject = true := hobjects v (by simp)
    exact absurd (hlongest v hlast) (by simp [hv])

/-- There is only one longest run of objects at the end of a list. -/
theorem run_eq {below objects below' objects' : List Json}
    (h : below ++ objects = below' ++ objects') (hobjects : ∀ v ∈ objects, v.isObject = true)
    (hobjects' : ∀ v ∈ objects', v.isObject = true)
    (hlongest : ∀ v, below.getLast? = some v → v.isObject = false)
    (hlongest' : ∀ v, below'.getLast? = some v → v.isObject = false) : objects = objects' := by
  rcases List.append_eq_append_iff.mp h with ⟨gap, rfl, rfl⟩ | ⟨gap, rfl, rfl⟩
  · have hgap : gap = [] := gap_eq_nil (fun v hv => hobjects v (by simp [hv])) hlongest'
    rw [hgap, List.nil_append]
  · have hgap : gap = [] := gap_eq_nil (fun v hv => hobjects' v (by simp [hv])) hlongest
    rw [hgap, List.nil_append]

/-- What values come to is an object or not as the topmost of them is. -/
theorem top {vs : List Json} {v : Json} (h : Settles vs v) :
    ∃ u, vs.getLast? = some u ∧ u.isObject = v.isObject ∧ (v.isObject = false → v = u) := by
  cases h with
  | replaced htop hv => exact ⟨v, htop, rfl, fun _ => rfl⟩
  | @combined below objects m hvs hsome hobjects hlongest hm =>
    have hlast : vs.getLast? = some (objects.getLast hsome) := by
      rw [hvs, List.getLast?_append_of_ne_nil _ hsome, List.getLast?_eq_some_getLast hsome]
    exact ⟨_, hlast, hobjects _ (List.getLast_mem hsome), fun h => absurd h Bool.true_eq_false.mp⟩

/-- Values come to one value only. -/
theorem unique {vs : List Json} {v w : Json} (hv : Settles vs v) (hw : Settles vs w) : v = w := by
  obtain ⟨u, hu, hkind, htop⟩ := hv.top
  obtain ⟨u', hu', hkind', htop'⟩ := hw.top
  obtain rfl : u = u' := Option.some.inj (hu.symm.trans hu')
  cases hobject : u.isObject with
  | false => exact (htop (hkind ▸ hobject)).trans (htop' (hkind' ▸ hobject)).symm
  | true =>
    cases hv with
    | replaced _ hv => exact absurd (hkind.symm.trans hobject) (by simp [hv])
    | @combined below objects m hvs _ hobjects hlongest hm =>
      cases hw with
      | replaced _ hw => exact absurd (hkind'.symm.trans hobject) (by simp [hw])
      | @combined below' objects' m' hvs' _ hobjects' hlongest' hm' =>
        obtain rfl := run_eq (hvs.symm.trans hvs') hobjects hobjects' hlongest hlongest'
        rw [hm.eq_ofList, hm'.eq_ofList]

/-- **A further value on the top.** -/
theorem overlay {vs : List Json} {w v : Json} (h : Settles vs w) (hv : v.WellFormed) :
    Settles (vs ++ [v]) (w.overlay v) := by
  cases hobject : v.isObject with
  | false =>
    rw [overlay_of_not_isObject w (Or.inr hobject)]
    exact .replaced List.getLast?_concat hobject
  | true =>
    cases h with
    | replaced htop hw =>
      rw [overlay_of_not_isObject w (Or.inl hw)]
      refine object_top hv hobject vs fun u hu => ?_
      rw [htop] at hu
      exact Option.some.inj hu ▸ hw
    | @combined below objects m hvs hsome hobjects hlongest hm =>
      -- the run of objects goes on, with one layer more
      have hv' := eq_object_membersOf hv hobject
      have htop : (Json.object m.entries).overlay v =
          .object (m.insertAll (membersOf v).entries).entries := by
        conv_lhs => rw [hv']
        rfl
      rw [htop]
      have hmore : vs ++ [v] = below ++ (objects ++ [v]) := by rw [hvs, List.append_assoc]
      refine .combined hmore (by simp) ?_ hlongest ?_
      · intro u hu
        rcases List.mem_append.mp hu with hu | hu
        · exact hobjects u hu
        · rw [List.mem_singleton.mp hu]
          exact hobject
      · rw [List.map_append, List.map_singleton]
        exact hm.insertAll (membersOf v)

end Settles

end Json

/-! ## 2. One patch -/

theorem keys_overlayExtra (below above : OrderedMap Json) :
    (overlayExtra below above).keys = (below.keys ++ above.keys.filter (· ≠ "id")).eraseDups := by
  have hkeys : (above.entries.filter fun m => m.1 ≠ "id").map Prod.fst =
      above.keys.filter (· ≠ "id") := by
    rw [OrderedMap.keys, Entries.keys, List.filter_map]
    rfl
  rw [← hkeys]
  exact OrderedMap.keys_foldl_insert Prod.fst _ below _

/-- The value of a name after another was laid over it, which need not be there. -/
def Json.overlay? : (below above : Option Json) → Option Json
  | some w, some v => some (w.overlay v)
  | below, none => below
  | none, above => above

@[simp] theorem Json.overlay?_none (below : Option Json) : overlay? below none = below := by
  cases below <;> rfl

/-- Members are laid over others name by name. -/
theorem get?_foldl_overlayMember (below : OrderedMap Json) (key : String) :
    ∀ {es : List (String × Json)}, (Entries.keys es).Nodup →
      (es.foldl overlayMember below).get? key = Json.overlay? (below.get? key) (es.lookup key) := by
  intro es
  induction es generalizing below with
  | nil => intro _; exact (Json.overlay?_none _).symm
  | cons e rest ih =>
    intro hnd
    obtain ⟨k, v⟩ := e
    obtain ⟨hnew, hrest⟩ := List.nodup_cons.mp hnd
    rw [List.foldl_cons, ih _ hrest, overlayMember, OrderedMap.get?_insert]
    by_cases hkey : key = k
    · -- the rest does not name it again
      subst hkey
      rw [if_pos rfl, Entries.lookup_eq_none_iff.mpr hnew, List.lookup_cons_self]
      cases below.get? key <;> rfl
    · rw [if_neg hkey, Entries.lookup_cons_of_ne hkey]

theorem get?_overlayExtra (below above : OrderedMap Json) {key : String} (hid : key ≠ "id") :
    (overlayExtra below above).get? key = Json.overlay? (below.get? key) (above.get? key) := by
  have hnd : (Entries.keys (above.entries.filter fun m => m.1 ≠ "id")).Nodup :=
    above.nodup.sublist (List.filter_sublist.map _)
  have hlookup : (above.entries.filter fun m => m.1 ≠ "id").lookup key = above.get? key := by
    refine Option.ext fun v => ?_
    rw [Entries.lookup_eq_some_iff hnd, OrderedMap.get?_eq_some_iff, List.mem_filter]
    simp [hid]
  rw [overlayExtra, get?_foldl_overlayMember below key hnd, hlookup]

/-! ## 3. Any number of patches -/

namespace Graph

/-- The names of the further members, each where a patch writes it first. -/
theorem keys_extra_addPatches (ps : List Patch) :
    (addPatches {} ps).value.extra.keys =
      ((ps.flatMap fun p => p.extra.keys).filter (· ≠ "id")).eraseDups := by
  induction ps using List.reverseRecOn with
  | nil => rfl
  | append_singleton ps p ih =>
    rw [addPatches_concat, extra_addPatch, keys_overlayExtra, ih, eraseDups_eraseDups_append,
      List.flatMap_append, List.filter_append, List.flatMap_singleton]

/-- The values that patches give one name, in order. -/
def offers (ps : List Patch) (key : String) : List Json := ps.filterMap fun p => p.extra.get? key

/-- A name has a value if some patch offers one, and it is what the offers come to. -/
theorem get?_extra_addPatches {ps : List Patch}
    (hps : ∀ p ∈ ps, ∀ v ∈ p.extra.values, v.WellFormed) {key : String} (hid : key ≠ "id") :
    match (addPatches {} ps).value.extra.get? key with
    | some v => Json.Settles (offers ps key) v
    | none => offers ps key = [] := by
  induction ps using List.reverseRecOn with
  | nil => exact rfl
  | append_singleton ps p ih =>
    have ih := ih fun q hq => hps q (List.mem_append_left _ hq)
    have hoffers : offers (ps ++ [p]) key = offers ps key ++ (p.extra.get? key).toList := by
      rw [offers, List.filterMap_append]
      cases h : p.extra.get? key <;> simp [offers, h]
    rw [addPatches_concat, extra_addPatch, get?_overlayExtra _ _ hid, hoffers]
    cases habove : p.extra.get? key with
    | none => simpa using ih
    | some v =>
      have hv : v.WellFormed := hps p (by simp) v
        (OrderedMap.mem_values_iff.mpr ⟨key, OrderedMap.get?_eq_some_iff.mp habove⟩)
      cases hbelow : (addPatches {} ps).value.extra.get? key with
      | none =>
        rw [hbelow] at ih
        rw [show offers ps key = [] from ih]
        exact Json.Settles.singleton hv
      | some w =>
        rw [hbelow] at ih
        exact Json.Settles.overlay ih hv

/-- **The further members of patches combine one level deep**: an id is never one of them, each
name stands where a patch writes it first, and its value is what the values come to that the
patches offer for it.  No value names a member twice, as none does that was read. -/
theorem extra_addPatches (ps : List Patch)
    (hps : ∀ p ∈ ps, ∀ v ∈ p.extra.values, v.WellFormed) :
    let extra := (addPatches {} ps).value.extra
    "id" ∉ extra.keys ∧
      extra.keys = ((ps.flatMap fun p => p.extra.keys).filter (· ≠ "id")).eraseDups ∧
      ∀ key ∈ extra.keys, ∃ v, extra.get? key = some v ∧ Json.Settles (offers ps key) v := by
  intro extra
  have hkeys := keys_extra_addPatches ps
  have hid : "id" ∉ extra.keys := by
    rw [hkeys, List.mem_eraseDups, List.mem_filter]
    simp
  refine ⟨hid, hkeys, fun key hkey => ?_⟩
  have hne : key ≠ "id" := fun h => hid (h ▸ hkey)
  have hvalue := get?_extra_addPatches hps hne
  cases hget : extra.get? key with
  | none => exact absurd hkey (OrderedMap.get?_eq_none_iff.mp hget)
  | some v =>
    rw [hget] at hvalue
    exact ⟨v, rfl, hvalue⟩

end Graph

namespace Example

/-- Patches of which the second wipes out what the first says about the view, and the other two
say it again. -/
def views : List Patch := [
  (Patch.named "dark").addExtra "view" (.object [("theme", .string "dark"), ("grid", .bool true)]),
  { extra := .ofList [("id", .string "reset"), ("view", .null), ("author", .string "ada")] },
  (Patch.named "near").addExtra "view"
    (.object [("zoom", .object [("level", .string "3")]), ("snap", .bool false)]),
  (Patch.named "wide").addExtra "view"
    (.object [("theme", .string "light"), ("zoom", .object [("fit", .bool true)])])]

/-- The view is what the last two say, with the later zoom as a whole, and comes first. -/
theorem views_combine :
    let extra := (Graph.addPatches {} views).value.extra
    (∀ p ∈ views, ∀ v ∈ p.extra.values, v.WellFormed) ∧
      extra.entries = [
        ("view", .object [("zoom", .object [("fit", .bool true)]), ("snap", .bool false),
          ("theme", .string "light")]),
        ("author", .string "ada")] ∧
      "id" ∉ extra.keys ∧
      ∃ v, extra.get? "view" = some v ∧ Json.Settles (Graph.offers views "view") v := by
  intro extra
  have hviews : ∀ p ∈ views, ∀ v ∈ p.extra.values, v.WellFormed := by
    intro p hp v hv
    have hmem : v ∈ views.flatMap fun p => p.extra.values := List.mem_flatMap.mpr ⟨p, hp, hv⟩
    have hvalues : views.flatMap (fun p => p.extra.values) = [
      .object [("theme", .string "dark"), ("grid", .bool true)],
      .string "reset", .null, .string "ada",
      .object [("zoom", .object [("level", .string "3")]), ("snap", .bool false)],
      .object [("theme", .string "light"), ("zoom", .object [("fit", .bool true)])]] := by
      decide
    rw [hvalues] at hmem
    simp only [List.mem_cons, List.not_mem_nil, or_false] at hmem
    rcases hmem with rfl | rfl | rfl | rfl | rfl | rfl <;>
      simp [Json.WellFormed, Json.WellFormedMembers]
  have h := Graph.extra_addPatches views hviews
  exact ⟨hviews, by decide, h.1, h.2.2 "view" (by decide)⟩

end Example
end Patchbay
