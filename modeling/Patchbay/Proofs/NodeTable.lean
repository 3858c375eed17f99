/-
# The node table in its document

The runtime takes the table of nodes as a document.  Much is left out of it or written alike: a
field without a value is no member at all, an out link is an object whose one member is named by
its output, and an input type is the name that it has or the tag that stands in for one.  Still
the document says everything, provided that no tag passes for a name (`RuntimeNode.Unmistakable`):

* `optionalMembers_inj`: members that may be missing are told apart as long as their names are
  distinct, and a member that is there and null is not one that is missing;
* `RuntimeType.toJson_inj`, `Destination.toJson_inj`, `OutLink.toJson_inj`: the parts of a node can
  be told from what is written of them;
* `RuntimeNode.toJson_inj`, `nodeTableToJson_determines`: and so can the node and the table.

What is written is a document in the first place, which names no member twice at any depth
(`wellFormed_nodeTableToJson`).
-/
import Patchbay.Proofs.Tolerance

namespace Patchbay

/-! ## 1. Members that may be missing -/

/-- The members of a table of names, without those that have no value. -/
def optionalMembers (table : List (String × Option Json)) : List (String × Json) :=
  table.flatMap fun e => optionalMember e.1 e.2

@[simp] theorem optionalMembers_cons_none (name : String) (table : List (String × Option Json)) :
    optionalMembers ((name, none) :: table) = optionalMembers table := rfl

@[simp] theorem optionalMembers_cons_some (name : String) (v : Json)
    (table : List (String × Option Json)) :
    optionalMembers ((name, some v) :: table) = (name, v) :: optionalMembers table := rfl

theorem mem_optionalMembers_iff {name : String} {v : Json} {table : List (String × Option Json)} :
    (name, v) ∈ optionalMembers table ↔ (name, some v) ∈ table := by
  induction table with
  | nil => simp [optionalMembers]
  | cons e rest ih =>
    obtain ⟨k, w⟩ := e
    cases w with
    | none => simp [ih]
    | some w => simp [ih]

theorem keys_optionalMembers_sublist : ∀ table : List (String × Option Json),
    (Entries.keys (optionalMembers table)).Sublist (Entries.keys table)
  | [] => List.Sublist.refl _
  | (name, none) :: rest => (keys_optionalMembers_sublist rest).cons name
  | (name, some _) :: rest => (keys_optionalMembers_sublist rest).cons_cons name

theorem not_mem_keys_of_optionalMembers {name : String} {table : List (String × Option Json)}
    (h : name ∉ Entries.keys table) (v : Json) (rest : List (String × Json)) :
    optionalMembers table ≠ (name, v) :: rest := by
  intro he
  have hmem : (name, v) ∈ optionalMembers table := he ▸ List.mem_cons_self
  exact h (List.mem_map.mpr ⟨_, mem_optionalMembers_iff.mp hmem, rfl⟩)

/-- **Members that may be missing are told apart by their names.** -/
theorem optionalMembers_inj : ∀ {ss ts : List (String × Option Json)},
    Entries.keys ss = Entries.keys ts → (Entries.keys ss).Nodup →
      optionalMembers ss = optionalMembers ts → ss = ts
  | [], [], _, _, _ => rfl
  | [], _ :: _, hkeys, _, _ | _ :: _, [], hkeys, _, _ => absurd hkeys (by simp)
  | (name, v) :: ss, (other, w) :: ts, hkeys, hnodup, h => by
    obtain ⟨rfl, hrest⟩ := List.cons.inj hkeys
    have hnd := List.nodup_cons.mp hnodup
    -- where only one of the two has the member, the other has it nowhere later either
    cases v with
    | none =>
      cases w with
      | none => rw [optionalMembers_inj hrest hnd.2 h]
      | some w =>
        exact absurd h (not_mem_keys_of_optionalMembers hnd.1 w (optionalMembers ts))
    | some v =>
      cases w with
      | none =>
        have hnew : name ∉ Entries.keys ts := by
          rw [← show Entries.keys ss = Entries.keys ts from hrest]
          exact hnd.1
        exact absurd h.symm (not_mem_keys_of_optionalMembers hnew v (optionalMembers ss))
      | some w =>
        obtain ⟨hhead, htail⟩ := List.cons.inj h
        obtain ⟨-, rfl⟩ := Prod.mk.inj hhead
        rw [optionalMembers_inj hrest hnd.2 htail]

theorem wellFormed_optionalMembers {table : List (String × Option Json)}
    (hnodup : (Entries.keys table).Nodup)
    (hvalues : ∀ name v, (name, some v) ∈ table → v.WellFormed) :
    (Json.object (optionalMembers table)).WellFormed := by
  refine Json.wellFormed_object_iff.mpr
    ⟨hnodup.sublist (keys_optionalMembers_sublist table), fun m hm => ?_⟩
  exact hvalues m.1 m.2 (mem_optionalMembers_iff.mp hm)

/-! ## 2. Lists and maps -/

section Maps

variable {α β : Type} {f : α → β}

/-- Lists with the same images are the same if their items can be told from their images. -/
theorem eq_of_map_eq_map : ∀ {xs ys : List α}, (∀ a ∈ xs, ∀ b ∈ ys, f a = f b → a = b) →
    xs.map f = ys.map f → xs = ys
  | [], [], _, _ => rfl
  | [], _ :: _, _, h | _ :: _, [], _, h => absurd h (by simp)
  | a :: xs, b :: ys, hf, h => by
    obtain ⟨hhead, htail⟩ := List.cons.inj h
    obtain rfl := hf a List.mem_cons_self b List.mem_cons_self hhead
    rw [eq_of_map_eq_map (fun a ha b hb => hf a (List.mem_cons_of_mem _ ha) b
      (List.mem_cons_of_mem _ hb)) htail]

/-- Maps with the same images are the same if their values can be told from their images. -/
theorem OrderedMap.eq_of_entries_map_eq {m n : OrderedMap α}
    (hf : ∀ a ∈ m.values, ∀ b ∈ n.values, f a = f b → a = b)
    (h : (m.map f).entries = (n.map f).entries) : m = n := by
  refine OrderedMap.ext (eq_of_map_eq_map (fun d hd e he heq => ?_) h)
  obtain ⟨hkey, hvalue⟩ := Prod.mk.inj heq
  exact Prod.ext hkey (hf d.2 (List.mem_map_of_mem hd) e.2 (List.mem_map_of_mem he) hvalue)

theorem OrderedMap.wellFormed_object_map {toJson : α → Json} {m : OrderedMap α}
    (h : ∀ a ∈ m.values, (toJson a).WellFormed) :
    (Json.object (m.map toJson).entries).WellFormed := by
  refine Json.wellFormed_object_iff.mpr ⟨(m.map toJson).nodup, fun e he => ?_⟩
  obtain ⟨d, hd, rfl⟩ := List.mem_map.mp he
  exact h d.2 (List.mem_map_of_mem hd)

end Maps

/-! ## 3. Parts of a node -/

/-- No tag passes for the name of a type. -/
def RuntimeType.Unmistakable (t : RuntimeType) : Prop :=
  ∀ tag, t = .unmapped tag → tag ∉ ["Boolean", "Number", "String"]

/-- A type can be told from its name, the tag that stands in for one, or null. -/
theorem RuntimeType.toJson_inj {t u : RuntimeType} (ht : t.Unmistakable) (hu : u.Unmistakable)
    (h : t.toJson = u.toJson) : t = u := by
  cases t with
  | unmapped tag =>
    have htag := ht tag rfl
    cases u with
    | unmapped other => exact congrArg unmapped (Json.string.inj h)
    | boolean | number | string =>
      obtain rfl : tag = _ := Json.string.inj h
      exact absurd htag (by decide)
    | undeclared => exact absurd h (by simp [toJson, name?])
  | boolean | number | string | undeclared =>
    cases u with
    | unmapped tag =>
      have htag := hu tag rfl
      simp_all [toJson, name?]
    | boolean | number | string | undeclared => simp_all [toJson, name?]

theorem RuntimeType.wellFormed_toJson (t : RuntimeType) : t.toJson.WellFormed := by
  cases t <;> trivial

/-- A tag that passes for a name is written as the name is. -/
example : (RuntimeType.unmapped "Number").toJson = RuntimeType.number.toJson := rfl

namespace Destination

theorem toJson_eq (d : Destination) : d.toJson = .object (optionalMembers
    [("nodeId", d.nodeId.map .string), ("key", d.key.map .string)]) := by
  obtain ⟨nodeId, key⟩ := d
  cases nodeId <;> cases key <;> rfl

theorem toJson_inj {d e : Destination} (h : d.toJson = e.toJson) : d = e := by
  rw [toJson_eq, toJson_eq] at h
  have htable : [("nodeId", d.nodeId.map Json.string), ("key", d.key.map .string)] =
      [("nodeId", e.nodeId.map .string), ("key", e.key.map .string)] :=
    optionalMembers_inj rfl (by simp [Entries.keys]) (Json.object.inj h)
  obtain ⟨hnodeId, hkey⟩ : d.nodeId.map Json.string = e.nodeId.map .string ∧
      d.key.map Json.string = e.key.map .string := by simpa using htable
  have hstring := Option.map_injective fun _ _ => Json.string.inj
  obtain ⟨_, _⟩ := d
  obtain ⟨_, _⟩ := e
  obtain rfl := hstring hnodeId
  obtain rfl := hstring hkey
  rfl

theorem wellFormed_toJson (d : Destination) : d.toJson.WellFormed := by
  rw [toJson_eq]
  refine wellFormed_optionalMembers (by simp [Entries.keys]) fun name v hv => ?_
  obtain ⟨s, rfl⟩ : ∃ s, .string s = v := by
    simp only [List.mem_cons, Prod.mk.injEq, List.not_mem_nil, or_false] at hv
    rcases hv with ⟨-, hv⟩ | ⟨-, hv⟩ <;>
      exact (Option.map_eq_some_iff.mp hv.symm).imp fun _ => And.right
  trivial

end Destination

namespace OutLink

theorem toJson_inj {l m : OutLink} (h : l.toJson = m.toJson) : l = m := by
  obtain ⟨hmember, -⟩ := List.cons.inj (Json.object.inj h)
  obtain ⟨hpinKey, hdestination⟩ := Prod.mk.inj hmember
  have hdestination := Destination.toJson_inj hdestination
  cases l
  cases m
  simp_all

theorem wellFormed_toJson (l : OutLink) : l.toJson.WellFormed := by
  refine Json.wellFormed_object_iff.mpr ⟨by simp, fun m hm => ?_⟩
  rw [List.mem_singleton.mp hm]
  exact l.destination.wellFormed_toJson

end OutLink

/-! ## 4. A node and the table -/

/-- The values that a node passes on from its type. -/
def Behavior.payloads (b : Behavior) : List Json :=
  b.purity.toList ++ b.setup.toList ++ b.evaluate.toList

namespace RuntimeNode

/-- No tag among the types of the inputs passes for a name. -/
def Unmistakable (r : RuntimeNode) : Prop := ∀ t ∈ r.behavior.inputTypes.values, t.Unmistakable

/-- The members of a node, the missing ones among them. -/
def members (r : RuntimeNode) : List (String × Option Json) :=
  [("id", r.id.map .string), ("pure", r.behavior.purity), ("setup", r.behavior.setup),
    ("evaluate", r.behavior.evaluate),
    ("inputTypes", some (inputTypesToJson r.behavior.inputTypes)),
    ("outLinks", some (.array (r.outLinks.map OutLink.toJson)))]

theorem keys_members (r : RuntimeNode) :
    Entries.keys r.members = ["id", "pure", "setup", "evaluate", "inputTypes", "outLinks"] := rfl

theorem nodup_keys_members (r : RuntimeNode) : (Entries.keys r.members).Nodup := by
  rw [keys_members]
  decide

theorem toJson_eq (r : RuntimeNode) : r.toJson = .object (optionalMembers r.members) := by
  simp [toJson, members, optionalMembers, optionalMember]

/-- **A node can be told from its object.** -/
theorem toJson_inj {r q : RuntimeNode} (hr : r.Unmistakable) (hq : q.Unmistakable)
    (h : r.toJson = q.toJson) : r = q := by
  rw [toJson_eq, toJson_eq] at h
  have hmembers : r.members = q.members :=
    optionalMembers_inj (by rw [keys_members, keys_members]) r.nodup_keys_members
      (Json.object.inj h)
  obtain ⟨hid, hpurity, hsetup, hevaluate, htypes, hlinks⟩ :
      r.id.map Json.string = q.id.map .string ∧ r.behavior.purity = q.behavior.purity ∧
      r.behavior.setup = q.behavior.setup ∧ r.behavior.evaluate = q.behavior.evaluate ∧
      inputTypesToJson r.behavior.inputTypes = inputTypesToJson q.behavior.inputTypes ∧
      r.outLinks.map OutLink.toJson = q.outLinks.map OutLink.toJson := by
    simpa only [members, List.cons.injEq, Prod.mk.injEq, true_and, and_true, Option.some.injEq,
      Json.array.injEq] using hmembers
  have hinputTypes : r.behavior.inputTypes = q.behavior.inputTypes :=
    OrderedMap.eq_of_entries_map_eq
      (fun t ht u hu => RuntimeType.toJson_inj (hr t ht) (hq u hu)) (Json.object.inj htypes)
  have houtLinks : r.outLinks = q.outLinks :=
    eq_of_map_eq_map (fun _ _ _ _ => OutLink.toJson_inj) hlinks
  have hid : r.id = q.id := Option.map_injective (fun _ _ => Json.string.inj) hid
  obtain ⟨_, ⟨_, _, _, _⟩, _⟩ := r
  obtain ⟨_, ⟨_, _, _, _⟩, _⟩ := q
  simp_all

theorem wellFormed_toJson {r : RuntimeNode} (h : ∀ v ∈ r.behavior.payloads, v.WellFormed) :
    r.toJson.WellFormed := by
  have htypes : (inputTypesToJson r.behavior.inputTypes).WellFormed :=
    OrderedMap.wellFormed_object_map fun t _ => t.wellFormed_toJson
  have hlinks : (Json.array (r.outLinks.map OutLink.toJson)).WellFormed := by
    refine Json.wellFormed_array_iff.mpr fun v hv => ?_
    obtain ⟨l, -, rfl⟩ := List.mem_map.mp hv
    exact l.wellFormed_toJson
  rw [toJson_eq]
  refine wellFormed_optionalMembers r.nodup_keys_members fun name v hv => ?_
  simp only [members, List.mem_cons, Prod.mk.injEq, Option.some.injEq, List.not_mem_nil,
    or_false] at hv
  obtain ⟨-, hid⟩ | ⟨-, hpayload⟩ | ⟨-, hpayload⟩ | ⟨-, hpayload⟩ | ⟨-, rfl⟩ | ⟨-, rfl⟩ := hv
  · obtain ⟨id, -, rfl⟩ := Option.map_eq_some_iff.mp hid.symm
    trivial
  · exact h v (by simp [Behavior.payloads, ← hpayload])
  · exact h v (by simp [Behavior.payloads, ← hpayload])
  · exact h v (by simp [Behavior.payloads, ← hpayload])
  · exact htypes
  · exact hlinks

end RuntimeNode

theorem wellFormed_nodeTableToJson {nodes : OrderedMap RuntimeNode}
    (h : ∀ r ∈ nodes.values, ∀ v ∈ r.behavior.payloads, v.WellFormed) :
    (nodeTableToJson nodes).WellFormed :=
  OrderedMap.wellFormed_object_map fun r hr => RuntimeNode.wellFormed_toJson (h r hr)

/-- **The document says everything of the node table.**  Of two tables whose nodes have no tag
that passes for a name: each is written as a document that names no member twice, at any depth,
as long as the values passed on from the types are such documents; and if the two documents are
the same, member by member and in the same order, so are the tables.

That a table can be written needs no proof, since `nodeTableToJson` is a total function and has no
way to fail.  What could go wrong is that the outcome is no document, one with a member named twice,
so this is what is proved in its place. -/
theorem nodeTableToJson_determines {nodes others : OrderedMap RuntimeNode}
    (hnodes : ∀ r ∈ nodes.values, r.Unmistakable) (hothers : ∀ r ∈ others.values, r.Unmistakable) :
    ((∀ r ∈ nodes.values, ∀ v ∈ r.behavior.payloads, v.WellFormed) →
      (nodeTableToJson nodes).WellFormed) ∧
    ((∀ r ∈ others.values, ∀ v ∈ r.behavior.payloads, v.WellFormed) →
      (nodeTableToJson others).WellFormed) ∧
    (nodeTableToJson nodes = nodeTableToJson others → nodes = others) :=
  ⟨wellFormed_nodeTableToJson, wellFormed_nodeTableToJson, fun h =>
    OrderedMap.eq_of_entries_map_eq
      (fun r hr q hq => RuntimeNode.toJson_inj (hnodes r hr) (hothers q hq)) (Json.object.inj h)⟩

namespace Example

/-- A table of one node, which feeds one input and leads nowhere once. -/
def oneNode (setup : Option Json) : OrderedMap RuntimeNode := .ofList [("a", {
  id := some "a",
  behavior := {
    setup,
    inputTypes := .ofList [("x", .undeclared), ("y", .unmapped "color"), ("z", .number)] },
  outLinks := [⟨"out", .inputOf "b" "in"⟩, ⟨"out", {}⟩] })]

theorem values_oneNode (setup : Option Json) : ∃ r, (oneNode setup).values = [r] ∧
    r.behavior.payloads = setup.toList ∧
    r.behavior.inputTypes.values = [.undeclared, .unmapped "color", .number] :=
  ⟨_, rfl, by simp [Behavior.payloads], rfl⟩

theorem unmistakable_of_mem_oneNode (setup : Option Json) :
    ∀ r ∈ (oneNode setup).values, r.Unmistakable := by
  obtain ⟨r, hr, -, htypes⟩ := values_oneNode setup
  rw [hr]
  intro q hq t ht tag htag
  obtain rfl := List.mem_singleton.mp hq
  rw [htypes, htag] at ht
  obtain rfl : tag = "color" := by simpa using ht
  decide

/-- A setup that is null is not one that is missing. -/
theorem null_setup_is_told_apart :
    (∀ r ∈ (oneNode (some .null)).values, r.Unmistakable) ∧
    (∀ r ∈ (oneNode none).values, r.Unmistakable) ∧
    (nodeTableToJson (oneNode (some .null))).WellFormed ∧
    (nodeTableToJson (oneNode none)).WellFormed ∧
    nodeTableToJson (oneNode (some .null)) ≠ nodeTableToJson (oneNode none) := by
  have hnull := unmistakable_of_mem_oneNode (some .null)
  have hnone := unmistakable_of_mem_oneNode none
  obtain ⟨hnullWritten, hnoneWritten, hinj⟩ := nodeTableToJson_determines hnull hnone
  have hpayloads : ∀ setup : Option Json, (∀ v ∈ setup, v.WellFormed) →
      ∀ r ∈ (oneNode setup).values, ∀ v ∈ r.behavior.payloads, v.WellFormed := by
    intro setup hsetup r hr v hv
    obtain ⟨q, hq, hpayloads, -⟩ := values_oneNode setup
    obtain rfl : r = q := by simpa [hq] using hr
    exact hsetup v (by simpa [hpayloads] using hv)
  refine ⟨hnull, hnone, hnullWritten (hpayloads _ ?_), hnoneWritten (hpayloads _ ?_), fun h => ?_⟩
  · rintro v ⟨rfl⟩
    trivial
  · rintro v ⟨⟩
  · have hsame := congrArg (fun nodes => nodes.values.map fun r => r.behavior.setup) (hinj h)
    exact absurd hsame (by decide)

end Example
end Patchbay
