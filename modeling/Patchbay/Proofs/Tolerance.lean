/-
# Tolerance: a bad record costs itself and nothing else

Any object is a project.  What a document holds in the wrong shape is left out where it stands,
at the smallest place that can be left out: a field that can be absent, or else an entry of a
map.  This file says, by the shape of the values alone, which entries a project takes over from
its document.

The shapes are few (`Json.isObject`, `Json.isRecord`, `Json.isDeclaredPin`).  A map is *sifted
from* what stands in its place when it has an entry for each of the document's entries of the
right shape, in their order, and no other (`OrderedMap.SiftedFrom`); what is no map holds no
entry.  `Project.SiftedFrom` says so of all maps at all levels.

* `Node.isOk_ofJson` and its like: a value is read as a record exactly if it has the shape;
* `sifted_readMap`: a map is sifted by its reader;
* `Patch.sifted_of_ofJson`, `NodeType.sifted_of_ofJson`: so are the maps of a patch and of a node
  type;
* `Project.ofJson_sifts`: every object is read, and its maps are sifted.
-/
import Patchbay.Report
import Patchbay.Proofs.Parts

namespace Patchbay

/-! ## 1. Shapes -/

namespace Json

/-- An object. -/
def isObject : Json → Bool
  | object _ => true
  | _ => false

/-- An object, or an array with no more items than there are fields. -/
def isRecord (fieldCount : Nat) : Json → Bool
  | object _ => true
  | array items => items.length ≤ fieldCount
  | _ => false

/-- Null or a text. -/
def isTag : Json → Bool
  | null | string _ => true
  | _ => false

/-- A record of at most three fields whose direction and type, if they are there, are null or
texts. -/
def isDeclaredPin : Json → Bool
  | object members => (members.lookup "direction").all isTag && (members.lookup "type").all isTag
  | array items => items.length ≤ 3 && items[1]?.all isTag && items[2]?.all isTag
  | _ => false

/-- The entries of what stands in place of a map: none if nothing does, or something else than
an object. -/
def entriesOf : Option Json → List (String × Json)
  | some (object members) => members
  | _ => []

theorem isTag_iff {v : Json} : v.isTag = true ↔ v = null ∨ ∃ s, v = string s := by
  cases v <;> simp [isTag]

theorem wellFormedMembers_iff {members : List (String × Json)} :
    WellFormedMembers members ↔ ∀ m ∈ members, m.2.WellFormed := by
  induction members with
  | nil => simp [WellFormedMembers]
  | cons m rest ih => simp [WellFormedMembers, ih]

theorem wellFormedItems_iff {items : List Json} :
    WellFormedItems items ↔ ∀ v ∈ items, v.WellFormed := by
  induction items with
  | nil => simp [WellFormedItems]
  | cons v rest ih => simp [WellFormedItems, ih]

theorem wellFormed_object_iff {members : List (String × Json)} : (object members).WellFormed ↔
    (Entries.keys members).Nodup ∧ ∀ m ∈ members, m.2.WellFormed := by
  rw [WellFormed, wellFormedMembers_iff]

theorem wellFormed_array_iff {items : List Json} :
    (array items).WellFormed ↔ ∀ v ∈ items, v.WellFormed := by
  rw [WellFormed, wellFormedItems_iff]

theorem WellFormed.of_lookup {members : List (String × Json)} (h : (object members).WellFormed)
    {name : String} {w : Json} (hw : members.lookup name = some w) : w.WellFormed :=
  (wellFormed_object_iff.mp h).2 (name, w) ((Entries.lookup_eq_some_iff h.1).mp hw)

theorem WellFormed.of_member? {v : Json} (h : v.WellFormed) {name : String} {w : Json}
    (hw : v.member? name = some w) : w.WellFormed := by
  cases v with
  | object members => exact h.of_lookup hw
  | null | bool _ | number _ | string _ | array _ => exact absurd hw (by simp [member?])

/-- The parts of a record are well formed if it is. -/
theorem WellFormed.of_part? {v : Json} (h : v.WellFormed) {name : String} {i : Nat} {w : Json}
    (hw : v.part? name i = some w) : w.WellFormed := by
  cases v with
  | object members => exact h.of_lookup hw
  | array items => exact wellFormed_array_iff.mp h w (List.mem_of_getElem? hw)
  | null | bool _ | number _ | string _ => exact absurd hw (by simp [part?])

/-- What is read from a text is well formed. -/
theorem wellFormed_of_read? {text : String} {v : Json} (h : read? text = .ok v) :
    v.WellFormed := by
  unfold read? at h
  cases htree : readTree? text with
  | error fault =>
    rw [htree] at h
    exact absurd h (by simp [bind, Except.bind])
  | ok w =>
    rw [htree] at h
    obtain rfl : w.normalize = v := Except.ok.inj h
    exact wellFormed_normalize w

end Json

/-! ## 2. Sifted maps -/

/-- The map has one entry for each entry of the document's map that passes the test, under the
same key and in the same order, and its record relates to the value there. -/
def OrderedMap.SiftedFrom {α : Type} (source : Option Json) (test : Json → Bool)
    (R : Json → α → Prop) (m : OrderedMap α) : Prop :=
  List.Forall₂ (fun e r => e.1 = r.1 ∧ R e.2 r.2)
    ((Json.entriesOf source).filter fun e => test e.2) m.entries

/-- The maps of a patch that is read from the object. -/
structure Patch.SiftedFrom (v : Json) (p : Patch) : Prop where
  nodes : p.nodes.SiftedFrom (v.member? "nodes") (Json.isRecord 2)
    fun w n => (Node.ofJson w).value = .ok n
  pins : p.pins.SiftedFrom (v.member? "pins") (Json.isRecord 3)
    fun w n => (Pin.ofJson w).value = .ok n
  links : p.links.SiftedFrom (v.member? "links") (Json.isRecord 2)
    fun w l => (Link.ofJson w).value = .ok l

/-- The map of a node type that is read from the object or array. -/
structure NodeType.SiftedFrom (v : Json) (t : NodeType) : Prop where
  pins : t.pins.SiftedFrom (v.part? "pins" 4) Json.isDeclaredPin
    fun w d => (DeclaredPin.ofJson w).value = .ok d

/-- The maps of a project that is read from the object, at every level. -/
structure Project.SiftedFrom (v : Json) (p : Project) : Prop where
  patches : p.patches.SiftedFrom (v.member? "patches") Json.isObject fun w patch =>
    (Patch.ofJson w).value = .ok patch ∧ patch.SiftedFrom w
  nodeTypes : p.nodeTypes.SiftedFrom (v.member? "nodeTypes") (Json.isRecord 5) fun w t =>
    (NodeType.ofJson w).value = .ok t ∧ t.SiftedFrom w

section Sifting

variable {α : Type} {record : Json → Logged (Verdict α)} {test : Json → Bool}
  {R : Json → α → Prop}

/-- Leaving out what is not read is leaving out what does not pass the test. -/
theorem forall₂_filter_filterMap : ∀ {members : List (String × Json)},
    (∀ e ∈ members, (record e.2).value.isOk = test e.2) →
    (∀ e ∈ members, ∀ x, (record e.2).value = .ok x → R e.2 x) →
      List.Forall₂ (fun e r => e.1 = r.1 ∧ R e.2 r.2) (members.filter fun e => test e.2)
        (members.filterMap fun e => (record e.2).value.toOption.map fun x => (e.1, x))
  | [], _, _ => .nil
  | m :: rest, htest, hR => by
    have ih := forall₂_filter_filterMap (fun e he => htest e (List.mem_cons_of_mem _ he))
      fun e he => hR e (List.mem_cons_of_mem _ he)
    -- the head is kept on both sides or on neither
    have hm := htest m List.mem_cons_self
    cases hrecord : (record m.2).value with
    | error reason =>
      have hfails : test m.2 = false := by
        rw [← hm, hrecord]
        rfl
      rw [List.filter_cons_of_neg (by simp [hfails]),
        List.filterMap_cons_none (by rw [hrecord]; rfl)]
      exact ih
    | ok x =>
      have hpasses : test m.2 = true := by
        rw [← hm, hrecord]
        rfl
      rw [List.filter_cons_of_pos (by simp [hpasses]),
        List.filterMap_cons_some (by rw [hrecord]; rfl)]
      exact .cons ⟨rfl, hR m List.mem_cons_self x hrecord⟩ ih

/-- A map is sifted by its reader from what stands in its place. -/
theorem sifted_readMap {source : Option Json} (hsource : ∀ v, source = some v → v.WellFormed)
    (htest : ∀ w : Json, w.WellFormed → (record w).value.isOk = test w)
    (hR : ∀ w : Json, w.WellFormed → ∀ x, (record w).value = .ok x → R w x) :
    ((source.map fun v => (readMap record v).value).getD .empty).SiftedFrom source test R := by
  match source, hsource with
  | some (.object members), hsource =>
    have hv := hsource _ rfl
    have hmem : ∀ e ∈ members, e.2.WellFormed := (Json.wellFormed_object_iff.mp hv).2
    show List.Forall₂ _ (members.filter fun e => test e.2) (readMap record _).value.entries
    rw [Field.entries_readMap hv.1]
    exact forall₂_filter_filterMap (fun e he => htest e.2 (hmem e he))
      fun e he => hR e.2 (hmem e he)
  | none, _ | some .null, _ | some (.bool _), _ | some (.number _), _ | some (.string _), _
  | some (.array _), _ => exact .nil

end Sifting

/-! ## 3. Records by their shape -/

open Patchbay.Field

/-- Where every field takes anything, the form of the record is all that counts. -/
theorem isOk_readRecord_of_accepts {ρ : Type} {expected : Expected} {fields : List (Field ρ)}
    (h : ∀ f ∈ fields, f.Accepts fun _ => True) (blank : ρ) (v : Json) :
    (readRecord expected fields blank v).value.isOk = v.isRecord fields.length := by
  refine Bool.eq_iff_iff.mpr ?_
  cases v with
  | object members =>
    have hread := isOk_readMembers_of_accepts h (fun r _ => r) members blank
    exact ⟨fun _ => rfl, fun _ => hread⟩
  | array items =>
    exact (isOk_readItems (P := fun _ _ => True) h items blank).trans (by simp [Json.isRecord])
  | null | bool _ | number _ | string _ => simp [readRecord, Json.isRecord, Verdict.isOk_iff]

theorem Node.isOk_ofJson (v : Json) : (ofJson v).value.isOk = v.isRecord 2 := by
  have hfields : ∀ f ∈ Node.fields, f.Accepts fun _ => True := by
    simp [fields, accepts_ident]
  exact isOk_readRecord_of_accepts hfields {} v

theorem Pin.isOk_ofJson (v : Json) : (ofJson v).value.isOk = v.isRecord 3 := by
  have hfields : ∀ f ∈ Pin.fields, f.Accepts fun _ => True := by
    simp [fields, accepts_ident]
  exact isOk_readRecord_of_accepts hfields {} v

theorem Link.isOk_ofJson (v : Json) : (ofJson v).value.isOk = v.isRecord 2 := by
  have hfields : ∀ f ∈ Link.fields, f.Accepts fun _ => True := by
    simp [fields, accepts_ident, accepts_ends]
  exact isOk_readRecord_of_accepts hfields {} v

theorem NodeType.isOk_ofJson (v : Json) : (ofJson v).value.isOk = v.isRecord 5 := by
  have hfields : ∀ f ∈ NodeType.fields, f.Accepts fun _ => True := by
    simp [fields, accepts_ident, accepts_payload, accepts_records]
  exact isOk_readRecord_of_accepts hfields {} v

/-- What is asked of the members of a declared pin. -/
def DeclaredPin.Fits (name : String) (v : Json) : Prop :=
  name = "direction" ∨ name = "type" → v.isTag = true

theorem DeclaredPin.fits_key (v : Json) : Fits "key" v :=
  fun hname => absurd hname (by decide)

theorem DeclaredPin.fits_iff_isTag {name : String} (hname : name = "direction" ∨ name = "type")
    (v : Json) : Fits name v ↔ v.isTag = true :=
  ⟨fun h => h hname, fun h _ => h⟩

theorem DeclaredPin.accepts_fields : ∀ f ∈ fields, f.Accepts (Fits f.name) := by
  -- which texts mean what does not matter: a tag takes any text
  have htag : ∀ {α : Type} {name : String} {ofTag : String → α} {tag : α → String}
      {get : DeclaredPin → Option α} {set : DeclaredPin → Option α → DeclaredPin},
      name = "direction" ∨ name = "type" →
        (Field.tagged name ofTag tag get set).Accepts (Fits name) := by
    intro α name ofTag tag get set hname v a
    rw [accepts_tagged v a, fits_iff_isTag hname, Json.isTag_iff]
  intro f hf
  simp only [fields, List.mem_cons, List.not_mem_nil, or_false] at hf
  rcases hf with rfl | rfl | rfl
  · exact fun v a => ⟨fun _ => fits_key v, fun _ => rfl⟩
  · exact htag (Or.inl rfl)
  · exact htag (Or.inr rfl)

/-- With distinct names, a test of a member is a test of every member of the name. -/
theorem all_lookup_iff {members : List (String × Json)} (h : (Entries.keys members).Nodup)
    (name : String) (p : Json → Bool) :
    (members.lookup name).all p = true ↔ ∀ m ∈ members, m.1 = name → p m.2 = true := by
  rw [Option.all_eq_true]
  constructor
  · rintro hall m hm rfl
    exact hall m.2 ((Entries.lookup_eq_some_iff h).mpr hm)
  · intro hall v hv
    exact hall (name, v) ((Entries.lookup_eq_some_iff h).mp hv) rfl

theorem DeclaredPin.isOk_ofJson {v : Json} (h : v.WellFormed) :
    (ofJson v).value.isOk = v.isDeclaredPin := by
  refine Bool.eq_iff_iff.mpr ?_
  cases v with
  | object members =>
    refine (isOk_readMembers accepts_fields members {}).trans ?_
    rw [Json.isDeclaredPin, Bool.and_eq_true, all_lookup_iff h.1, all_lookup_iff h.1]
    constructor
    · intro hall
      exact ⟨fun m hm hname => hall m hm (by rw [hname]; decide) (Or.inl hname),
        fun m hm hname => hall m hm (by rw [hname]; decide) (Or.inr hname)⟩
    · rintro ⟨hdirection, htype⟩ m hm - (hname | hname)
      · exact hdirection m hm hname
      · exact htype m hm hname
  | array items =>
    refine (isOk_readItems accepts_fields items {}).trans ?_
    have hdirection : ∀ v, Fits "direction" v ↔ v.isTag = true := fits_iff_isTag (Or.inl rfl)
    have htype : ∀ v, Fits "type" v ↔ v.isTag = true := fits_iff_isTag (Or.inr rfl)
    have hshape : (Json.array items).isDeclaredPin = true ↔ items.length ≤ 3 ∧
        items[1]?.all Json.isTag = true ∧ items[2]?.all Json.isTag = true := by
      rw [Json.isDeclaredPin, Bool.and_eq_true, Bool.and_eq_true, decide_eq_true_iff, and_assoc]
    rw [hshape]
    match items with
    | [] | [_] | [_, _] | [_, _, _] | _ :: _ :: _ :: _ :: _ =>
      simp [fields, Field.ident, Field.tagged, fits_key, hdirection, htype]
  | null | bool _ | number _ | string _ =>
    simp [ofJson, readRecord, Json.isDeclaredPin, Verdict.isOk_iff]

/-! ## 4. Patches and node types -/

namespace Patch

theorem isOk_ofJson (v : Json) : (ofJson v).value.isOk = v.isObject := by
  cases v with
  | object members =>
    have hfields : ∀ f ∈ Patch.fields, f.Accepts fun _ => True := by
      simp [fields, accepts_ident, accepts_records]
    exact isOk_readMembers_of_accepts hfields _ members {}
  | null | bool _ | number _ | string _ | array _ => rfl

theorem sifted_of_ofJson {v : Json} (hv : v.WellFormed) {p : Patch}
    (h : (ofJson v).value = .ok p) : p.SiftedFrom v := by
  obtain ⟨-, hnodes, hpins, hlinks⟩ := parts_of_ofJson hv h
  have hmember : ∀ {name : String} (w : Json), v.member? name = some w → w.WellFormed :=
    fun w hw => hv.of_member? hw
  refine ⟨?_, ?_, ?_⟩
  · rw [hnodes]
    exact sifted_readMap hmember (fun w _ => Node.isOk_ofJson w) fun _ _ _ hx => hx
  · rw [hpins]
    exact sifted_readMap hmember (fun w _ => Pin.isOk_ofJson w) fun _ _ _ hx => hx
  · rw [hlinks]
    exact sifted_readMap hmember (fun w _ => Link.isOk_ofJson w) fun _ _ _ hx => hx

end Patch

namespace NodeType

theorem sifted_of_ofJson {v : Json} (hv : v.WellFormed) {t : NodeType}
    (h : (ofJson v).value = .ok t) : t.SiftedFrom v := by
  refine ⟨?_⟩
  rw [(parts_of_ofJson hv h).2]
  exact sifted_readMap (fun w hw => hv.of_part? hw)
    (fun w hw => DeclaredPin.isOk_ofJson hw) fun _ _ _ hx => hx

end NodeType

/-! ## 5. Projects -/

namespace Project

theorem exists_ofJson_eq_ok_iff (v : Json) :
    (∃ p, (ofJson v).value = .ok p) ↔ v.isObject = true := by
  cases v with
  | object members =>
    have hfields : ∀ f ∈ Project.fields, f.Accepts fun _ => True := by
      simp [fields, accepts_records]
    obtain ⟨p, hp⟩ := Verdict.isOk_iff.mp
      (isOk_readMembers_of_accepts hfields (fun p _ => p) members {})
    exact ⟨fun _ => rfl, fun _ => ⟨p, ofJson_object_eq_ok_iff.mpr hp⟩⟩
  | null | bool _ | number _ | string _ | array _ => simp [ofJson, Json.isObject]

theorem sifted_of_ofJson {v : Json} (hv : v.WellFormed) {p : Project}
    (h : (ofJson v).value = .ok p) : p.SiftedFrom v := by
  obtain ⟨hpatches, htypes⟩ := parts_of_ofJson hv h
  have hmember : ∀ {name : String} (w : Json), v.member? name = some w → w.WellFormed :=
    fun w hw => hv.of_member? hw
  refine ⟨?_, ?_⟩
  · rw [hpatches]
    exact sifted_readMap hmember (fun w _ => Patch.isOk_ofJson w)
      fun _ hw _ hx => ⟨hx, Patch.sifted_of_ofJson hw hx⟩
  · rw [htypes]
    exact sifted_readMap hmember (fun w _ => NodeType.isOk_ofJson w)
      fun _ hw _ hx => ⟨hx, NodeType.sifted_of_ofJson hw hx⟩

/-- **Every object is a project, and what it has in a wrong shape is left out, and no more.**
Nothing but an object is read as a project, and the error says what was found instead.  Of an
object that names no member twice the maps are sifted, at every level.  What is read from a
text is such a value, so every text of an object is transformed, whatever else is in it. -/
theorem ofJson_sifts (v : Json) :
    ((∃ p, (ofJson v).value = .ok p) ↔ v.isObject = true) ∧
    (v.isObject = false → (ofJson v).value = .error (.notAnObject v.kind)) ∧
    (v.WellFormed → ∀ p, (ofJson v).value = .ok p → p.SiftedFrom v) ∧
    ∀ text, Json.read? text = .ok v → v.isObject = true →
      ∃ p nodes, (ofText text).value = .ok p ∧ p.SiftedFrom v ∧
        (transformText text).value = .ok nodes := by
  refine ⟨exists_ofJson_eq_ok_iff v, fun hv => ?_, fun hv p hp => sifted_of_ofJson hv hp,
    fun text htext hv => ?_⟩
  · cases v with
    | object members => exact absurd hv (by simp [Json.isObject])
    | null | bool _ | number _ | string _ | array _ => rfl
  · have hwell : v.WellFormed := Json.wellFormed_of_read? htext
    obtain ⟨p, hp⟩ := (exists_ofJson_eq_ok_iff v).mpr hv
    have hload : (ofText text).value = .ok p := by
      unfold ofText
      rw [htext]
      exact hp
    refine ⟨p, p.transform.value, hload, sifted_of_ofJson hwell hp, ?_⟩
    unfold transformText
    rw [Traced.value_bind, hload]
    rfl

end Project

namespace Example

/-- A document with something in a wrong shape at each level. -/
def spoiled : Json :=
  .object [
    ("patches", .object [
      ("main", .object [
        ("nodes", .object [("a", .object []), ("b", .bool true), ("c", .array [.string "c"])]),
        ("pins", .null)]),
      ("broken", .array [])]),
    ("nodeTypes", .object [
      ("add", .object [("pins", .object [
        ("x", .object [("direction", .bool true)]), ("y", .object [("direction", .null)])])]),
      ("number", .string "number")])]

/-- What there is of a project in `spoiled`. -/
def unspoiled : Project :=
  { patches := .ofList [("main", { nodes := .ofList [("a", {}), ("c", { id := some "c" })] })]
    nodeTypes := .ofList [("add", { pins := .ofList [("y", {})] })] }

/-- `unspoiled` is what is read from `spoiled`, and is sifted from it; a text whose only
patch is none is transformed all the same. -/
theorem spoiled_is_read :
    spoiled.WellFormed ∧ (Project.ofJson spoiled).value = .ok unspoiled ∧
      unspoiled.SiftedFrom spoiled ∧
      ∃ nodes,
        (Project.transformText "\x7b\"patches\":\x7b\"p\":true\x7d\x7d").value = .ok nodes := by
  have hwell : spoiled.WellFormed := by
    simp [spoiled, Json.WellFormed, Json.WellFormedMembers, Json.WellFormedItems, Entries.keys]
  have hread : (Project.ofJson spoiled).value = .ok unspoiled := by decide +kernel
  have htext : Json.read? "\x7b\"patches\":\x7b\"p\":true\x7d\x7d" =
      .ok (.object [("patches", .object [("p", .bool true)])]) := by decide +kernel
  have hsifts := (Project.ofJson_sifts spoiled).2.2.1 hwell unspoiled hread
  obtain ⟨p, nodes, -, -, hnodes⟩ := (Project.ofJson_sifts _).2.2.2 _ htext rfl
  exact ⟨hwell, hread, hsifts, nodes, hnodes⟩

end Example

end Patchbay
