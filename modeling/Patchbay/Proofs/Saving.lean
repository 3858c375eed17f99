/-
# Saving: a project survives being saved as text and loaded again

The text of a project is the text of its document, so two things have to be put together.  The
document gives the project back (`Project.ofJson_toJson`), and the text gives the document back
(`Json.read?_compact`).  The second needs of the document that it names no member twice, has no
double in it, and is not nested too deep (`Json.Plain`).

Most of a project's document is written by the tables of fields and is at most six containers
deep.  What could be deeper are the parts that are passed on as they are: payloads of node types
and further members of patches.  They were read at the depth at which they are written, three
containers below the root, so a text that was read leaves room for them, and maps that it lacked
are written in the room of others.

* `Field.plain_writeRecord`, `Project.plain_toJson`: what is written, from the parts that are
  passed on;
* `Patch.bounded_of_ofJson`, `NodeType.bounded_of_ofJson`, `Project.bounded_of_ofJson`: how deep
  these are where they are read;
* `Project.ofText_compact`: both together.
-/
import Patchbay.Proofs.Rereading
import Patchbay.Proofs.RoundTrip
import Patchbay.Proofs.Tolerance

namespace Patchbay

open Patchbay.Field

/-! ## 1. What a text gives back -/

namespace Json

/-- The value names no member twice and is at most so deep.  Whatever is read from a text is
such a value. -/
structure Bounded (d : Nat) (v : Json) : Prop where
  wellFormed : v.WellFormed
  depth : v.depth ≤ d

/-- A value that comes back from its text. -/
structure Plain (d : Nat) (v : Json) : Prop extends Bounded d v where
  doubleFree : v.DoubleFree

theorem bounded_object_iff {d : Nat} {members : List (String × Json)} :
    Bounded (d + 1) (object members) ↔
      (Entries.keys members).Nodup ∧ ∀ m ∈ members, Bounded d m.2 := by
  constructor
  · intro h
    have hwell := wellFormed_object_iff.mp h.wellFormed
    have hdepth := depth_object_le_iff.mp h.depth
    exact ⟨hwell.1, fun m hm => ⟨hwell.2 m hm, hdepth m hm⟩⟩
  · rintro ⟨hkeys, hmembers⟩
    exact ⟨wellFormed_object_iff.mpr ⟨hkeys, fun m hm => (hmembers m hm).wellFormed⟩,
      depth_object_le_iff.mpr fun m hm => (hmembers m hm).depth⟩

theorem bounded_array_iff {d : Nat} {items : List Json} :
    Bounded (d + 1) (array items) ↔ ∀ v ∈ items, Bounded d v := by
  constructor
  · intro h v hv
    exact ⟨wellFormed_array_iff.mp h.wellFormed v hv, depth_array_le_iff.mp h.depth v hv⟩
  · intro h
    exact ⟨wellFormed_array_iff.mpr fun v hv => (h v hv).wellFormed,
      depth_array_le_iff.mpr fun v hv => (h v hv).depth⟩

theorem bounded_of_read? {text : String} {v : Json} (h : read? text = .ok v) :
    Bounded deepest v :=
  ⟨wellFormed_of_read? h, depth_of_read? h⟩

namespace Plain

theorem mono {d e : Nat} {v : Json} (h : Plain d v) (hde : d ≤ e) : Plain e v :=
  ⟨⟨h.wellFormed, Nat.le_trans h.depth hde⟩, h.doubleFree⟩

theorem string (d : Nat) (s : String) : Plain d (.string s) :=
  ⟨⟨trivial, Nat.zero_le d⟩, trivial⟩

theorem object {d : Nat} {members : List (String × Json)} (hkeys : (Entries.keys members).Nodup)
    (h : ∀ m ∈ members, Plain d m.2) : Plain (d + 1) (.object members) :=
  ⟨bounded_object_iff.mpr ⟨hkeys, fun m hm => (h m hm).toBounded⟩,
    doubleFree_object_iff.mpr fun m hm => (h m hm).doubleFree⟩

theorem array {d : Nat} {items : List Json} (h : ∀ v ∈ items, Plain d v) :
    Plain (d + 1) (.array items) :=
  ⟨bounded_array_iff.mpr fun v hv => (h v hv).toBounded,
    doubleFree_array_iff.mpr fun v hv => (h v hv).doubleFree⟩

end Plain

end Json

open Json (Plain Bounded)

/-! ## 2. What records are written as -/

namespace Field

variable {ρ α : Type} {d : Nat} {r : ρ} {name : String}

/-- What the field writes of the record is a plain value. -/
def WritesPlain (f : Field ρ) (r : ρ) (d : Nat) : Prop := ∀ v, f.write r = some v → Plain d v

theorem writesPlain_ident {get : ρ → Option String} {set : ρ → Option String → ρ} :
    (ident name get set).WritesPlain r d := by
  intro v hv
  obtain ⟨s, -, rfl⟩ := Option.map_eq_some_iff.mp hv
  exact .string d s

theorem writesPlain_tagged {ofTag : String → α} {tag : α → String} {get : ρ → Option α}
    {set : ρ → Option α → ρ} : (tagged name ofTag tag get set).WritesPlain r d := by
  intro v hv
  obtain ⟨a, -, rfl⟩ := Option.map_eq_some_iff.mp hv
  exact .string d (tag a)

theorem writesPlain_payload {get : ρ → Option Json} {set : ρ → Option Json → ρ}
    (h : ∀ v, get r = some v → Plain d v) : (payload name get set).WritesPlain r d :=
  h

theorem writesPlain_ends {get : ρ → List (Option String)} {set : ρ → List (Option String) → ρ} :
    (ends name get set).WritesPlain r (d + 1) := by
  intro v hv
  obtain rfl := Option.some.inj hv
  refine .array fun w hw => ?_
  obtain ⟨s, -, rfl⟩ := List.mem_map.mp hw
  cases s with
  | none => exact ⟨⟨trivial, Nat.zero_le d⟩, trivial⟩
  | some s => exact .string d s

theorem writesPlain_records {record : Json → Logged (Verdict α)} {toJson : α → Json}
    {get : ρ → OrderedMap α} {set : ρ → OrderedMap α → ρ}
    (h : ∀ x ∈ (get r).values, Plain d (toJson x)) :
    (records name record toJson get set).WritesPlain r (d + 1) := by
  intro v hv
  obtain rfl := Option.some.inj hv
  refine .object ((get r).map toJson).nodup fun m hm => ?_
  obtain ⟨e, he, rfl⟩ := List.mem_map.mp hm
  exact h e.2 (List.mem_map.mpr ⟨e, he, rfl⟩)

theorem keys_writeMembers_sublist (fields : List (Field ρ)) (r : ρ) :
    (Entries.keys (writeMembers fields r)).Sublist (fields.map Field.name) := by
  induction fields with
  | nil => exact List.Sublist.refl _
  | cons f fs ih =>
    unfold writeMembers
    cases hwrite : f.write r with
    | none =>
      rw [List.filterMap_cons_none (by rw [hwrite]; rfl)]
      exact ih.cons f.name
    | some v =>
      rw [List.filterMap_cons_some (by rw [hwrite]; rfl)]
      exact ih.cons_cons f.name

theorem plain_of_mem_writeMembers {fields : List (Field ρ)}
    (h : ∀ f ∈ fields, f.WritesPlain r d) {m : String × Json}
    (hm : m ∈ writeMembers fields r) : Plain d m.2 := by
  obtain ⟨f, hf, hwrite⟩ := List.mem_filterMap.mp hm
  obtain ⟨v, hv, rfl⟩ := Option.map_eq_some_iff.mp hwrite
  exact h f hf v hv

/-- **A record is written as a plain value if its fields are**, one container deeper. -/
theorem plain_writeRecord {fields : List (Field ρ)} (hnames : (fields.map Field.name).Nodup)
    (h : ∀ f ∈ fields, f.WritesPlain r d) : Plain (d + 1) (writeRecord fields r) :=
  .object (hnames.sublist (keys_writeMembers_sublist fields r))
    fun _ hm => plain_of_mem_writeMembers h hm

end Field

theorem Node.plain_toJson (n : Node) : Plain 1 n.toJson := by
  refine plain_writeRecord (by decide) fun f hf => ?_
  simp only [fields, List.mem_cons, List.not_mem_nil, or_false] at hf
  rcases hf with rfl | rfl
  all_goals exact writesPlain_ident

theorem Pin.plain_toJson (p : Pin) : Plain 1 p.toJson := by
  refine plain_writeRecord (by decide) fun f hf => ?_
  simp only [fields, List.mem_cons, List.not_mem_nil, or_false] at hf
  rcases hf with rfl | rfl | rfl
  all_goals exact writesPlain_ident

theorem Link.plain_toJson (l : Link) : Plain 2 l.toJson := by
  refine plain_writeRecord (by decide) fun f hf => ?_
  simp only [fields, List.mem_cons, List.not_mem_nil, or_false] at hf
  rcases hf with rfl | rfl
  · exact writesPlain_ident
  · exact writesPlain_ends

theorem DeclaredPin.plain_toJson (p : DeclaredPin) : Plain 1 p.toJson := by
  refine plain_writeRecord (by decide) fun f hf => ?_
  simp only [fields, List.mem_cons, List.not_mem_nil, or_false] at hf
  rcases hf with rfl | rfl | rfl
  · exact writesPlain_ident
  · exact writesPlain_tagged
  · exact writesPlain_tagged

/-- The payloads that a node type has. -/
def NodeType.payloads (t : NodeType) : List Json :=
  [t.purity, t.setup, t.evaluate].filterMap fun payload => payload

theorem NodeType.mem_payloads_iff {t : NodeType} {v : Json} :
    v ∈ t.payloads ↔ t.purity = some v ∨ t.setup = some v ∨ t.evaluate = some v := by
  simp [payloads, eq_comm]

theorem NodeType.plain_toJson {t : NodeType} {d : Nat} (hd : 2 ≤ d)
    (h : ∀ v ∈ t.payloads, Plain d v) : Plain (d + 1) t.toJson := by
  refine plain_writeRecord (by decide) fun f hf => ?_
  simp only [fields, List.mem_cons, List.not_mem_nil, or_false] at hf
  rcases hf with rfl | rfl | rfl | rfl | rfl
  · exact writesPlain_ident
  · exact writesPlain_payload fun v hv => h v (mem_payloads_iff.mpr (Or.inl hv))
  · exact writesPlain_payload fun v hv => h v (mem_payloads_iff.mpr (Or.inr (Or.inl hv)))
  · exact writesPlain_payload fun v hv => h v (mem_payloads_iff.mpr (Or.inr (Or.inr hv)))
  · exact fun v hv => (writesPlain_records (fun p _ => p.plain_toJson) v hv).mono hd

theorem Patch.plain_toJson {p : Patch} {d : Nat} (hd : 3 ≤ d) (hp : p.WellFormed)
    (h : ∀ v ∈ p.extra.values, Plain d v) : Plain (d + 1) p.toJson := by
  have hfields : ∀ f ∈ fields, f.WritesPlain p d := by
    intro f hf
    simp only [fields, List.mem_cons, List.not_mem_nil, or_false] at hf
    rcases hf with rfl | rfl | rfl | rfl
    · exact writesPlain_ident
    · exact fun v hv => (writesPlain_records (fun n _ => n.plain_toJson) v hv).mono (by omega)
    · exact fun v hv => (writesPlain_records (fun n _ => n.plain_toJson) v hv).mono (by omega)
    · exact fun v hv => (writesPlain_records (fun l _ => l.plain_toJson) v hv).mono (by omega)
  refine .object ?_ fun m hm => ?_
  · -- the names of fields are distinct, those of further members, and the ones from the others
    have hnames := keys_writeMembers_sublist fields p
    rw [Entries.keys, List.map_append, List.nodup_append]
    refine ⟨List.Nodup.sublist hnames (by decide), p.extra.nodup, fun a ha b hb hab => ?_⟩
    exact hp b hb (hab ▸ hnames.subset ha)
  · rcases List.mem_append.mp hm with hm | hm
    · exact plain_of_mem_writeMembers hfields hm
    · exact h m.2 (List.mem_map.mpr ⟨m, hm, rfl⟩)

/-- What is passed on in a project has the property: payloads of node types and further members
of patches. -/
structure Project.PassesOn (P : Json → Prop) (p : Project) : Prop where
  extras : ∀ patch ∈ p.patches.values, ∀ v ∈ patch.extra.values, P v
  payloads : ∀ t ∈ p.nodeTypes.values, ∀ v ∈ t.payloads, P v

theorem Project.plain_toJson {p : Project} {d : Nat} (hd : 3 ≤ d) (hp : p.WellFormed)
    (h : p.PassesOn (Plain d)) : Plain (d + 3) p.toJson := by
  refine plain_writeRecord (by decide) fun f hf => ?_
  simp only [fields, List.mem_cons, List.not_mem_nil, or_false] at hf
  rcases hf with rfl | rfl
  · exact writesPlain_records fun patch hpatch =>
      Patch.plain_toJson hd (hp.patches patch hpatch) (h.extras patch hpatch)
  · exact writesPlain_records fun t ht => NodeType.plain_toJson (by omega) (h.payloads t ht)

/-! ## 3. What is read -/

/-- Further members are read from within their patch. -/
theorem Patch.bounded_of_ofJson {d : Nat} {v : Json} {p : Patch} (hv : Bounded (d + 1) v)
    (h : (ofJson v).value = .ok p) : ∀ w ∈ p.extra.values, Bounded d w := by
  cases v with
  | object members =>
    refine of_readMembers_from (D := Bounded d)
      (I := fun p : Patch => ∀ w ∈ p.extra.values, Bounded d w) (fun f hf => ?_)
      (fun a m ha hm _ w hw => ?_) members (Json.bounded_object_iff.mp hv).2 (by simp) h
    · simp only [fields, List.mem_cons, List.not_mem_nil, or_false] at hf
      rcases hf with rfl | rfl | rfl | rfl
      · exact Keeps.keepsFrom (keeps_ident fun a id ha => ha)
      · exact Keeps.keepsFrom (keeps_records fun a nodes ha _ => ha)
      · exact Keeps.keepsFrom (keeps_records fun a pins ha _ => ha)
      · exact Keeps.keepsFrom (keeps_records fun a links ha _ => ha)
    · obtain ⟨key, hkey⟩ := OrderedMap.mem_values_iff.mp hw
      rcases Entries.mem_place hkey with hnew | hold
      · exact (Prod.mk.inj hnew).2 ▸ hm
      · exact ha w (OrderedMap.mem_values_iff.mpr ⟨key, hold⟩)
  | null | bool _ | number _ | string _ | array _ => exact absurd h (by simp [ofJson])

/-- Payloads are read from within their node type, in either form. -/
theorem NodeType.bounded_of_ofJson {d : Nat} {v : Json} {t : NodeType} (hv : Bounded (d + 1) v)
    (h : (ofJson v).value = .ok t) : ∀ w ∈ t.payloads, Bounded d w := by
  have hfields : ∀ f ∈ fields,
      f.KeepsFrom (Bounded d) fun t : NodeType => ∀ w ∈ t.payloads, Bounded d w := by
    intro f hf
    simp only [mem_payloads_iff]
    simp only [fields, List.mem_cons, List.not_mem_nil, or_false] at hf
    rcases hf with rfl | rfl | rfl | rfl | rfl
    · exact Keeps.keepsFrom (keeps_ident fun a id ha => ha)
    · refine keepsFrom_payload fun a o ha ho w hw => ?_
      rcases hw with hw | hw | hw
      · exact ho w hw
      · exact ha w (Or.inr (Or.inl hw))
      · exact ha w (Or.inr (Or.inr hw))
    · refine keepsFrom_payload fun a o ha ho w hw => ?_
      rcases hw with hw | hw | hw
      · exact ha w (Or.inl hw)
      · exact ho w hw
      · exact ha w (Or.inr (Or.inr hw))
    · refine keepsFrom_payload fun a o ha ho w hw => ?_
      rcases hw with hw | hw | hw
      · exact ha w (Or.inl hw)
      · exact ha w (Or.inr (Or.inl hw))
      · exact ho w hw
    · exact Keeps.keepsFrom (keeps_records fun a pins ha _ => ha)
  have hblank : ∀ w ∈ ({} : NodeType).payloads, Bounded d w := by simp [payloads]
  cases v with
  | object members =>
    exact of_readMembers_from hfields (fun _ _ ha _ _ => ha) members
      (Json.bounded_object_iff.mp hv).2 hblank h
  | array items => exact of_readItems_from hfields items (Json.bounded_array_iff.mp hv) hblank h
  | null | bool _ | number _ | string _ => exact absurd h (by simp [ofJson, readRecord])

/-- What is passed on is read from three containers below the root. -/
theorem Project.bounded_of_ofJson {d : Nat} {v : Json} {p : Project} (hv : Bounded (d + 3) v)
    (h : (ofJson v).value = .ok p) : p.PassesOn (Bounded d) := by
  cases v with
  | object members =>
    refine of_readMembers_from (D := Bounded (d + 2)) (I := PassesOn (Bounded d)) (fun f hf => ?_)
      (fun _ _ ha _ _ => ha) members (Json.bounded_object_iff.mp hv).2 ⟨by simp, by simp⟩
      (ofJson_object_eq_ok_iff.mp h)
    simp only [fields, List.mem_cons, List.not_mem_nil, or_false] at hf
    rcases hf with rfl | rfl
    · refine keepsFrom_records (E := Bounded (d + 1))
        (fun ms hms => (Json.bounded_object_iff.mp hms).2)
        fun a m ha hm => ⟨fun patch hpatch => ?_, ha.payloads⟩
      obtain ⟨w, hw, hread⟩ := hm patch hpatch
      exact Patch.bounded_of_ofJson hw hread
    · refine keepsFrom_records (E := Bounded (d + 1))
        (fun ms hms => (Json.bounded_object_iff.mp hms).2)
        fun a m ha hm => ⟨ha.extras, fun t ht => ?_⟩
      obtain ⟨w, hw, hread⟩ := hm t ht
      exact NodeType.bounded_of_ofJson hw hread
  | null | bool _ | number _ | string _ | array _ => exact absurd h (by simp [ofJson])

/-! ## 4. Saving and loading -/

namespace Project

theorem ofText_eq_ok_iff {text : String} {p : Project} :
    (ofText text).value = .ok p ↔ ∃ v, Json.read? text = .ok v ∧ (ofJson v).value = .ok p := by
  unfold ofText
  cases Json.read? text with
  | error fault => simp
  | ok v => simp

/-- **A project that was loaded survives being saved and loaded again.**  If no number that it
passes on is a double, the text of its document is read as the same project, every map in its
order, without a warning; and saving that project again gives the same text. -/
theorem ofText_compact (p : Project) (text : String) (hload : (ofText text).value = .ok p)
    (hfree : p.PassesOn Json.DoubleFree) :
    ofText p.toJson.compact = ⟨.ok p, [.loaded p.patches.size p.nodeTypes.size]⟩ ∧
    (∀ entry ∈ (ofText p.toJson.compact).trace, entry.isWarning = false) ∧
    ∀ q, (ofText p.toJson.compact).value = .ok q → q.toJson.compact = p.toJson.compact := by
  obtain ⟨v, htext, hv⟩ := ofText_eq_ok_iff.mp hload
  have hwell : p.WellFormed := wellFormed_of_ofJson hv
  have hbounded : p.PassesOn (Bounded 124) := bounded_of_ofJson (Json.bounded_of_read? htext) hv
  have hplain : Plain Json.deepest p.toJson :=
    plain_toJson (by decide) hwell
      ⟨fun patch hp w hw => ⟨hbounded.extras patch hp w hw, hfree.extras patch hp w hw⟩,
        fun t ht w hw => ⟨hbounded.payloads t ht w hw, hfree.payloads t ht w hw⟩⟩
  have hread : Json.read? p.toJson.compact = .ok p.toJson :=
    Json.read?_compact hplain.wellFormed hplain.doubleFree hplain.depth
  have hagain : ofText p.toJson.compact =
      ⟨.ok p, [.loaded p.patches.size p.nodeTypes.size]⟩ := by
    rw [ofText, hread]
    exact ofJson_toJson hwell
  refine ⟨hagain, fun entry he => ?_, fun q hq => ?_⟩
  · rw [hagain] at he
    rw [List.mem_singleton.mp he]
    rfl
  · rw [hagain] at hq
    rw [Except.ok.inj hq]

end Project

namespace Example

/-- A text that leaves most maps out, spells an id as a number and a key with escapes, and
holds the outermost whole numbers. -/
def terse : String :=
  "\x7b\"patches\":\x7b\"a\\u0001\\\"é\":\x7b\"id\":1e2," ++
    "\"note\":[-9223372036854775808,18446744073709551615,\x7b\"x\":[]\x7d]," ++
    "\"links\":\x7b\"l\":\x7b\"pins\":[\"p\",7]\x7d\x7d\x7d\x7d," ++
    "\"nodeTypes\":\x7b\"t\":[null,true,\x7b\x7d]\x7d\x7d"

/-- The further member of the patch in `terse`. -/
def note : Json :=
  .array [.number (.int (-9223372036854775808) (by decide)),
    .number (.int 18446744073709551615 (by decide)), .object [("x", .array [])]]

/-- The project in `terse`. -/
def terseProject : Project :=
  { patches := .ofList [("a\x01\"é",
      { id := some "100.0"
        links := .ofList [("l", { ends := [some "p", none] })]
        extra := .ofList [("note", note)] })]
    nodeTypes := .ofList [("t", { purity := some (.bool true), setup := some (.object []) })] }

theorem terse_is_saved :
    (Project.ofText terse).value = .ok terseProject ∧ terseProject.PassesOn Json.DoubleFree ∧
      Project.ofText terseProject.toJson.compact = ⟨.ok terseProject, [.loaded 1 1]⟩ := by
  have hload : (Project.ofText terse).value = .ok terseProject := by decide +kernel
  have hextras : ∀ patch ∈ terseProject.patches.values, patch.extra.values = [note] := by decide
  have hpayloads : ∀ t ∈ terseProject.nodeTypes.values,
      t.payloads = [.bool true, .object []] := by decide
  have hfree : terseProject.PassesOn Json.DoubleFree := by
    refine ⟨fun patch hp v hv => ?_, fun t ht v hv => ?_⟩
    · rw [hextras patch hp] at hv
      rw [List.mem_singleton.mp hv]
      simp [note, Json.DoubleFree, Json.DoubleFreeItems, Json.DoubleFreeMembers]
    · rw [hpayloads t ht] at hv
      simp only [List.mem_cons, List.not_mem_nil, or_false] at hv
      rcases hv with rfl | rfl
      · trivial
      · trivial
  exact ⟨hload, hfree, (Project.ofText_compact terseProject terse hload hfree).1⟩

end Example

end Patchbay
