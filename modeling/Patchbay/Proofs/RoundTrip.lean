/-
# Round trip: a project survives being written and read

Three things in a project do not survive it: a payload that is there and null, since null is
read as its absence; a tag kept as unknown though it is known, since it is read as the known
one; and a further member of a patch that has the name of a field, since it is read into the
field.  A project without them is well formed (`Project.WellFormed`).

* `Node.ofJson_toJson` and its like: each record is read back from what is written of it, and
  nothing is logged;
* `Patch.wellFormed_of_ofJson`, `NodeType.wellFormed_of_ofJson`: each record that is read from
  anything is well formed;
* `Project.ofJson_toJson_iff`: both together.  What can be read is exactly what survives.

The first is built up from blank records field by field (`Field.Rebuilds`), the second is an
invariant of reading (`Field.Keeps`).
-/
import Patchbay.Document.Load
import Patchbay.Proofs.Fields

namespace Patchbay

open Patchbay.Field

/-! ## 1. Well-formed projects -/

/-- No tag is kept as unknown that is known. -/
structure DeclaredPin.WellFormed (p : DeclaredPin) : Prop where
  direction : ∀ d, p.direction = some d → d.Proper
  type : ∀ t, p.type = some t → t.Proper

/-- No payload is there and null. -/
structure NodeType.WellFormed (t : NodeType) : Prop where
  purity : t.purity ≠ some .null
  setup : t.setup ≠ some .null
  evaluate : t.evaluate ≠ some .null
  pins : ∀ p ∈ t.pins.values, p.WellFormed

/-- No further member has the name of a field. -/
def Patch.WellFormed (p : Patch) : Prop :=
  ∀ key ∈ p.extra.keys, key ∉ ["id", "nodes", "pins", "links"]

/-- All patches and all node types are well formed. -/
structure Project.WellFormed (p : Project) : Prop where
  patches : ∀ patch ∈ p.patches.values, patch.WellFormed
  nodeTypes : ∀ t ∈ p.nodeTypes.values, t.WellFormed

/-! ## 2. Records without maps

A record is rebuilt by one `copies_…` for each field of its table, in the table's order; the
last one completes it. -/

theorem Node.ofJson_toJson (n : Node) : ofJson n.toJson = pure (.ok n) :=
  readRecord_writeRecord (by decide)
    (.cons (copies_ident rfl) (.cons (copies_ident rfl) (.nil n)))

theorem Pin.ofJson_toJson (p : Pin) : ofJson p.toJson = pure (.ok p) :=
  readRecord_writeRecord (by decide)
    (.cons (copies_ident rfl) (.cons (copies_ident rfl) (.cons (copies_ident rfl) (.nil p))))

theorem Link.ofJson_toJson (l : Link) : ofJson l.toJson = pure (.ok l) :=
  readRecord_writeRecord (by decide) (.cons (copies_ident rfl) (.cons copies_ends (.nil l)))

theorem DeclaredPin.ofJson_toJson {p : DeclaredPin} (h : p.WellFormed) :
    ofJson p.toJson = pure (.ok p) :=
  readRecord_writeRecord (by decide)
    (.cons (copies_ident rfl)
      (.cons (copies_tagged rfl fun d hd => (Direction.ofTag_tag_iff d).mpr (h.direction d hd))
        (.cons (copies_tagged rfl fun t ht => (PinType.ofTag_tag_iff t).mpr (h.type t ht))
          (.nil p))))

theorem DeclaredPin.wellFormed_of_ofJson {v : Json} {p : DeclaredPin}
    (h : (ofJson v).value = .ok p) : p.WellFormed := by
  refine of_readRecord (I := WellFormed) ?_ ⟨by simp, by simp⟩ h
  intro f hf
  simp only [fields, List.mem_cons, List.not_mem_nil, or_false] at hf
  rcases hf with rfl | rfl | rfl
  · exact keeps_ident fun a id ha => ⟨ha.direction, ha.type⟩
  · refine keeps_tagged fun a x ha hx => ⟨fun d hd => ?_, ha.type⟩
    obtain ⟨s, rfl⟩ := hx d hd
    exact Direction.proper_ofTag s
  · refine keeps_tagged fun a x ha hx => ⟨ha.direction, fun t ht => ?_⟩
    obtain ⟨s, rfl⟩ := hx t ht
    exact PinType.proper_ofTag s

/-! ## 3. Node types -/

theorem NodeType.ofJson_toJson {t : NodeType} (h : t.WellFormed) :
    ofJson t.toJson = pure (.ok t) :=
  readRecord_writeRecord (by decide)
    (.cons (copies_ident rfl)
      (.cons (copies_payload rfl h.purity)
        (.cons (copies_payload rfl h.setup)
          (.cons (copies_payload rfl h.evaluate)
            (.cons (copies_records fun p hp => DeclaredPin.ofJson_toJson (h.pins p hp))
              (.nil t))))))

theorem NodeType.wellFormed_of_ofJson {v : Json} {t : NodeType}
    (h : (ofJson v).value = .ok t) : t.WellFormed := by
  refine of_readRecord (I := WellFormed) ?_ ⟨by simp, by simp, by simp, by simp⟩ h
  intro f hf
  simp only [fields, List.mem_cons, List.not_mem_nil, or_false] at hf
  rcases hf with rfl | rfl | rfl | rfl | rfl
  · exact keeps_ident fun a id ha => ⟨ha.purity, ha.setup, ha.evaluate, ha.pins⟩
  · exact keeps_payload fun a v ha hv => ⟨hv, ha.setup, ha.evaluate, ha.pins⟩
  · exact keeps_payload fun a v ha hv => ⟨ha.purity, hv, ha.evaluate, ha.pins⟩
  · exact keeps_payload fun a v ha hv => ⟨ha.purity, ha.setup, hv, ha.pins⟩
  · refine keeps_records fun a m ha hm => ⟨ha.purity, ha.setup, ha.evaluate, fun p hp => ?_⟩
    obtain ⟨v, hv⟩ := hm p hp
    exact DeclaredPin.wellFormed_of_ofJson hv

/-! ## 4. Patches -/

namespace Patch

/-- A member that is not named for a field is a further member. -/
theorem find?_fields_eq_none_iff {key : String} :
    fields.find? (·.name = key) = none ↔ key ∉ ["id", "nodes", "pins", "links"] := by
  have hnames : fields.map Field.name = ["id", "nodes", "pins", "links"] := rfl
  rw [← hnames, List.find?_eq_none]
  simp

/-- The fields of a patch, which say nothing of its further members. -/
theorem rebuilds_fields (p : Patch) : Rebuilds p fields {} { p with extra := .empty } :=
  .cons (copies_ident rfl)
    (.cons (copies_records fun n _ => n.ofJson_toJson)
      (.cons (copies_records fun n _ => n.ofJson_toJson)
        (.cons (copies_records fun l _ => l.ofJson_toJson) (.nil _))))

/-- Further members are kept in their order. -/
theorem readMembers_extra : ∀ {members : List (String × Json)},
    (∀ m ∈ members, fields.find? (·.name = m.1) = none) → ∀ p : Patch,
      readMembers fields (fun p m => p.addExtra m.1 m.2) members p =
        pure (.ok { p with extra := p.extra.insertAll members })
  | [], _, p => rfl
  | m :: rest, h, p => by
    rw [readMembers_unknown (h m List.mem_cons_self),
      readMembers_extra (fun m hm => h m (List.mem_cons_of_mem _ hm))]
    rfl

theorem ofJson_toJson {p : Patch} (h : p.WellFormed) : ofJson p.toJson = pure (.ok p) := by
  have hextra : ∀ m ∈ p.extra.entries, fields.find? (·.name = m.1) = none := fun m hm =>
    find?_fields_eq_none_iff.mpr (h m.1 (List.mem_map.mpr ⟨m, hm, rfl⟩))
  have hlist : OrderedMap.empty.insertAll p.extra.entries = p.extra := p.extra.ofList_entries
  show readMembers fields _ (writeMembers fields p ++ p.extra.entries) {} = _
  rw [readMembers_writeMembers (find?_name (by decide)) p.rebuilds_fields,
    readMembers_extra hextra]
  simp only [hlist]

theorem wellFormed_of_ofJson {v : Json} {p : Patch} (h : (ofJson v).value = .ok p) :
    p.WellFormed := by
  cases v with
  | object members =>
    refine of_readMembers (I := WellFormed) (fun f hf => ?_) (fun a m ha hm => ?_) members
      (fun key hkey => absurd hkey (by simp)) h
    · simp only [fields, List.mem_cons, List.not_mem_nil, or_false] at hf
      rcases hf with rfl | rfl | rfl | rfl
      · exact keeps_ident fun a id ha => ha
      · exact keeps_records fun a nodes ha _ => ha
      · exact keeps_records fun a pins ha _ => ha
      · exact keeps_records fun a links ha _ => ha
    · intro key hkey
      have hkeys : key ∈ (a.extra.insert m.1 m.2).keys := hkey
      rw [OrderedMap.keys_insert] at hkeys
      split at hkeys
      · exact ha key hkeys
      · rcases List.mem_append.mp hkeys with hold | hnew
        · exact ha key hold
        · rw [List.mem_singleton.mp hnew]
          exact find?_fields_eq_none_iff.mp hm
  | null | bool _ | number _ | string _ | array _ => exact absurd h (by simp [ofJson])

end Patch

/-! ## 5. Projects -/

namespace Project

theorem ofJson_toJson {p : Project} (h : p.WellFormed) :
    ofJson p.toJson = ⟨.ok p, [.loaded p.patches.size p.nodeTypes.size]⟩ := by
  have hfields : Rebuilds p fields {} p :=
    .cons (copies_records fun patch hp => Patch.ofJson_toJson (h.patches patch hp))
      (.cons (copies_records fun t ht => NodeType.ofJson_toJson (h.nodeTypes t ht)) (.nil p))
  have hread : readMembers fields (fun p _ => p) (writeMembers fields p) {} = pure (.ok p) :=
    readMembers_writeMembers_self (by decide) hfields
  show (readMembers fields (fun p _ => p) (writeMembers fields p) {} >>= _) = _
  rw [hread]
  rfl

theorem wellFormed_of_ofJson {v : Json} {p : Project} (h : (ofJson v).value = .ok p) :
    p.WellFormed := by
  cases v with
  | object members =>
    refine of_readMembers (I := WellFormed) (fun f hf => ?_) (fun _ _ ha _ => ha) members
      ⟨by simp, by simp⟩ (ofJson_object_eq_ok_iff.mp h)
    simp only [fields, List.mem_cons, List.not_mem_nil, or_false] at hf
    rcases hf with rfl | rfl
    · refine keeps_records fun a m ha hm => ⟨fun patch hp => ?_, ha.nodeTypes⟩
      obtain ⟨v, hv⟩ := hm patch hp
      exact Patch.wellFormed_of_ofJson hv
    · refine keeps_records fun a m ha hm => ⟨ha.patches, fun t ht => ?_⟩
      obtain ⟨v, hv⟩ := hm t ht
      exact NodeType.wellFormed_of_ofJson hv
  | null | bool _ | number _ | string _ | array _ => exact absurd h (by simp [ofJson])

/-- **What can be read is exactly what survives being written and read.**  A well-formed
project is read back from what is written of it, every map in its order, and no warning is
logged.  Every project that is read from anything is well formed, so writing it and reading it
back changes nothing. -/
theorem ofJson_toJson_iff (p : Project) :
    (p.WellFormed →
      ofJson p.toJson = ⟨.ok p, [.loaded p.patches.size p.nodeTypes.size]⟩ ∧
        ∀ entry ∈ (ofJson p.toJson).trace, entry.isWarning = false) ∧
    ((∃ v, (ofJson v).value = .ok p) ↔ p.WellFormed) ∧
    ∀ v, (ofJson v).value = .ok p → (ofJson p.toJson).value = .ok p := by
  refine ⟨fun h => ⟨ofJson_toJson h, fun entry he => ?_⟩, ⟨?_, fun h => ?_⟩, fun v hv => ?_⟩
  · rw [ofJson_toJson h] at he
    rw [List.mem_singleton.mp he]
    rfl
  · rintro ⟨v, hv⟩
    exact wellFormed_of_ofJson hv
  · exact ⟨p.toJson, by rw [ofJson_toJson h]⟩
  · rw [ofJson_toJson (wellFormed_of_ofJson hv)]

end Project
end Patchbay
