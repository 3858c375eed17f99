/-
# Parts: where each part of a record comes from

A field fills one part of a record with what it reads, and leaves the others as they are
(`Field.Fills`).  So the value that a part is read from is known by the field's name, in an
object, or by its position, in an array.  A view of the record is *owned* by the fields of a name
if they fill what it shows, and no other field touches it (`Field.Owns`).

* `owns_of_getElem?`: the field at an index of a table with distinct names owns the view of its
  part, whenever filling that part shows and filling the others does not;
* `view_readMembers`, `view_readItems`: a view comes from the member of its field or from the item
  at the position of its field, and stays as it is in their absence;
* `part_readMembers`, `part_readRecord`: both together, for the field at an index of a table;
* `Node.parts_of_ofJson` and its like: the parts of each record.
-/
import Patchbay.Document.Load
import Patchbay.Proofs.Intake

namespace Patchbay

namespace Json

/-- A part of a record in either form: the member of its name, or the item at its position. -/
def part? (name : String) (position : Nat) : Json → Option Json
  | object members => members.lookup name
  | array items => items[position]?
  | _ => none

/-- A member of an object. -/
def member? (name : String) : Json → Option Json
  | object members => members.lookup name
  | _ => none

end Json

namespace Field

variable {ρ α β : Type}

/-! ## 1. What a field fills -/

/-- The part of a record that a field fills. -/
class Fills (f : Field ρ) where
  /-- What can be there. -/
  Part : Type
  /-- Fills the part. -/
  set : ρ → Part → ρ
  /-- What a value is read as. -/
  part : Json → Part
  eq_of_read : ∀ v a b, (f.read v a).value = .ok b → b = set a (part v)
  read_null : ∀ a, f.read .null a = pure (.ok (set a (part .null)))

section Kinds

variable {name : String}

instance {get : ρ → Option String} {set : ρ → Option String → ρ} :
    Fills (ident name get set) where
  Part := Option String
  set := set
  part v := (readId v).value
  eq_of_read _ _ _ h := (Except.ok.inj h).symm
  read_null _ := rfl

instance {get : ρ → List (Option String)} {set : ρ → List (Option String) → ρ} :
    Fills (ends name get set) where
  Part := List (Option String)
  set := set
  part := endsOf
  eq_of_read _ _ _ h := (Except.ok.inj h).symm
  read_null _ := rfl

instance {get : ρ → Option Json} {set : ρ → Option Json → ρ} : Fills (payload name get set) where
  Part := Option Json
  set := set
  part v := if v = .null then none else some v
  eq_of_read _ _ _ h := (Except.ok.inj h).symm
  read_null _ := rfl

instance {ofTag : String → α} {tag : α → String} {get : ρ → Option α} {set : ρ → Option α → ρ} :
    Fills (tagged name ofTag tag get set) where
  Part := Option α
  set := set
  part v := (endOf v).map ofTag
  eq_of_read v a b h := by
    cases v with
    | null | string _ => exact (Except.ok.inj h).symm
    | bool _ | number _ | array _ | object _ => exact absurd h (by simp [tagged])
  read_null _ := rfl

instance {record : Json → Logged (Verdict α)} {toJson : α → Json} {get : ρ → OrderedMap α}
    {set : ρ → OrderedMap α → ρ} : Fills (records name record toJson get set) where
  Part := OrderedMap α
  set := set
  part v := (readMap record v).value
  eq_of_read _ _ _ h := (Except.ok.inj h).symm
  read_null _ := rfl

end Kinds

/-- A field keeps what does not show its part. -/
theorem keeps_view_of_fills {f : Field ρ} [Fills f] {view : ρ → β}
    (h : ∀ a x, view (Fills.set (f := f) a x) = view a) (c : β) :
    f.Keeps fun r => view r = c := by
  intro v a b ha hb
  rw [Fills.eq_of_read v a b hb, h, ha]

/-! ## 2. Who owns a view -/

/-- What the field reads settles the view. -/
def Draws (f : Field ρ) (view : ρ → β) (g : Json → β) : Prop :=
  ∀ v a b, (f.read v a).value = .ok b → view b = g v

/-- In the table, the fields of the name settle the view, and the others keep it. -/
def Owns (fields : List (Field ρ)) (name : String) (view : ρ → β) (g : Json → β) : Prop :=
  ∀ f ∈ fields, (f.name = name → f.Draws view g) ∧
    (f.name ≠ name → ∀ c, f.Keeps fun r => view r = c)

variable {fields : List (Field ρ)}

/-- With distinct names, a field of another name than that at the index is at another index. -/
theorem mem_eraseIdx_of_name_ne {i : Nat} {f g : Field ρ} (hf : fields[i]? = some f)
    (hg : g ∈ fields) (hne : g.name ≠ f.name) : g ∈ fields.eraseIdx i := by
  obtain ⟨j, hj⟩ := List.mem_iff_getElem?.mp hg
  refine List.mem_eraseIdx_iff_getElem?.mpr ⟨j, fun hji => hne ?_, hj⟩
  rw [← hji, hj] at hf
  rw [Option.some.inj hf]

/-- **The field at an index of a table owns the view of its part.** -/
theorem owns_of_getElem? {i : Nat} {f : Field ρ} [Fills f] {view : ρ → Fills.Part f}
    (hnames : (fields.map Field.name).Nodup) (hf : fields[i]? = some f)
    (hself : ∀ a x, view (Fills.set (f := f) a x) = x)
    (hothers : ∀ g ∈ fields.eraseIdx i, ∀ c, g.Keeps fun r => view r = c) :
    Owns fields f.name view (Fills.part (f := f)) := by
  intro g hg
  refine ⟨fun hname => ?_, fun hne => hothers g (mem_eraseIdx_of_name_ne hf hg hne)⟩
  have hgf : some g = some f := by
    rw [← find?_name hnames g hg, hname]
    exact find?_name hnames f (List.mem_of_getElem? hf)
  obtain rfl := Option.some.inj hgf
  intro v a b hb
  rw [Fills.eq_of_read v a b hb, hself]

/-! ## 3. Where a view comes from -/

variable {view : ρ → β} {g : Json → β}

/-- In an object a view comes from the member of its field. -/
theorem view_readMembers {name : String} {other : ρ → String × Json → ρ}
    (howns : Owns fields name view g) (hname : name ∈ fields.map Field.name)
    (hother : ∀ a m, view (other a m) = view a) :
    ∀ (members : List (String × Json)) {a b : ρ}, (Entries.keys members).Nodup →
      (readMembers fields other members a).value = .ok b →
        view b = ((members.lookup name).map g).getD (view a)
  | [], a, b, _, h => by
    obtain rfl : a = b := Except.ok.inj h
    rfl
  | m :: rest, a, b, hnodup, h => by
    have hnd := List.nodup_cons.mp hnodup
    cases hfind : fields.find? (·.name = m.1) with
    | none =>
      have hm : name ≠ m.1 := by
        rintro rfl
        obtain ⟨f, hf, hfm⟩ := List.mem_map.mp hname
        exact List.find?_eq_none.mp hfind f hf (by simpa using hfm)
      rw [readMembers_unknown hfind] at h
      rw [view_readMembers howns hname hother rest hnd.2 h, hother,
        Entries.lookup_cons_of_ne hm m.2 rest]
    | some f =>
      have hfm : f.name = m.1 := by simpa using List.find?_some hfind
      have hf := howns f (List.mem_of_find?_eq_some hfind)
      rw [readMembers_known hfind] at h
      obtain ⟨c, hc, hrest⟩ := value_bind_eq_ok_iff.mp h
      rw [view_readMembers howns hname hother rest hnd.2 hrest]
      by_cases hm : name = m.1
      · -- the field's own member, and there is no second one behind it
        have hnone : rest.lookup name = none := Entries.lookup_eq_none_iff.mpr (hm ▸ hnd.1)
        have hself : (m :: rest).lookup name = some m.2 := by
          rw [List.lookup_cons, hm, beq_self_eq_true]
        rw [hnone, hself]
        exact hf.1 (hfm.trans hm.symm) m.2 a c hc
      · have hkept : view c = view a :=
          hf.2 (fun he => hm (he.symm.trans hfm)) (view a) m.2 a c rfl hc
        rw [Entries.lookup_cons_of_ne hm m.2 rest, hkept]

/-- In an array a view comes from the item at the position of its field. -/
theorem view_readItems {name : String} {count : Nat} : ∀ {fields : List (Field ρ)},
    Owns fields name view g → (fields.map Field.name).Nodup → ∀ (items : List Json) {a b : ρ},
      (readItems count fields items a).value = .ok b →
        view b = (items[(fields.map Field.name).idxOf name]?.map g).getD (view a)
  | [], _, _, [], a, b, h | _ :: _, _, _, [], a, b, h => by
    obtain rfl : a = b := Except.ok.inj h
    rfl
  | [], _, _, _ :: _, _, _, h => absurd h (by simp [readItems])
  | f :: fs, howns, hnodup, v :: vs, a, b, h => by
    have hf := howns f List.mem_cons_self
    have hnd := List.nodup_cons.mp hnodup
    rw [readItems] at h
    obtain ⟨c, hc, hrest⟩ := value_bind_eq_ok_iff.mp h
    rw [List.map_cons]
    by_cases hname : f.name = name
    · have hkeeps : ∀ f' ∈ fs, f'.Keeps fun r => view r = view c := by
        intro f' hf'
        have hne : f'.name ≠ name := fun he =>
          hnd.1 (List.mem_map.mpr ⟨f', hf', he.trans hname.symm⟩)
        exact (howns f' (List.mem_cons_of_mem _ hf')).2 hne (view c)
      rw [hname, List.idxOf_cons_self, of_readItems hkeeps vs rfl hrest]
      exact hf.1 hname v a c hc
    · have hkept : view c = view a := hf.2 hname (view a) v a c rfl hc
      have ih := view_readItems (fun f' hf' => howns f' (List.mem_cons_of_mem _ hf')) hnd.2 vs hrest
      rw [ih, hkept, List.idxOf_cons_ne _ hname, List.getElem?_cons_succ]

section Index

variable {i : Nat} {f : Field ρ} [Fills f] {part : ρ → Fills.Part f} {blank b : ρ}

/-- In an object a part comes from the member of the name of its field. -/
theorem part_readMembers {other : ρ → String × Json → ρ} {members : List (String × Json)}
    (hnames : (fields.map Field.name).Nodup) (hnodup : (Entries.keys members).Nodup)
    (h : (readMembers fields other members blank).value = .ok b) (hf : fields[i]? = some f)
    (hself : ∀ a x, part (Fills.set (f := f) a x) = x)
    (hothers : ∀ g ∈ fields.eraseIdx i, ∀ c, g.Keeps fun r => part r = c)
    (hother : ∀ a m, part (other a m) = part a) :
    part b = ((members.lookup f.name).map (Fills.part (f := f))).getD (part blank) :=
  view_readMembers (owns_of_getElem? hnames hf hself hothers)
    (List.mem_map.mpr ⟨f, List.mem_of_getElem? hf, rfl⟩) hother members hnodup h

/-- In a record in either form a part comes from the part that its field stands for. -/
theorem part_readRecord {expected : Expected} {v : Json}
    (hnames : (fields.map Field.name).Nodup) (hv : v.WellFormed)
    (h : (readRecord expected fields blank v).value = .ok b) (hf : fields[i]? = some f)
    (hself : ∀ a x, part (Fills.set (f := f) a x) = x)
    (hothers : ∀ g ∈ fields.eraseIdx i, ∀ c, g.Keeps fun r => part r = c) :
    part b = ((v.part? f.name i).map (Fills.part (f := f))).getD (part blank) := by
  cases v with
  | object members =>
    exact part_readMembers hnames hv.1 h hf hself hothers fun _ _ => rfl
  | array items =>
    have hposition : (fields.map Field.name).idxOf f.name = i := by
      obtain ⟨hi, rfl⟩ := List.getElem?_eq_some_iff.mp hf
      have hlength : i < (fields.map Field.name).length := by rwa [List.length_map]
      rw [← List.getElem_map Field.name (h := hlength)]
      exact hnames.idxOf_getElem i hlength
    rw [view_readItems (owns_of_getElem? hnames hf hself hothers) hnames items h, hposition]
    rfl
  | null | bool _ | number _ | string _ => exact absurd h (by simp [readRecord])

end Index

end Field

/-! ## 4. The parts of each record -/

open Patchbay.Field

namespace Node

theorem parts_of_ofJson {v : Json} (hv : v.WellFormed) {n : Node} (h : (ofJson v).value = .ok n) :
    n.id = ((v.part? "id" 0).map fun w => (readId w).value).getD none ∧
      n.typeId = ((v.part? "typeId" 1).map fun w => (readId w).value).getD none := by
  have hnames : (fields.map Field.name).Nodup := by decide
  refine ⟨part_readRecord (i := 0) hnames hv h rfl ?_ ?_,
    part_readRecord (i := 1) hnames hv h rfl ?_ ?_⟩
  all_goals simp [fields, keeps_view_of_fills, Fills.set]

end Node

namespace Pin

theorem parts_of_ofJson {v : Json} (hv : v.WellFormed) {p : Pin} (h : (ofJson v).value = .ok p) :
    p.id = ((v.part? "id" 0).map fun w => (readId w).value).getD none ∧
      p.nodeId = ((v.part? "nodeId" 1).map fun w => (readId w).value).getD none ∧
        p.key = ((v.part? "key" 2).map fun w => (readId w).value).getD none := by
  have hnames : (fields.map Field.name).Nodup := by decide
  refine ⟨part_readRecord (i := 0) hnames hv h rfl ?_ ?_,
    part_readRecord (i := 1) hnames hv h rfl ?_ ?_,
    part_readRecord (i := 2) hnames hv h rfl ?_ ?_⟩
  all_goals simp [fields, keeps_view_of_fills, Fills.set]

end Pin

namespace Link

theorem parts_of_ofJson {v : Json} (hv : v.WellFormed) {l : Link} (h : (ofJson v).value = .ok l) :
    l.id = ((v.part? "id" 0).map fun w => (readId w).value).getD none ∧
      l.ends = ((v.part? "pins" 1).map endsOf).getD [] := by
  have hnames : (fields.map Field.name).Nodup := by decide
  refine ⟨part_readRecord (i := 0) hnames hv h rfl ?_ ?_,
    part_readRecord (i := 1) hnames hv h rfl ?_ ?_⟩
  all_goals simp [fields, keeps_view_of_fills, Fills.set]

end Link

namespace DeclaredPin

theorem parts_of_ofJson {v : Json} (hv : v.WellFormed) {d : DeclaredPin}
    (h : (ofJson v).value = .ok d) :
    d.key = ((v.part? "key" 0).map fun w => (readId w).value).getD none ∧
      d.direction = ((v.part? "direction" 1).map fun w =>
        (endOf w).map Direction.ofTag).getD none ∧
        d.type = ((v.part? "type" 2).map fun w => (endOf w).map PinType.ofTag).getD none := by
  have hnames : (fields.map Field.name).Nodup := by decide
  refine ⟨part_readRecord (i := 0) hnames hv h rfl ?_ ?_,
    part_readRecord (i := 1) hnames hv h rfl ?_ ?_,
    part_readRecord (i := 2) hnames hv h rfl ?_ ?_⟩
  all_goals simp [fields, keeps_view_of_fills, Fills.set]

end DeclaredPin

namespace NodeType

theorem parts_of_ofJson {v : Json} (hv : v.WellFormed) {t : NodeType}
    (h : (ofJson v).value = .ok t) :
    t.id = ((v.part? "id" 0).map fun w => (readId w).value).getD none ∧
      t.pins = ((v.part? "pins" 4).map fun w =>
        (readMap DeclaredPin.ofJson w).value).getD .empty := by
  have hnames : (fields.map Field.name).Nodup := by decide
  refine ⟨part_readRecord (i := 0) hnames hv h rfl ?_ ?_,
    part_readRecord (i := 4) hnames hv h rfl ?_ ?_⟩
  all_goals simp [fields, keeps_view_of_fills, Fills.set]

end NodeType

namespace Patch

theorem parts_of_ofJson {v : Json} (hv : v.WellFormed) {p : Patch} (h : (ofJson v).value = .ok p) :
    p.id = ((v.member? "id").map fun w => (readId w).value).getD none ∧
      p.nodes = ((v.member? "nodes").map fun w => (readMap Node.ofJson w).value).getD .empty ∧
        p.pins = ((v.member? "pins").map fun w => (readMap Pin.ofJson w).value).getD .empty ∧
          p.links =
            ((v.member? "links").map fun w => (readMap Link.ofJson w).value).getD .empty := by
  have hnames : (fields.map Field.name).Nodup := by decide
  cases v with
  | object members =>
    have hread : (readMembers fields (fun p m => p.addExtra m.1 m.2) members {}).value = .ok p := h
    refine ⟨part_readMembers (i := 0) hnames hv.1 hread rfl ?_ ?_ fun _ _ => rfl,
      part_readMembers (i := 1) hnames hv.1 hread rfl ?_ ?_ fun _ _ => rfl,
      part_readMembers (i := 2) hnames hv.1 hread rfl ?_ ?_ fun _ _ => rfl,
      part_readMembers (i := 3) hnames hv.1 hread rfl ?_ ?_ fun _ _ => rfl⟩
    all_goals simp [fields, keeps_view_of_fills, Fills.set]
  | null | bool _ | number _ | string _ | array _ => exact absurd h (by simp [ofJson])

end Patch

namespace Project

theorem parts_of_ofJson {v : Json} (hv : v.WellFormed) {p : Project}
    (h : (ofJson v).value = .ok p) :
    p.patches = ((v.member? "patches").map fun w => (readMap Patch.ofJson w).value).getD .empty ∧
      p.nodeTypes = ((v.member? "nodeTypes").map fun w =>
        (readMap NodeType.ofJson w).value).getD .empty := by
  have hnames : (fields.map Field.name).Nodup := by decide
  cases v with
  | object members =>
    have hread := ofJson_object_eq_ok_iff.mp h
    refine ⟨part_readMembers (i := 0) hnames hv.1 hread rfl ?_ ?_ fun _ _ => rfl,
      part_readMembers (i := 1) hnames hv.1 hread rfl ?_ ?_ fun _ _ => rfl⟩
    all_goals simp [fields, keeps_view_of_fills, Fills.set]
  | null | bool _ | number _ | string _ | array _ => exact absurd h (by simp [ofJson])

end Project

end Patchbay
