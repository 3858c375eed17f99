/-
# Silence: what a reading without a warning has lost

Reading a document drops what it cannot use, and a warning is to say so.  This file compares what
is dropped with what is said.  A reading is quiet when it leaves no warning (`Quiet`); and a
project holds a document (`Project.HeldFrom`) when each entry of each of the document's maps is an
entry of the project under its key, and each id of each record is there, a number as its text.
Neither the one nor the other looks at how reading works.

* `quiet_readId_iff`, `quiet_readEntry_iff`, `quiet_readMap_iff`: when a value is read quietly;
* `quiet_readMembers_iff`, `quiet_readItems_iff`: a record is read quietly if its parts are, each
  by the field it belongs to;
* `Node.quiet_ofJson_iff` and its like, level by level: of a value that is read as a record, the
  reading is quiet exactly if the record holds it;
* `Project.quiet_reading_iff`: so a document is read quietly exactly if the project holds it.

The ends of links are the exception: they are dropped without a word.  A link holds its ends exactly
if they are listed as texts (`Link.holdsEnds_iff`), whatever was said of the rest, and
`Example.ends_are_dropped` is a quiet reading that loses both ends of a link.
-/
import Mathlib.Data.List.Forall2
import Patchbay.Proofs.Tolerance

namespace Patchbay

/-! ## 1. What it is to hold a document -/

/-- No warning was left. -/
def Quiet {α : Type} (x : Logged α) : Prop := ∀ e ∈ x.trace, e.isWarning = false

instance {α : Type} (x : Logged α) : Decidable (Quiet x) :=
  inferInstanceAs (Decidable (∀ e ∈ x.trace, e.isWarning = false))

namespace Json

/-- The id is what stands in its place: a text as it is, a number as its text, and none where
there is nothing or null. -/
def IsId (source : Option Json) (id : Option String) : Prop :=
  match source with
  | none | some null => id = none
  | some (string s) => id = some s
  | some (number n) => id = some (String.ofList n.text)
  | some (bool _) | some (array _) | some (object _) => False

/-- A map, or nothing or null in its place. -/
def isMap : Option Json → Bool
  | none | some null | some (object _) => true
  | some (bool _) | some (number _) | some (string _) | some (array _) => false

/-- A list of texts and nulls, or nothing or null in its place. -/
def isListOfEnds : Option Json → Bool
  | none | some null => true
  | some (array items) => items.all isTag
  | some (bool _) | some (number _) | some (string _) | some (object _) => false

end Json

/-- The map has all entries of what stands in its place, under their keys and in their order, and
nothing but a map stands there. -/
structure OrderedMap.HeldFrom {α : Type} (source : Option Json) (R : Json → α → Prop)
    (m : OrderedMap α) : Prop where
  isMap : Json.isMap source = true
  entries : List.Forall₂ (fun e r => e.1 = r.1 ∧ R e.2 r.2) (Json.entriesOf source) m.entries

/-- The node has the ids of the object or array. -/
structure Node.HeldFrom (v : Json) (n : Node) : Prop where
  id : Json.IsId (v.part? "id" 0) n.id
  typeId : Json.IsId (v.part? "typeId" 1) n.typeId

/-- The pin has the ids of the object or array. -/
structure Pin.HeldFrom (v : Json) (p : Pin) : Prop where
  id : Json.IsId (v.part? "id" 0) p.id
  nodeId : Json.IsId (v.part? "nodeId" 1) p.nodeId
  key : Json.IsId (v.part? "key" 2) p.key

/-- The link has the ends that stand in their place: a list, and each end at its position. -/
def Link.HoldsEnds (source : Option Json) (l : Link) : Prop :=
  match source with
  | none | some .null => True
  | some (.array items) => List.Forall₂ (fun v e => Json.IsId (some v) e) items l.ends
  | some (.bool _) | some (.number _) | some (.string _) | some (.object _) => False

/-- The link has the id of the object or array, and the ends if they are listed as texts. -/
structure Link.HeldFrom (v : Json) (l : Link) : Prop where
  id : Json.IsId (v.part? "id" 0) l.id
  ends : l.HoldsEnds (v.part? "pins" 1) ↔ Json.isListOfEnds (v.part? "pins" 1) = true

/-- The declared pin has the key of the object or array. -/
structure DeclaredPin.HeldFrom (v : Json) (d : DeclaredPin) : Prop where
  key : Json.IsId (v.part? "key" 0) d.key

/-- The node type has the id and the declared pins of the object or array. -/
structure NodeType.HeldFrom (v : Json) (t : NodeType) : Prop where
  id : Json.IsId (v.part? "id" 0) t.id
  pins : t.pins.HeldFrom (v.part? "pins" 4) DeclaredPin.HeldFrom

/-- The patch has the id and the maps of the object. -/
structure Patch.HeldFrom (v : Json) (p : Patch) : Prop where
  id : Json.IsId (v.member? "id") p.id
  nodes : p.nodes.HeldFrom (v.member? "nodes") Node.HeldFrom
  pins : p.pins.HeldFrom (v.member? "pins") Pin.HeldFrom
  links : p.links.HeldFrom (v.member? "links") Link.HeldFrom

/-- The project has the maps of the object, and whatever is in them. -/
structure Project.HeldFrom (v : Json) (p : Project) : Prop where
  patches : p.patches.HeldFrom (v.member? "patches") Patch.HeldFrom
  nodeTypes : p.nodeTypes.HeldFrom (v.member? "nodeTypes") NodeType.HeldFrom

/-! ## 2. Quiet values -/

section Values

variable {α β : Type}

@[simp] theorem quiet_pure (a : α) : Quiet (pure a : Logged α) := by
  simp [Quiet]

theorem quiet_bind_iff {x : Logged α} {f : α → Logged β} :
    Quiet (x >>= f) ↔ Quiet x ∧ Quiet (f x.value) := by
  simp only [Quiet, Traced.trace_bind, List.forall_mem_append]

theorem not_quiet_note {e : LogEntry} (h : e.isWarning = true) : ¬ Quiet (Traced.note e) := by
  intro hquiet
  have he := hquiet e (by simp)
  rw [h] at he
  exact absurd he (by simp)

/-- An id is read quietly if it is the text that it is read as. -/
theorem quiet_readId_iff (v : Json) : Quiet (readId v) ↔ Json.IsId (some v) (readId v).value := by
  cases v with
  | null | number _ | string _ => simp [readId, Json.IsId]
  | bool _ | array _ | object _ =>
    refine ⟨fun h => ?_, False.elim⟩
    exact absurd (quiet_bind_iff.mp h).1 (not_quiet_note rfl)

variable {record : Json → Logged (Verdict α)}

/-- An entry is read quietly if it holds a record that is. -/
theorem quiet_readEntry_iff (e : String × Json) :
    Quiet (readEntry record e) ↔ Quiet (record e.2) ∧ (record e.2).value.isOk = true := by
  unfold readEntry
  rw [quiet_bind_iff]
  cases (record e.2).value with
  | error reason =>
    simp only [Verdict.isOk_iff, reduceCtorEq, exists_false, and_false, iff_false]
    exact fun h => absurd (quiet_bind_iff.mp h.2).1 (not_quiet_note rfl)
  | ok x => simp [Verdict.isOk_iff]

/-- A map is read quietly if it is one and all its entries are. -/
theorem quiet_readMap_iff (v : Json) : Quiet (readMap record v) ↔ Json.isMap (some v) = true ∧
    ∀ e ∈ Json.entriesOf (some v), Quiet (record e.2) ∧ (record e.2).value.isOk = true := by
  cases v with
  | object members =>
    have htrace : Quiet (readMap record (.object members)) ↔
        ∀ e ∈ members, Quiet (readEntry record e) := by
      simp only [Quiet, readMap_object, List.forall_mem_flatMap]
    rw [htrace]
    simp only [quiet_readEntry_iff, Json.isMap, Json.entriesOf, true_and]
  | null => simp [readMap, Json.isMap, Json.entriesOf]
  | bool _ | number _ | string _ | array _ =>
    simp only [Json.isMap, Bool.false_eq_true, false_and, iff_false]
    exact fun h => absurd (quiet_bind_iff.mp h).1 (not_quiet_note rfl)

end Values

/-! ## 3. Quiet records -/

namespace Field

variable {ρ α : Type}

/-- The field reads the value quietly, into whatever record. -/
def QuietOn (f : Field ρ) (v : Json) : Prop := ∀ a, Quiet (f.read v a)

/-- Whether the field warns is a matter of the value, not of the record. -/
def Impartial (f : Field ρ) : Prop := ∀ v a, Quiet (f.read v a) → f.QuietOn v

variable {fields : List (Field ρ)}

/-- One field and then the rest of the input: both are read quietly if the whole is. -/
theorem quiet_bind_match_iff {x : Logged (Verdict ρ)} {k : ρ → Logged (Verdict ρ)} {b : ρ}
    (h : x.value = .ok b) :
    Quiet (x >>= fun | .error reason => return .error reason | .ok b => k b) ↔
      Quiet x ∧ Quiet (k b) := by
  rw [quiet_bind_iff, h]

/-- An object that is read is read quietly if the member of each field is. -/
theorem quiet_readMembers_iff {other : ρ → String × Json → ρ}
    (hnames : (fields.map Field.name).Nodup) (hfields : ∀ f ∈ fields, f.Impartial) :
    ∀ (members : List (String × Json)) {a b : ρ}, (Entries.keys members).Nodup →
      (readMembers fields other members a).value = .ok b →
        (Quiet (readMembers fields other members a) ↔
          ∀ f ∈ fields, ∀ w, members.lookup f.name = some w → f.QuietOn w)
  | [], a, b, _, _ => by simp [readMembers]
  | m :: rest, a, b, hnodup, h => by
    have hnd := List.nodup_cons.mp hnodup
    cases hfind : fields.find? (·.name = m.1) with
    | none =>
      rw [readMembers_unknown hfind] at h ⊢
      rw [quiet_readMembers_iff hnames hfields rest hnd.2 h]
      refine forall₂_congr fun f hf => ?_
      have hne : f.name ≠ m.1 := fun he =>
        List.find?_eq_none.mp hfind f hf (by simpa using he)
      rw [Entries.lookup_cons_of_ne hne m.2 rest]
    | some f =>
      have hf := List.mem_of_find?_eq_some hfind
      have hfm : f.name = m.1 := by simpa using List.find?_some hfind
      rw [readMembers_known hfind] at h ⊢
      obtain ⟨c, hc, hrest⟩ := value_bind_eq_ok_iff.mp h
      refine (quiet_bind_match_iff hc).trans ?_
      rw [quiet_readMembers_iff hnames hfields rest hnd.2 hrest]
      -- the member is that of `f`, and the rest has none for it and all those of the other fields
      have hself : (m :: rest).lookup f.name = some m.2 := by
        rw [List.lookup_cons, hfm, beq_self_eq_true]
      have hother : ∀ g ∈ fields, g ≠ f → (m :: rest).lookup g.name = rest.lookup g.name := by
        intro g hg hne
        have hname : g.name ≠ m.1 := by
          intro he
          have hfound := find?_name hnames g hg
          rw [he, hfind] at hfound
          exact hne (Option.some.inj hfound).symm
        exact Entries.lookup_cons_of_ne hname m.2 rest
      constructor
      · rintro ⟨hm, hall⟩ g hg w hw
        by_cases hgf : g = f
        · subst hgf
          obtain rfl : m.2 = w := Option.some.inj (hself.symm.trans hw)
          exact hfields g hg m.2 a hm
        · exact hall g hg w ((hother g hg hgf).symm.trans hw)
      · intro hall
        refine ⟨hall f hf m.2 hself a, fun g hg w hw => ?_⟩
        have hgf : g ≠ f := by
          rintro rfl
          have hkey : m.1 ∉ Entries.keys rest := hnd.1
          rw [Entries.lookup_eq_none_iff.mpr (hfm ▸ hkey)] at hw
          exact absurd hw (by simp)
        exact hall g hg w ((hother g hg hgf).trans hw)

/-- An array that is read is read quietly if the item of each field is. -/
theorem quiet_readItems_iff {count : Nat} : ∀ {fields : List (Field ρ)},
    (∀ f ∈ fields, f.Impartial) → ∀ (items : List Json) {a b : ρ},
      (readItems count fields items a).value = .ok b →
        (Quiet (readItems count fields items a) ↔ ∀ x ∈ fields.zip items, x.1.QuietOn x.2)
  | [], _, [], _, _, _ | _ :: _, _, [], _, _, _ => by simp [readItems]
  | [], _, _ :: _, _, _, h => absurd h (by simp [readItems])
  | f :: fs, hfields, v :: vs, a, b, h => by
    rw [readItems] at h ⊢
    obtain ⟨c, hc, hrest⟩ := value_bind_eq_ok_iff.mp h
    have hhead : Quiet (f.read v a) ↔ f.QuietOn v :=
      ⟨hfields f List.mem_cons_self v a, fun hv => hv a⟩
    have htail := quiet_readItems_iff (fun g hg => hfields g (List.mem_cons_of_mem _ hg)) vs hrest
    refine (quiet_bind_match_iff hc).trans ?_
    rw [hhead, htail, List.zip_cons_cons, List.forall_mem_cons]

/-- A record in either form is read quietly if the part of each field is. -/
theorem quiet_readRecord_iff {expected : Expected} {blank b : ρ} {v : Json} (hv : v.WellFormed)
    (hnames : (fields.map Field.name).Nodup) (hfields : ∀ f ∈ fields, f.Impartial)
    (h : (readRecord expected fields blank v).value = .ok b) :
    Quiet (readRecord expected fields blank v) ↔ fields.zipIdx.Forall fun x =>
      ∀ w, v.part? x.1.name x.2 = some w → x.1.QuietOn w := by
  rw [List.forall_iff_forall_mem]
  cases v with
  | object members =>
    refine (quiet_readMembers_iff hnames hfields members hv.1 h).trans ?_
    constructor
    · intro hall x hx
      exact hall x.1 (List.fst_mem_of_mem_zipIdx hx)
    · intro hall f hf
      obtain ⟨i, hi⟩ := List.mem_iff_getElem?.mp hf
      exact hall (f, i) (List.mk_mem_zipIdx_iff_getElem?.mpr hi)
  | array items =>
    refine (quiet_readItems_iff hfields items h).trans ?_
    constructor
    · rintro hall ⟨f, i⟩ hx w hw
      have hf := List.mk_mem_zipIdx_iff_getElem?.mp hx
      exact hall (f, w) (List.mem_iff_getElem?.mpr ⟨i, List.getElem?_zip_eq_some.mpr ⟨hf, hw⟩⟩)
    · rintro hall ⟨f, w⟩ hx
      obtain ⟨i, hi⟩ := List.mem_iff_getElem?.mp hx
      obtain ⟨hf, hw⟩ := List.getElem?_zip_eq_some.mp hi
      exact hall (f, i) (List.mk_mem_zipIdx_iff_getElem?.mpr hf) w hw
  | null | bool _ | number _ | string _ => exact absurd h (by simp [readRecord])

/-! ## 4. Quiet fields -/

section Kinds

variable {name : String} {b : ρ}

theorem quietOn_payload {get : ρ → Option Json} {set : ρ → Option Json → ρ} (v : Json) :
    (payload name get set).QuietOn v := fun _ => quiet_pure _

theorem quietOn_ends {get : ρ → List (Option String)} {set : ρ → List (Option String) → ρ}
    (v : Json) : (ends name get set).QuietOn v := fun _ => quiet_pure _

/-- A text with a meaning rejects its record without a word: the entry is what is remarked on. -/
theorem quietOn_tagged {ofTag : String → α} {tag : α → String} {get : ρ → Option α}
    {set : ρ → Option α → ρ} (v : Json) : (tagged name ofTag tag get set).QuietOn v := by
  intro a
  cases v with
  | null | bool _ | number _ | string _ | array _ | object _ => exact quiet_pure _

theorem impartial_of_quietOn {f : Field ρ} (h : ∀ v, f.QuietOn v) : f.Impartial :=
  fun v _ _ => h v

section Ident

variable {get : ρ → Option String} {set : ρ → Option String → ρ}

theorem quiet_ident_iff {v : Json} (a : ρ) :
    Quiet ((ident name get set).read v a) ↔ Quiet (readId v) := by
  simp only [ident, quiet_bind_iff, quiet_pure, and_true]

theorem impartial_ident : (ident name get set).Impartial :=
  fun _ a h a' => (quiet_ident_iff a').mpr ((quiet_ident_iff a).mp h)

/-- An id was read quietly if the record has it. -/
theorem quietOn_ident_iff {source : Option Json}
    (h : get b = (source.map fun v => (readId v).value).getD none) :
    (∀ w, source = some w → (ident name get set).QuietOn w) ↔ Json.IsId source (get b) := by
  cases source with
  | none => simpa [Json.IsId] using h
  | some v =>
    have hid : get b = (readId v).value := h
    rw [hid, ← quiet_readId_iff]
    constructor
    · exact fun hquiet => (quiet_ident_iff b).mp (hquiet v rfl b)
    · rintro hquiet w ⟨⟩ a
      exact (quiet_ident_iff a).mpr hquiet

end Ident

section Records

variable {record : Json → Logged (Verdict α)} {toJson : α → Json} {get : ρ → OrderedMap α}
  {set : ρ → OrderedMap α → ρ} {R : Json → α → Prop}

theorem quiet_records_iff {v : Json} (a : ρ) :
    Quiet ((records name record toJson get set).read v a) ↔ Quiet (readMap record v) := by
  simp only [records, quiet_bind_iff, quiet_pure, and_true]

theorem impartial_records : (records name record toJson get set).Impartial :=
  fun _ a h a' => (quiet_records_iff a').mpr ((quiet_records_iff a).mp h)

/-- All entries were read, and quietly, if those that were read stand for all. -/
theorem forall₂_filterMap_iff : ∀ {members : List (String × Json)},
    (∀ e ∈ members, ∀ x, (record e.2).value = .ok x → (Quiet (record e.2) ↔ R e.2 x)) →
      ((∀ e ∈ members, Quiet (record e.2) ∧ (record e.2).value.isOk = true) ↔
        List.Forall₂ (fun e r => e.1 = r.1 ∧ R e.2 r.2) members
          (members.filterMap fun e => (record e.2).value.toOption.map fun x => (e.1, x)))
  | [], _ => by simp
  | m :: rest, hR => by
    have ih := forall₂_filterMap_iff fun e he => hR e (List.mem_cons_of_mem _ he)
    rw [List.forall_mem_cons]
    cases hrecord : (record m.2).value with
    | error reason =>
      -- one entry is missing, so there are too few for all
      rw [List.filterMap_cons_none (by rw [hrecord]; rfl)]
      constructor
      · exact fun h => absurd h.1.2 (by simp [Verdict.isOk_iff])
      · intro h
        have hlength := h.length_eq
        have hle := List.length_filterMap_le
          (fun e : String × Json => (record e.2).value.toOption.map fun x => (e.1, x)) rest
        rw [List.length_cons] at hlength
        omega
    | ok x =>
      rw [List.filterMap_cons_some (by rw [hrecord]; rfl), List.forall₂_cons, ← ih,
        hR m List.mem_cons_self x hrecord]
      simp [Verdict.isOk_iff]

/-- Whatever stands in place of a map, the map has what the entries there are read as. -/
theorem entries_of_readMap {source : Option Json} {m : OrderedMap α}
    (h : m = (source.map fun v => (readMap record v).value).getD .empty)
    (hsource : ∀ v, source = some v → v.WellFormed) :
    m.entries = (Json.entriesOf source).filterMap fun e =>
      (record e.2).value.toOption.map fun x => (e.1, x) := by
  subst h
  match source, hsource with
  | some (.object members), hsource => exact entries_readMap (hsource _ rfl).1
  | none, _ | some .null, _ | some (.bool _), _ | some (.number _), _ | some (.string _), _
  | some (.array _), _ => rfl

/-- A map was read quietly if the record has all of it. -/
theorem quietOn_records_iff {source : Option Json}
    (h : get b = (source.map fun v => (readMap record v).value).getD .empty)
    (hsource : ∀ v, source = some v → v.WellFormed)
    (hR : ∀ w : Json, w.WellFormed → ∀ x, (record w).value = .ok x →
      (Quiet (record w) ↔ R w x)) :
    (∀ w, source = some w → (records name record toJson get set).QuietOn w) ↔
      (get b).HeldFrom source R := by
  have hentries := entries_of_readMap h hsource
  cases source with
  | none =>
    have hheld : (get b).HeldFrom none R := ⟨rfl, by rw [hentries]; exact .nil⟩
    simp [hheld]
  | some v =>
    have hmem : ∀ e ∈ Json.entriesOf (some v), e.2.WellFormed := by
      cases v with
      | object members => exact (Json.wellFormed_object_iff.mp (hsource _ rfl)).2
      | null | bool _ | number _ | string _ | array _ => simp [Json.entriesOf]
    have hall := forall₂_filterMap_iff fun e he => hR e.2 (hmem e he)
    rw [← hentries] at hall
    have hquiet : Quiet (readMap record v) ↔ (get b).HeldFrom (some v) R := by
      rw [quiet_readMap_iff, hall]
      exact ⟨fun hheld => ⟨hheld.1, hheld.2⟩, fun hheld => ⟨hheld.isMap, hheld.entries⟩⟩
    rw [← hquiet]
    constructor
    · exact fun hon => (quiet_records_iff b).mp (hon v rfl b)
    · rintro hmap w ⟨⟩ a
      exact (quiet_records_iff a).mpr hmap

end Records

end Kinds

end Field

/-! ## 5. Records -/

open Patchbay.Field

/-- A link holds its ends exactly if they are listed as texts. -/
theorem Link.holdsEnds_iff {l : Link} {source : Option Json}
    (h : l.ends = (source.map endsOf).getD []) :
    l.HoldsEnds source ↔ Json.isListOfEnds source = true := by
  match source with
  | none | some .null | some (.bool _) | some (.number _) | some (.string _) | some (.object _) =>
    simp [HoldsEnds, Json.isListOfEnds]
  | some (.array items) =>
    have hends : l.ends = items.map endOf := h
    have hend : ∀ v : Json, Json.IsId (some v) (endOf v) ↔ v.isTag = true := by
      intro v
      cases v <;> simp [Json.IsId, endOf, Json.isTag]
    simp only [HoldsEnds, Json.isListOfEnds, hends, List.forall₂_map_right_iff,
      List.forall₂_same, hend, List.all_eq_true]

namespace Node

theorem quiet_ofJson_iff {v : Json} (hv : v.WellFormed) {n : Node}
    (h : (ofJson v).value = .ok n) : Quiet (ofJson v) ↔ n.HeldFrom v := by
  have hfields : ∀ f ∈ fields, f.Impartial := by
    simp [fields, impartial_ident]
  have hparts := quiet_readRecord_iff hv (by decide) hfields h
  obtain ⟨hid, htype⟩ := parts_of_ofJson hv h
  refine hparts.trans ((and_congr (quietOn_ident_iff hid) (quietOn_ident_iff htype)).trans ?_)
  exact ⟨fun hheld => ⟨hheld.1, hheld.2⟩, fun hheld => ⟨hheld.id, hheld.typeId⟩⟩

end Node

namespace Pin

theorem quiet_ofJson_iff {v : Json} (hv : v.WellFormed) {p : Pin}
    (h : (ofJson v).value = .ok p) : Quiet (ofJson v) ↔ p.HeldFrom v := by
  have hfields : ∀ f ∈ fields, f.Impartial := by
    simp [fields, impartial_ident]
  have hparts := quiet_readRecord_iff hv (by decide) hfields h
  obtain ⟨hid, hnode, hkey⟩ := parts_of_ofJson hv h
  refine hparts.trans ((and_congr (quietOn_ident_iff hid) (and_congr (quietOn_ident_iff hnode)
    (quietOn_ident_iff hkey))).trans ?_)
  constructor
  · rintro ⟨hid, hnode, hkey⟩
    exact ⟨hid, hnode, hkey⟩
  · exact fun hheld => ⟨hheld.id, hheld.nodeId, hheld.key⟩

end Pin

namespace Link

/-- The reading is silent about the ends, so that it is quiet does not depend on them. -/
theorem quiet_ofJson_iff {v : Json} (hv : v.WellFormed) {l : Link}
    (h : (ofJson v).value = .ok l) : Quiet (ofJson v) ↔ l.HeldFrom v := by
  have hfields : ∀ f ∈ fields, f.Impartial := by
    simp [fields, impartial_ident, impartial_of_quietOn quietOn_ends]
  have hparts := quiet_readRecord_iff hv (by decide) hfields h
  simp only [fields, List.zipIdx, List.Forall, quietOn_ends, implies_true, and_true] at hparts
  obtain ⟨hid, hends⟩ := parts_of_ofJson hv h
  refine hparts.trans ((quietOn_ident_iff hid).trans ?_)
  exact ⟨fun hid => ⟨hid, holdsEnds_iff hends⟩, fun hheld => hheld.id⟩

end Link

namespace DeclaredPin

theorem quiet_ofJson_iff {v : Json} (hv : v.WellFormed) {d : DeclaredPin}
    (h : (ofJson v).value = .ok d) : Quiet (ofJson v) ↔ d.HeldFrom v := by
  have hfields : ∀ f ∈ fields, f.Impartial := by
    simp [fields, impartial_ident, impartial_of_quietOn quietOn_tagged]
  have hparts := quiet_readRecord_iff hv (by decide) hfields h
  simp only [fields, List.zipIdx, List.Forall, quietOn_tagged, implies_true, and_true] at hparts
  obtain ⟨hkey, -⟩ := parts_of_ofJson hv h
  refine hparts.trans ((quietOn_ident_iff hkey).trans ?_)
  exact ⟨fun hkey => ⟨hkey⟩, fun hheld => hheld.key⟩

end DeclaredPin

namespace NodeType

theorem quiet_ofJson_iff {v : Json} (hv : v.WellFormed) {t : NodeType}
    (h : (ofJson v).value = .ok t) : Quiet (ofJson v) ↔ t.HeldFrom v := by
  have hfields : ∀ f ∈ fields, f.Impartial := by
    simp [fields, impartial_ident, impartial_records, impartial_of_quietOn quietOn_payload]
  have hparts := quiet_readRecord_iff hv (by decide) hfields h
  simp only [fields, List.zipIdx, List.Forall, quietOn_payload, implies_true, true_and] at hparts
  obtain ⟨hid, hpins⟩ := parts_of_ofJson hv h
  refine hparts.trans ((and_congr (quietOn_ident_iff hid) (quietOn_records_iff hpins
    (fun w hw => hv.of_part? hw) fun w hw _ => DeclaredPin.quiet_ofJson_iff hw)).trans ?_)
  exact ⟨fun hheld => ⟨hheld.1, hheld.2⟩, fun hheld => ⟨hheld.id, hheld.pins⟩⟩

end NodeType

namespace Patch

theorem quiet_ofJson_iff {v : Json} (hv : v.WellFormed) {p : Patch}
    (h : (ofJson v).value = .ok p) : Quiet (ofJson v) ↔ p.HeldFrom v := by
  cases v with
  | object members =>
    have hfields : ∀ f ∈ fields, f.Impartial := by
      simp [fields, impartial_ident, impartial_records]
    have hparts := quiet_readMembers_iff (by decide) hfields members hv.1 h
    rw [← List.forall_iff_forall_mem] at hparts
    have hmember : ∀ {name : String} (w : Json), members.lookup name = some w → w.WellFormed :=
      fun w hw => hv.of_lookup hw
    obtain ⟨hid, hnodes, hpins, hlinks⟩ := parts_of_ofJson hv h
    refine hparts.trans ((and_congr (quietOn_ident_iff hid) (and_congr
      (quietOn_records_iff hnodes hmember fun w hw _ => Node.quiet_ofJson_iff hw) (and_congr
      (quietOn_records_iff hpins hmember fun w hw _ => Pin.quiet_ofJson_iff hw)
      (quietOn_records_iff hlinks hmember fun w hw _ => Link.quiet_ofJson_iff hw)))).trans ?_)
    constructor
    · rintro ⟨hid, hnodes, hpins, hlinks⟩
      exact ⟨hid, hnodes, hpins, hlinks⟩
    · exact fun hheld => ⟨hheld.id, hheld.nodes, hheld.pins, hheld.links⟩
  | null | bool _ | number _ | string _ | array _ => exact absurd h (by simp [ofJson])

end Patch

/-! ## 6. Documents -/

namespace Project

theorem quiet_ofJson_of_ok {v : Json} (hv : v.WellFormed) {p : Project}
    (h : (ofJson v).value = .ok p) : Quiet (ofJson v) ↔ p.HeldFrom v := by
  cases v with
  | object members =>
    have hread := ofJson_object_eq_ok_iff.mp h
    -- the summary that follows the members is no warning
    have hsummary : Quiet (ofJson (.object members)) ↔
        Quiet (readMembers fields (fun p _ => p) members {}) := by
      unfold ofJson
      rw [quiet_bind_iff, hread]
      simp [Quiet, LogEntry.isWarning, LogEntry.level]
    have hfields : ∀ f ∈ fields, f.Impartial := by
      simp [fields, impartial_records]
    have hparts := quiet_readMembers_iff (by decide) hfields members hv.1 hread
    rw [← List.forall_iff_forall_mem] at hparts
    have hmember : ∀ {name : String} (w : Json), members.lookup name = some w → w.WellFormed :=
      fun w hw => hv.of_lookup hw
    obtain ⟨hpatches, htypes⟩ := parts_of_ofJson hv h
    refine hsummary.trans (hparts.trans ((and_congr
      (quietOn_records_iff hpatches hmember fun w hw _ => Patch.quiet_ofJson_iff hw)
      (quietOn_records_iff htypes hmember fun w hw _ => NodeType.quiet_ofJson_iff hw)).trans ?_))
    exact ⟨fun hheld => ⟨hheld.1, hheld.2⟩, fun hheld => ⟨hheld.patches, hheld.nodeTypes⟩⟩
  | null | bool _ | number _ | string _ | array _ => exact absurd h (by simp [ofJson])

/-- **A document is read quietly exactly if the project holds it.**  Every object that names no
member twice is read as a project.  If no warning is left then each entry of its maps, at every
level, is an entry of the project, each id is there, a number as its text, and a link has its ends
exactly if they are listed as texts; and if all this is so then no warning is left. -/
theorem quiet_reading_iff (v : Json) (hv : v.WellFormed) (hobject : v.isObject = true) :
    ∃ p, (ofJson v).value = .ok p ∧ (Quiet (ofJson v) ↔ p.HeldFrom v) := by
  obtain ⟨p, hp⟩ := (exists_ofJson_eq_ok_iff v).mpr hobject
  exact ⟨p, hp, quiet_ofJson_of_ok hv hp⟩

end Project

namespace Example

/-- A document with an id that is a number, records in either form, and ends that are listed. -/
def tidy : Json :=
  .object [
    ("patches", .object [
      ("main", .object [
        ("id", .number (.int 7 (by decide))),
        ("nodes", .object [("a", .array [.string "a", .string "source"])]),
        ("pins", .object [("a.out", .object [("id", .string "a.out"), ("nodeId", .string "a"),
          ("key", .string "out")])]),
        ("links", .object [("l", .object [("pins", .array [.string "a.out", .null])])])]),
      ("empty", .object [("nodes", .null)])]),
    ("nodeTypes", .object [("source", .object [("pins", .object [
      ("out", .object [("key", .string "out"), ("direction", .string "output")])])])])]

/-- No warning is left by `tidy`, and the project holds it. -/
theorem tidy_is_held :
    tidy.WellFormed ∧ tidy.isObject = true ∧ Quiet (Project.ofJson tidy) ∧
      ∃ p, (Project.ofJson tidy).value = .ok p ∧ p.HeldFrom tidy := by
  have hwell : tidy.WellFormed := by
    simp [tidy, Json.WellFormed, Json.WellFormedMembers, Json.WellFormedItems, Entries.keys]
  have hquiet : Quiet (Project.ofJson tidy) := by decide +kernel
  obtain ⟨p, hp, hheld⟩ := Project.quiet_reading_iff tidy hwell rfl
  exact ⟨hwell, rfl, hquiet, p, hp, hheld.mp hquiet⟩

/-- A link whose ends are not listed, and one whose ends are the numbers of two pins. -/
def severed : Json :=
  .object [("patches", .object [("main", .object [
    ("pins", .object [("p", .object [("id", .number (.int 5 (by decide)))]),
      ("q", .object [("id", .number (.int 6 (by decide)))])]),
    ("links", .object [("l", .object [("pins", .string "p")]),
      ("m", .object [("pins", .array [.number (.int 5 (by decide)),
        .number (.int 6 (by decide))])])])])])]

/-- The numbers are read as the ids of the pins, but not as the ends of the link, and neither link
has ends that it holds.  No warning says so. -/
theorem ends_are_dropped :
    Quiet (Project.ofJson severed) ∧
      (Project.ofJson severed).value = .ok { patches := .ofList [("main", {
        pins := .ofList [("p", { id := some "5" }), ("q", { id := some "6" })]
        links := .ofList [("l", { ends := [] }), ("m", { ends := [none, none] })] })] } ∧
      ¬ Link.HoldsEnds (some (.string "p")) { ends := [] } ∧
      ¬ Link.HoldsEnds (some (.array [.number (.int 5 (by decide)), .number (.int 6 (by decide))]))
        { ends := [none, none] } := by
  refine ⟨by decide +kernel, by decide +kernel, id, fun h => ?_⟩
  exact absurd ((Link.holdsEnds_iff rfl).mp h) (by decide)

end Example
end Patchbay
