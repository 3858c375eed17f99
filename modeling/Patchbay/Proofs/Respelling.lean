/-
# Reading does not tell spellings apart

Two spellings of a document (`Proofs.Spelling`) are read as the same project and leave the same
log.  The four ways to spell a document are dealt with one at a time, and for a table of fields
rather than for each record.

A reader is *blind* to a relation when it gives the same for related values (`Blind`), log
included.  A table is blind to the edits of a form when its fields are to those of their values
and the parts of the record that they fill are separate (`Field.Matches`).

* `readMembers_append_congr`: two ends of a list of members may be exchanged if they are read
  alike from every record that the members before them can leave;
* `apart_of_comm`, `Matches.readMembers_null`: so a null may go, since the members before it
  never fill what it would empty;
* `readItems_eq_readMembers`: items are read as members under the fields' names;
* `Matches.blind_readRecord`, `blind_readMap`: from a field to a record and from a record to a
  map, which gives `Node.blind_ofJson` and its like level by level;
* `Project.ofJson_eq_of_respells`: a step of a whole document, and any number of them.
-/
import Mathlib.Data.List.Forall2
import Mathlib.Data.List.Pairwise
import Patchbay.Proofs.Parts
import Patchbay.Proofs.Spelling

namespace Patchbay

open Patchbay.Spelling

/-! ## 1. Blind readers -/

/-- The reader gives the same for related values. -/
def Blind {β : Type} (read : Json → β) (R : Json → Json → Prop) : Prop :=
  ∀ v w, v.WellFormed → R v w → read w = read v

namespace Field

variable {ρ α : Type}

theorem blind_verbatim {β : Type} {read : Json → β} : Blind read Verbatim := by
  rintro _ _ - ⟨⟩

theorem blind_ident {name : String} {get : ρ → Option String} {set : ρ → Option String → ρ} :
    Blind (ident name get set).read NumberToText := by
  rintro _ _ - ⟨n⟩
  rfl

/-- An entry is read by its record, so the map is blind to whatever the record is. -/
theorem blind_readMap {record : Json → Logged (Verdict α)} {R : Json → Json → Prop}
    (h : Blind record R) : Blind (readMap record) (InEntry R) := by
  rintro _ _ hv (@⟨front, key, back, v, w, hR⟩)
  have hmem := (Json.wellFormed_object_iff.mp hv).2
  have hentry : readEntry record (key, w) = readEntry record (key, v) := by
    unfold readEntry
    rw [h v w (hmem (key, v) (by simp)) hR]
  simp only [readMap_object, List.filterMap_append, List.filterMap_cons, List.flatMap_append,
    List.flatMap_cons, hentry]

theorem blind_records {name : String} {record : Json → Logged (Verdict α)} {toJson : α → Json}
    {get : ρ → OrderedMap α} {set : ρ → OrderedMap α → ρ} {R : Json → Json → Prop}
    (h : Blind record R) : Blind (records name record toJson get set).read (InEntry R) := by
  intro v w hv hR
  funext a
  simp only [records, blind_readMap h v w hv hR]

/-! ## 2. Separate parts

Each field fills one part of the record (`Fills`), and null empties it.  Two fields fill separate
parts if it does not matter in which order they do; then what the one has left empty, the other one
leaves empty. -/

/-- Null changes nothing: what the field fills is empty. -/
def Unset (f : Field ρ) (a : ρ) : Prop := f.read .null a = pure (.ok a)

/-- Neither field fills what the other one leaves empty. -/
structure Apart (f g : Field ρ) : Prop where
  keeps_right : f.Keeps g.Unset
  keeps_left : g.Keeps f.Unset

instance : Std.Symm (@Apart ρ) := ⟨fun _ _ h => ⟨h.keeps_left, h.keeps_right⟩⟩

theorem unset_iff (f : Field ρ) [Fills f] {a : ρ} :
    f.Unset a ↔ Fills.set (f := f) a (Fills.part (f := f) .null) = a := by
  unfold Unset
  rw [Fills.read_null]
  constructor
  · intro h
    exact Except.ok.inj (congrArg Traced.value h)
  · intro h
    rw [h]

theorem keeps_unset {f g : Field ρ} [Fills f] [Fills g]
    (h : ∀ (a : ρ) (x : Fills.Part f) (y : Fills.Part g),
      Fills.set (Fills.set a x) y = Fills.set (Fills.set a y) x) :
    f.Keeps g.Unset := by
  intro v a b ha hb
  rw [unset_iff] at ha ⊢
  rw [Fills.eq_of_read v a b hb, h, ha]

theorem apart_of_comm {f g : Field ρ} [Fills f] [Fills g]
    (h : ∀ (a : ρ) (x : Fills.Part f) (y : Fills.Part g),
      Fills.set (Fills.set a x) y = Fills.set (Fills.set a y) x) :
    Apart f g :=
  ⟨keeps_unset h, keeps_unset fun a x y => (h a y x).symm⟩

/-! ## 3. Members -/

/-- The rest of the input is read into the record that the field's value gives, and counts for
nothing else. -/
theorem bind_congr_of_value {x : Logged (Verdict ρ)} {k l : ρ → Logged (Verdict ρ)}
    (h : ∀ b, x.value = .ok b → k b = l b) :
    (x >>= fun | .error reason => return .error reason | .ok b => k b) =
      (x >>= fun | .error reason => return .error reason | .ok b => l b) := by
  refine Traced.ext ?_ ?_
  all_goals
    simp only [Traced.value_bind, Traced.trace_bind]
    cases hx : x.value with
    | error reason => rfl
    | ok b => simp only [h b hx]

/-- Two ends that are read alike from every record with a property may be exchanged behind
members that keep it. -/
theorem readMembers_append_congr {fields : List (Field ρ)} {other : ρ → String × Json → ρ}
    {I : ρ → Prop} {x y : List (String × Json)}
    (hxy : ∀ a, I a → readMembers fields other x a = readMembers fields other y a)
    (hother : ∀ a m, I a → I (other a m)) :
    ∀ {front : List (String × Json)},
      (∀ m ∈ front, ∀ f ∈ fields, f.name = m.1 → f.Keeps I) → ∀ {a : ρ}, I a →
        readMembers fields other (front ++ x) a = readMembers fields other (front ++ y) a
  | [], _, a, ha => hxy a ha
  | m :: rest, hfront, a, ha => by
    have ih : ∀ {b : ρ}, I b →
        readMembers fields other (rest ++ x) b = readMembers fields other (rest ++ y) b :=
      readMembers_append_congr hxy hother fun n hn => hfront n (List.mem_cons_of_mem _ hn)
    rw [List.cons_append, List.cons_append]
    cases hfind : fields.find? (·.name = m.1) with
    | none =>
      rw [readMembers_unknown hfind, readMembers_unknown hfind]
      exact ih (hother a m ha)
    | some f =>
      have hname : f.name = m.1 := by simpa using List.find?_some hfind
      have hkeeps := hfront m List.mem_cons_self f (List.mem_of_find?_eq_some hfind) hname
      rw [readMembers_known hfind, readMembers_known hfind]
      exact bind_congr_of_value fun b hb => ih (hkeeps m.2 a b ha hb)

theorem readMembers_append_congr_right {fields : List (Field ρ)}
    {other : ρ → String × Json → ρ} {x y : List (String × Json)}
    (hxy : ∀ a, readMembers fields other x a = readMembers fields other y a)
    (front : List (String × Json)) (a : ρ) :
    readMembers fields other (front ++ x) a = readMembers fields other (front ++ y) a :=
  readMembers_append_congr (I := fun _ => True) (fun a _ => hxy a) (fun _ _ _ => trivial)
    (fun _ _ _ _ _ _ _ _ _ _ => trivial) trivial

/-! ## 4. Items -/

/-- Items are read as members under the names of the fields. -/
theorem readItems_eq_readMembers {all : List (Field ρ)} {other : ρ → String × Json → ρ}
    {count : Nat} :
    ∀ {fs : List (Field ρ)}, (∀ f ∈ fs, all.find? (·.name = f.name) = some f) →
      ∀ {items : List Json}, items.length ≤ fs.length → ∀ a : ρ,
        readItems count fs items a = readMembers all other ((fs.map Field.name).zip items) a
  | [], _, [], _, _ | _ :: _, _, [], _, _ => rfl
  | f :: fs, hall, v :: vs, hlength, a => by
    have ih : ∀ b, readItems count fs vs b =
        readMembers all other ((fs.map Field.name).zip vs) b :=
      readItems_eq_readMembers (fun g hg => hall g (List.mem_cons_of_mem _ hg))
        (Nat.le_of_succ_le_succ hlength)
    rw [List.map_cons, List.zip_cons_cons, readMembers_known (hall f List.mem_cons_self), readItems]
    exact bind_congr_of_value fun b _ => ih b

/-- An item that its field reads alike may be exchanged. -/
theorem readItems_append_congr {v w : Json} {back : List Json} {f : Field ρ} {count : Nat}
    (hread : f.read w = f.read v) :
    ∀ {fs : List (Field ρ)} {front : List Json}, fs[front.length]? = some f → ∀ a : ρ,
      readItems count fs (front ++ w :: back) a = readItems count fs (front ++ v :: back) a
  | [], _, hf, _ => absurd hf (by simp)
  | g :: fs, [], hf, a => by
    obtain rfl : g = f := by simpa using hf
    rw [List.nil_append, List.nil_append, readItems, readItems, hread]
  | g :: fs, u :: us, hf, a => by
    have ih : ∀ b,
        readItems count fs (us ++ w :: back) b = readItems count fs (us ++ v :: back) b :=
      readItems_append_congr hread (by simpa using hf)
    rw [List.cons_append, List.cons_append, readItems, readItems]
    exact bind_congr_of_value fun b _ => ih b

/-! ## 5. Tables -/

/-- The table reads records of the form into a blank one: its fields have the names of the form
and are blind to how their values are spelled, and they fill separate parts, which the blank
record has empty. -/
structure Matches (F : RecordForm) (fields : List (Field ρ)) (blank : ρ) : Prop where
  values : List.Forall₂ (fun s f => s.1 = f.name ∧ Blind f.read s.2) F.fields fields
  names : (fields.map Field.name).Nodup
  apart : fields.Pairwise Apart
  unset : ∀ f ∈ fields, f.Unset blank

namespace Matches

variable {F : RecordForm} {fields : List (Field ρ)} {other : ρ → String × Json → ρ} {blank : ρ}

theorem names_eq (h : Matches F fields blank) : F.names = fields.map Field.name := by
  have hmap : List.Forall₂ (· = ·) (F.fields.map Prod.fst) (fields.map Field.name) := by
    rw [List.forall₂_map_left_iff, List.forall₂_map_right_iff]
    exact h.values.imp fun _ _ hs => hs.1
  rwa [List.forall₂_eq_eq_eq] at hmap

/-- The field at a position of the form. -/
theorem exists_getElem? (h : Matches F fields blank) {i : Nat}
    {s : String × (Json → Json → Prop)} (hs : F.fields[i]? = some s) :
    ∃ f, fields[i]? = some f ∧ f.name = s.1 ∧ Blind f.read s.2 := by
  obtain ⟨hi, rfl⟩ := List.getElem?_eq_some_iff.mp hs
  have hi' : i < fields.length := h.values.length_eq ▸ hi
  have hf := h.values.get hi hi'
  exact ⟨fields[i], List.getElem?_eq_getElem hi', hf.1.symm, hf.2⟩

/-- The field of a name. -/
theorem exists_find? (h : Matches F fields blank) {name : String} (hname : name ∈ F.names) :
    ∃ f ∈ fields, f.name = name ∧ fields.find? (·.name = name) = some f := by
  rw [h.names_eq] at hname
  obtain ⟨f, hf, rfl⟩ := List.mem_map.mp hname
  exact ⟨f, hf, rfl, find?_name h.names f hf⟩

theorem keeps_unset_of_ne (h : Matches F fields blank) {f g : Field ρ} (hf : f ∈ fields)
    (hg : g ∈ fields) (hne : f.name ≠ g.name) : f.Keeps g.Unset := by
  have hfg : f ≠ g := fun he => hne (congrArg Field.name he)
  exact (h.apart.forall hf hg hfg).keeps_right

/-- Behind any members, a member may be exchanged for one that is read alike. -/
theorem readMembers_value (h : Matches F fields blank) {name : String}
    {R : Json → Json → Prop} (hfield : (name, R) ∈ F.fields) {v w : Json} (hv : v.WellFormed)
    (hR : R v w) (front back : List (String × Json)) :
    readMembers fields other (front ++ (name, w) :: back) blank =
      readMembers fields other (front ++ (name, v) :: back) blank := by
  obtain ⟨i, hi⟩ := List.mem_iff_getElem?.mp hfield
  obtain ⟨f, hf, rfl, hblind⟩ := h.exists_getElem? hi
  have hfind := find?_name h.names f (List.mem_of_getElem? hf)
  refine readMembers_append_congr_right (fun b => ?_) front blank
  rw [readMembers_known hfind, readMembers_known hfind, hblind v w hv hR]

/-- A null may go if no other member has its name: the members before it leave the field unset,
as it was in the blank record. -/
theorem readMembers_null (h : Matches F fields blank) {name : String}
    (hname : name ∈ F.names) {front back : List (String × Json)}
    (hfront : name ∉ Entries.keys front)
    (hother : ∀ f ∈ fields, ∀ a m, f.Unset a → f.Unset (other a m)) :
    readMembers fields other (front ++ back) blank =
      readMembers fields other (front ++ (name, .null) :: back) blank := by
  obtain ⟨f, hf, rfl, hfind⟩ := h.exists_find? hname
  refine readMembers_append_congr (I := f.Unset) (fun a ha => ?_) (hother f hf) ?_ (h.unset f hf)
  · have hnull : f.read .null a = pure (.ok a) := ha
    rw [readMembers_known hfind, hnull, pure_bind]
  · intro m hm g hg hgm
    have hne : g.name ≠ f.name := fun he =>
      hfront (List.mem_map.mpr ⟨m, hm, hgm.symm.trans he⟩)
    exact h.keeps_unset_of_ne hg hf hne

/-- An ignored member may go. -/
theorem readMembers_unknown (h : Matches F fields blank) {name : String} (hname : name ∉ F.names)
    (hother : ∀ a m, other a m = a) (v : Json) (front back : List (String × Json)) :
    readMembers fields other (front ++ back) blank =
      readMembers fields other (front ++ (name, v) :: back) blank := by
  have hfind : fields.find? (·.name = name) = none := by
    refine List.find?_eq_none.mpr fun f hf hfn => ?_
    rw [h.names_eq] at hname
    exact hname (List.mem_map.mpr ⟨f, hf, by simpa using hfn⟩)
  refine readMembers_append_congr_right (fun b => ?_) front blank
  rw [Field.readMembers_unknown hfind, hother]

/-- **One step of an object** is not seen. -/
theorem readMembers_eq (h : Matches F fields blank)
    (hother : ∀ f ∈ fields, ∀ a m, f.Unset a → f.Unset (other a m))
    (hignored : F.keepsOthers = false → ∀ a m, other a m = a) {ms ms' : List (String × Json)}
    (hms : (Json.object ms).WellFormed) (hstep : F.EditsMembers ms ms') :
    readMembers fields other ms' blank = readMembers fields other ms blank := by
  have hmem := Json.wellFormed_object_iff.mp hms
  cases hstep with
  | value front back hfield hR =>
    have hv := hmem.2 _ (List.mem_append_right front List.mem_cons_self)
    exact h.readMembers_value hfield hv hR front back
  | null front back hname =>
    refine h.readMembers_null hname (fun hkey => ?_) hother
    have hnodup := hmem.1
    rw [Entries.keys, List.map_append, List.map_cons] at hnodup
    exact (List.nodup_append.mp hnodup).2.2 _ hkey _ List.mem_cons_self rfl
  | unknown front back v hkeeps hname =>
    exact h.readMembers_unknown hname (hignored hkeeps) v front back

/-- **One step of a record** is not seen, in either form or from one to the other. -/
theorem blind_readRecord {expected : Expected} (h : Matches F fields blank) :
    Blind (readRecord expected fields blank) F.Edits := by
  intro v w hv hstep
  cases hstep with
  | members hstep =>
    exact h.readMembers_eq (fun _ _ _ _ ha => ha) (fun _ _ _ => rfl) hv hstep
  | @item hform front back _ _ v w hfield hR =>
    obtain ⟨f, hf, -, hblind⟩ := h.exists_getElem? hfield
    have hitem := Json.wellFormed_array_iff.mp hv _ (List.mem_append_right _ List.mem_cons_self)
    -- the reason for a surplus of items names their number, which stays the same
    have hcount : (front ++ w :: back).length = (front ++ v :: back).length := by simp
    simp only [readRecord, hcount]
    exact readItems_append_congr (hblind _ _ hitem hR) hf blank
  | @named hform items hlength =>
    rw [h.names_eq] at hlength ⊢
    exact (readItems_eq_readMembers (find?_name h.names) (by simpa using hlength) blank).symm

end Matches

end Field

/-! ## 6. Records -/

open Patchbay.Field

theorem Node.blind_ofJson : Blind ofJson form.Edits :=
  Matches.blind_readRecord
    { values := .cons ⟨rfl, blind_ident⟩ (.cons ⟨rfl, blind_ident⟩ .nil)
      names := by decide
      apart := by simp [fields, apart_of_comm, Fills.set]
      unset := by simp [fields, unset_iff, Fills.set, Fills.part] }

theorem Pin.blind_ofJson : Blind ofJson form.Edits :=
  Matches.blind_readRecord
    { values := .cons ⟨rfl, blind_ident⟩ (.cons ⟨rfl, blind_ident⟩ (.cons ⟨rfl, blind_ident⟩ .nil))
      names := by decide
      apart := by simp [fields, apart_of_comm, Fills.set]
      unset := by simp [fields, unset_iff, Fills.set, Fills.part] }

theorem Link.blind_ofJson : Blind ofJson form.Edits :=
  Matches.blind_readRecord
    { values := .cons ⟨rfl, blind_ident⟩ (.cons ⟨rfl, blind_verbatim⟩ .nil)
      names := by decide
      apart := by simp [fields, apart_of_comm, Fills.set]
      unset := by simp [fields, unset_iff, Fills.set, Fills.part] }

theorem DeclaredPin.blind_ofJson : Blind ofJson form.Edits :=
  Matches.blind_readRecord
    { values :=
        .cons ⟨rfl, blind_ident⟩ (.cons ⟨rfl, blind_verbatim⟩ (.cons ⟨rfl, blind_verbatim⟩ .nil))
      names := by decide
      apart := by simp [fields, apart_of_comm, Fills.set]
      unset := by simp [fields, unset_iff, Fills.set, Fills.part] }

theorem NodeType.blind_ofJson : Blind ofJson form.Edits :=
  Matches.blind_readRecord
    { values :=
        .cons ⟨rfl, blind_ident⟩
          (.cons ⟨rfl, blind_verbatim⟩
            (.cons ⟨rfl, blind_verbatim⟩
              (.cons ⟨rfl, blind_verbatim⟩
                (.cons ⟨rfl, blind_records DeclaredPin.blind_ofJson⟩ .nil))))
      names := by decide
      apart := by simp [fields, apart_of_comm, Fills.set]
      unset := by simp [fields, unset_iff, Fills.set, Fills.part] }

theorem Patch.matches_form : Matches form fields {} where
  values :=
    .cons ⟨rfl, blind_ident⟩
      (.cons ⟨rfl, blind_records Node.blind_ofJson⟩
        (.cons ⟨rfl, blind_records Pin.blind_ofJson⟩
          (.cons ⟨rfl, blind_records Link.blind_ofJson⟩ .nil)))
  names := by decide
  apart := by simp [fields, apart_of_comm, Fills.set]
  unset := by simp [fields, unset_iff, Fills.set, Fills.part]

/-- A further member of a patch is none of its fields. -/
theorem Patch.unset_addExtra : ∀ f ∈ fields, ∀ (p : Patch) (m : String × Json),
    f.Unset p → f.Unset (p.addExtra m.1 m.2) := by
  intro f hf p m hp
  simp only [fields, List.mem_cons, List.not_mem_nil, or_false] at hf
  rcases hf with rfl | rfl | rfl | rfl
  all_goals
    rw [unset_iff] at hp ⊢
    exact congrArg (fun p : Patch => p.addExtra m.1 m.2) hp

theorem Patch.blind_ofJson : Blind ofJson form.Edits := by
  intro v w hv hstep
  cases hstep with
  | members hstep =>
    have hkeeps : form.keepsOthers ≠ false := by decide
    exact matches_form.readMembers_eq unset_addExtra (fun h => absurd h hkeeps) hv hstep
  | item hform | named hform => exact absurd hform (by decide)

/-! ## 7. Projects -/

namespace Project

theorem matches_form : Matches form fields {} where
  values :=
    .cons ⟨rfl, blind_records Patch.blind_ofJson⟩
      (.cons ⟨rfl, blind_records NodeType.blind_ofJson⟩ .nil)
  names := by decide
  apart := by simp [fields, apart_of_comm, Fills.set]
  unset := by simp [fields, unset_iff, Fills.set, Fills.part]

theorem blind_ofJson : Blind ofJson form.Edits := by
  intro v w hv hstep
  cases hstep with
  | @members ms ms' hstep =>
    have hread : readMembers fields (fun p _ => p) ms' {} =
        readMembers fields (fun p _ => p) ms {} :=
      matches_form.readMembers_eq (fun _ _ _ _ hp => hp) (fun _ _ _ => rfl) hv hstep
    simp only [ofJson, hread]
  | item hform | named hform => exact absurd hform (by decide)

/-- **Equivalent spellings of a document read the same.**  However many places of a document
that names no member twice are spelled otherwise, at whatever depth, the same project is read,
every map in its order, or the same error is given, and the same log is left.  An entry that was
skipped is logged with its reason in both, so whatever the words for the reasons are, the log is
the same word for word. -/
theorem ofJson_eq_of_respells {d d' : Json} (hd : d.WellFormed) (h : Respells d d') :
    ofJson d' = ofJson d := by
  induction h with
  | refl => rfl
  | @tail e e' hsteps hstep ih =>
    have he : e.WellFormed := Respells.wellFormed hd hsteps
    calc ofJson e' = ofJson e := blind_ofJson e e' he hstep
      _ = ofJson d := ih

end Project

namespace Example

/-- A document with room for a remark, for the head of its patch, for a node and for a node
type. -/
def sheet (remark head : List (String × Json)) (node type : Json) : Json :=
  .object (remark ++
    [("patches", .object [("main", .object (head ++ [("nodes", .object [("1", node)])]))]),
      ("nodeTypes", .object [("add", type)])])

/-- A sheet that is spelled in every other way.  One of its declared pins is none. -/
def loose : Json :=
  sheet [("remark", .string "draft")] [("id", .null)]
    (.array [.number (.int 1 (by decide)), .string "add"])
    (.array [.string "add", .null, .null, .null,
      .object [("x", .object [("key", .string "x"), ("unit", .string "m")]),
        ("y", .array [.string "y", .bool true])]])

/-- The same sheet in full, with nothing to spare. -/
def neat : Json :=
  sheet [] [] (.object [("id", .string "1"), ("typeId", .string "add")])
    (.object [("id", .string "add"), ("pure", .null), ("setup", .null), ("evaluate", .null),
      ("pins", .object [("x", .object [("key", .string "x")]),
        ("y", .object [("key", .string "y"), ("direction", .bool true)])])])

/-- The project in either sheet. -/
def sheetProject : Project :=
  { patches := .ofList [("main",
      { nodes := .ofList [("1", { id := some "1", typeId := some "add" })] })]
    nodeTypes := .ofList [("add",
      { id := some "add", pins := .ofList [("x", { key := some "x" })] })] }

/-- A step of the node is a step of the sheet. -/
theorem sheet_node {v w : Json} (type : Json) (h : Node.form.Edits v w) :
    Project.form.Edits (sheet [] [] v type) (sheet [] [] w type) :=
  .members (.value [] _ List.mem_cons_self (.intro [] "main" []
    (.members (.value [] [] (List.mem_cons_of_mem _ List.mem_cons_self) (.intro [] "1" [] h)))))

/-- A step of the node type is a step of the sheet. -/
theorem sheet_type {v w : Json} (node : Json) (h : NodeType.form.Edits v w) :
    Project.form.Edits (sheet [] [] node v) (sheet [] [] node w) :=
  .members (.value [_] [] (List.mem_cons_of_mem _ List.mem_cons_self) (.intro [] "add" [] h))

/-- `neat` is `loose` after a step of every kind.  So the same project is read from both, and the
same is said of the pin that neither holds: its direction is a truth value. -/
theorem neat_reads_as_loose :
    loose.WellFormed ∧ Project.Respells loose neat ∧
      Project.ofJson neat = Project.ofJson loose ∧
      Project.ofJson loose = ⟨.ok sheetProject,
        [.skippedEntry "y" (.mismatch (.bool true) .text), .loaded 1 1]⟩ := by
  have hwell : loose.WellFormed := by
    simp [loose, sheet, Json.WellFormed, Json.WellFormedMembers, Json.WellFormedItems,
      Entries.keys]
  have hsteps : Project.Respells loose neat := by
    -- the remark of the root and the null at the head of the patch go
    refine .head (.members (.unknown [] _ _ rfl (by decide))) ?_
    refine .head (.members (.value [] _ List.mem_cons_self
      (.intro [] "main" [] (.members (.null [] _ (by decide)))))) ?_
    -- the node names its fields, and its id becomes a text
    refine .head (sheet_node _ (.named rfl (by decide))) ?_
    refine .head (sheet_node _ (.members (.value [] _ List.mem_cons_self
      (.intro (.int 1 (by decide)))))) ?_
    -- the unit of the one declared pin goes, the other one and the node type name their fields
    refine .head (sheet_type _ (.item rfl [_, _, _, _] [] rfl
      (.intro [] "x" [_] (.members (.unknown [_] [] _ rfl (by decide)))))) ?_
    refine .head (sheet_type _ (.item rfl [_, _, _, _] [] rfl
      (.intro [_] "y" [] (.named rfl (by decide))))) ?_
    exact .single (sheet_type _ (.named rfl (by decide)))
  exact ⟨hwell, hsteps, Project.ofJson_eq_of_respells hwell hsteps, by decide +kernel⟩

end Example

end Patchbay
