/-
# Spellings: the ways to write one document

A document can say the same thing in several ways.  An id may be a number or its text, an
absent field may be null or left out, a record may list its fields' values or name them, and a
member that nothing reads may be there or not.  This file makes relations of these four:
`d` is related to what one of them turns it into at one place, and `Project.Respells` is any
number of them.

What can be done to a record is a matter of its fields, so it is a relation made from a table
(`RecordForm`), as its reader is.  The tables are written out here, apart from the reader's, and
each one names the relations for its fields' values, down to the records in its maps.  Nothing
is done inside a payload, a tag, the ends of a link, or a further member of a patch.

* `RecordForm.EditsMembers`, `RecordForm.Edits`: one place of a record is spelled otherwise;
* `Node.form` and its like: the tables;
* `RecordForm.Edits.wellFormed`, `Project.Respells.wellFormed`: an object that names no member
  twice still does not, after one step and after any number.
-/
import Mathlib.Logic.Relation
import Patchbay.Proofs.Tolerance

namespace Patchbay

/-! ## 1. Values and records -/

namespace Spelling

/-- A number becomes its text. -/
inductive NumberToText : Json → Json → Prop where
  | intro (n : Number) : NumberToText (.number n) (.string (String.ofList n.text))

/-- There is no other way to write the value. -/
inductive Verbatim : Json → Json → Prop

/-- One entry of a map is spelled otherwise. -/
inductive InEntry (R : Json → Json → Prop) : Json → Json → Prop where
  | intro (front : List (String × Json)) (key : String) (back : List (String × Json))
      {v w : Json} (h : R v w) :
    InEntry R (.object (front ++ (key, v) :: back)) (.object (front ++ (key, w) :: back))

end Spelling

/-- What a record of one kind looks like in a document. -/
structure RecordForm where
  /-- The names of the fields as they are declared, each with how its value may be spelled
  otherwise. -/
  fields : List (String × (Json → Json → Prop))
  /-- Whether the record may be an array of its fields' values. -/
  positional : Bool
  /-- Whether the members that are no fields are kept. -/
  keepsOthers : Bool

namespace RecordForm

/-- The names of the fields. -/
def names (F : RecordForm) : List String := F.fields.map Prod.fst

/-- One member of a record is spelled otherwise or left out. -/
inductive EditsMembers (F : RecordForm) : List (String × Json) → List (String × Json) → Prop where
  /-- The value of a field is spelled otherwise. -/
  | value (front back : List (String × Json)) {name : String} {R : Json → Json → Prop}
      {v w : Json} (hfield : (name, R) ∈ F.fields) (h : R v w) :
    EditsMembers F (front ++ (name, v) :: back) (front ++ (name, w) :: back)
  /-- A field that is null is left out. -/
  | null (front back : List (String × Json)) {name : String} (hname : name ∈ F.names) :
    EditsMembers F (front ++ (name, .null) :: back) (front ++ back)
  /-- A member that is not kept is left out. -/
  | unknown (front back : List (String × Json)) {name : String} (v : Json)
      (hkeeps : F.keepsOthers = false) (hname : name ∉ F.names) :
    EditsMembers F (front ++ (name, v) :: back) (front ++ back)

/-- One place of a record is spelled otherwise. -/
inductive Edits (F : RecordForm) : Json → Json → Prop where
  /-- A member. -/
  | members {ms ms' : List (String × Json)} (h : F.EditsMembers ms ms') :
    Edits F (.object ms) (.object ms')
  /-- An item.  The array may be too long to be a record. -/
  | item (hform : F.positional = true) (front back : List Json) {name : String}
      {R : Json → Json → Prop} {v w : Json} (hfield : F.fields[front.length]? = some (name, R))
      (h : R v w) :
    Edits F (.array (front ++ v :: back)) (.array (front ++ w :: back))
  /-- The record as a whole: its items become members. -/
  | named (hform : F.positional = true) {items : List Json}
      (hlength : items.length ≤ F.names.length) :
    Edits F (.array items) (.object (F.names.zip items))

end RecordForm

/-! ## 2. The records of a project -/

open Spelling

/-- A node in a document. -/
def Node.form : RecordForm where
  fields := [("id", NumberToText), ("typeId", NumberToText)]
  positional := true
  keepsOthers := false

/-- A pin in a document. -/
def Pin.form : RecordForm where
  fields := [("id", NumberToText), ("nodeId", NumberToText), ("key", NumberToText)]
  positional := true
  keepsOthers := false

/-- A link in a document. -/
def Link.form : RecordForm where
  fields := [("id", NumberToText), ("pins", Verbatim)]
  positional := true
  keepsOthers := false

/-- A declared pin in a document. -/
def DeclaredPin.form : RecordForm where
  fields := [("key", NumberToText), ("direction", Verbatim), ("type", Verbatim)]
  positional := true
  keepsOthers := false

/-- A node type in a document. -/
def NodeType.form : RecordForm where
  fields := [("id", NumberToText), ("pure", Verbatim), ("setup", Verbatim),
    ("evaluate", Verbatim), ("pins", InEntry DeclaredPin.form.Edits)]
  positional := true
  keepsOthers := false

/-- A patch in a document: never an array, and with members of its author's own. -/
def Patch.form : RecordForm where
  fields := [("id", NumberToText), ("nodes", InEntry Node.form.Edits),
    ("pins", InEntry Pin.form.Edits), ("links", InEntry Link.form.Edits)]
  positional := false
  keepsOthers := true

/-- A whole document. -/
def Project.form : RecordForm where
  fields := [("patches", InEntry Patch.form.Edits), ("nodeTypes", InEntry NodeType.form.Edits)]
  positional := false
  keepsOthers := false

/-- The second document is the first one with any number of places spelled otherwise. -/
def Project.Respells : Json → Json → Prop := Relation.ReflTransGen Project.form.Edits

/-! ## 3. Members stay distinct -/

namespace Json

theorem WellFormed.of_sublist {members members' : List (String × Json)}
    (h : (object members).WellFormed) (hsub : members'.Sublist members) :
    (object members').WellFormed := by
  have hm := wellFormed_object_iff.mp h
  exact wellFormed_object_iff.mpr
    ⟨hm.1.sublist (hsub.map Prod.fst), fun m hmem => hm.2 m (hsub.subset hmem)⟩

/-- A value of an object may be replaced by another one that is well formed. -/
theorem WellFormed.replace {front back : List (String × Json)} {key : String} {v w : Json}
    (h : (object (front ++ (key, v) :: back)).WellFormed) (hw : v.WellFormed → w.WellFormed) :
    (object (front ++ (key, w) :: back)).WellFormed := by
  simp only [wellFormed_object_iff, Entries.keys, List.map_append, List.map_cons,
    List.forall_mem_append, List.forall_mem_cons] at h ⊢
  exact ⟨h.1, h.2.1, hw h.2.2.1, h.2.2.2⟩

end Json

/-- The relation leaves well-formed values well formed. -/
def Spelling.KeepsWellFormed (R : Json → Json → Prop) : Prop :=
  ∀ v w, v.WellFormed → R v w → w.WellFormed

theorem Spelling.keeps_numberToText : KeepsWellFormed NumberToText := by
  rintro _ _ - ⟨n⟩
  trivial

theorem Spelling.keeps_verbatim : KeepsWellFormed Verbatim := by
  rintro _ _ - ⟨⟩

theorem Spelling.keeps_inEntry {R : Json → Json → Prop} (hR : KeepsWellFormed R) :
    KeepsWellFormed (InEntry R) := by
  rintro _ _ hv ⟨front, key, back, h⟩
  exact hv.replace fun hv => hR _ _ hv h

namespace RecordForm

variable {F : RecordForm}

/-- The names of the fields are distinct, and whatever is done to their values leaves those well
formed. -/
structure Proper (F : RecordForm) : Prop where
  names : F.names.Nodup
  values : ∀ s ∈ F.fields, KeepsWellFormed s.2

/-- Some names with their items: the names are distinct if all were. -/
theorem keys_zip_sublist : ∀ (names : List String) (items : List Json),
    (Entries.keys (names.zip items)).Sublist names
  | [], _ | _ :: _, [] => List.nil_sublist _
  | name :: names, _ :: items => (keys_zip_sublist names items).cons_cons name

theorem EditsMembers.wellFormed (hF : F.Proper) {ms ms' : List (String × Json)}
    (h : F.EditsMembers ms ms') (hms : (Json.object ms).WellFormed) :
    (Json.object ms').WellFormed := by
  cases h with
  | value front back hfield h => exact hms.replace fun hv => hF.values _ hfield _ _ hv h
  | null front back hname => exact hms.of_sublist ((List.sublist_cons_self ..).append_left front)
  | unknown front back v hkeeps hname =>
    exact hms.of_sublist ((List.sublist_cons_self ..).append_left front)

/-- **One step keeps a record well formed.** -/
theorem Edits.wellFormed (hF : F.Proper) : KeepsWellFormed F.Edits := by
  intro v w hv h
  cases h with
  | members h => exact h.wellFormed hF hv
  | item hform front back hfield h =>
    have hR := hF.values _ (List.mem_of_getElem? hfield)
    simp only [Json.wellFormed_array_iff, List.forall_mem_append, List.forall_mem_cons] at hv ⊢
    exact ⟨hv.1, hR _ _ hv.2.1 h, hv.2.2⟩
  | named hform hlength =>
    refine Json.wellFormed_object_iff.mpr ⟨hF.names.sublist (keys_zip_sublist ..), ?_⟩
    intro m hm
    exact Json.wellFormed_array_iff.mp hv m.2 (List.of_mem_zip hm).2

end RecordForm

theorem Node.proper_form : form.Proper where
  names := by decide
  values := by simp [form, keeps_numberToText]

theorem Pin.proper_form : form.Proper where
  names := by decide
  values := by simp [form, keeps_numberToText]

theorem Link.proper_form : form.Proper where
  names := by decide
  values := by simp [form, keeps_numberToText, keeps_verbatim]

theorem DeclaredPin.proper_form : form.Proper where
  names := by decide
  values := by simp [form, keeps_numberToText, keeps_verbatim]

theorem NodeType.proper_form : form.Proper where
  names := by decide
  values := by
    have hpins := keeps_inEntry (RecordForm.Edits.wellFormed DeclaredPin.proper_form)
    simp [form, keeps_numberToText, keeps_verbatim, hpins]

theorem Patch.proper_form : form.Proper where
  names := by decide
  values := by
    have hnodes := keeps_inEntry (RecordForm.Edits.wellFormed Node.proper_form)
    have hpins := keeps_inEntry (RecordForm.Edits.wellFormed Pin.proper_form)
    have hlinks := keeps_inEntry (RecordForm.Edits.wellFormed Link.proper_form)
    simp [form, keeps_numberToText, hnodes, hpins, hlinks]

theorem Project.proper_form : form.Proper where
  names := by decide
  values := by
    have hpatches := keeps_inEntry (RecordForm.Edits.wellFormed Patch.proper_form)
    have hnodeTypes := keeps_inEntry (RecordForm.Edits.wellFormed NodeType.proper_form)
    simp [form, hpatches, hnodeTypes]

/-- **Any number of steps keeps a document well formed.** -/
theorem Project.Respells.wellFormed {d d' : Json} (hd : d.WellFormed) (h : Respells d d') :
    d'.WellFormed := by
  induction h with
  | refl => exact hd
  | tail _ hstep ih => exact RecordForm.Edits.wellFormed proper_form _ _ ih hstep

end Patchbay
