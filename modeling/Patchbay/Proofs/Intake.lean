/-
# Intake: which records are accepted, and what a map takes in

Of what can stand in place of a record, the reader takes some and rejects the rest.  That is shown
of a table of fields from what is known of each field.

A field *accepts* the values with a property when it takes exactly those, into whatever record
(`Field.Accepts`).  Only a text with a meaning rejects anything (`accepts_tagged`).

* `isOk_readMembers`, `isOk_readItems`: a table takes an object whose members its fields
  accept, whatever else is there, and an array of no more items than it has fields, if the
  fields accept them;
* `entries_readMap`: a map holds what its entries are read as, in their order.
-/
import Patchbay.Proofs.Fields

namespace Patchbay

namespace Field

variable {ρ α : Type}

/-! ## 1. What a field accepts -/

/-- The field takes exactly the values with the property, into whatever record. -/
def Accepts (f : Field ρ) (P : Json → Prop) : Prop :=
  ∀ v a, (f.read v a).value.isOk = true ↔ P v

theorem accepts_ident {name : String} {get : ρ → Option String}
    {set : ρ → Option String → ρ} : (ident name get set).Accepts fun _ => True :=
  fun _ _ => ⟨fun _ => trivial, fun _ => rfl⟩

theorem accepts_payload {name : String} {get : ρ → Option Json} {set : ρ → Option Json → ρ} :
    (payload name get set).Accepts fun _ => True :=
  fun _ _ => ⟨fun _ => trivial, fun _ => rfl⟩

theorem accepts_ends {name : String} {get : ρ → List (Option String)}
    {set : ρ → List (Option String) → ρ} : (ends name get set).Accepts fun _ => True :=
  fun _ _ => ⟨fun _ => trivial, fun _ => rfl⟩

theorem accepts_records {name : String} {record : Json → Logged (Verdict α)} {toJson : α → Json}
    {get : ρ → OrderedMap α} {set : ρ → OrderedMap α → ρ} :
    (records name record toJson get set).Accepts fun _ => True :=
  fun _ _ => ⟨fun _ => trivial, fun _ => rfl⟩

/-- A text with a meaning may be null instead, and nothing else. -/
theorem accepts_tagged {name : String} {ofTag : String → α} {tag : α → String}
    {get : ρ → Option α} {set : ρ → Option α → ρ} :
    (tagged name ofTag tag get set).Accepts fun v => v = .null ∨ ∃ s, v = .string s := by
  intro v a
  cases v with
  | null | string _ => simp [tagged, Verdict.isOk_iff]
  | bool _ | number _ | array _ | object _ => simp [tagged, Verdict.isOk_iff]

/-! ## 2. What a table accepts -/

theorem isOk_value_bind_iff {x : Logged (Verdict ρ)} {k : ρ → Logged (Verdict ρ)} :
    (x >>= fun | .error reason => return .error reason | .ok b => k b).value.isOk = true ↔
      ∃ b, x.value = .ok b ∧ (k b).value.isOk = true := by
  rw [Traced.value_bind]
  cases x.value with
  | error reason => simp [Verdict.isOk_iff]
  | ok b => simp

variable {fields : List (Field ρ)} {P : String → Json → Prop}

/-- A table takes an object if its fields accept the members of their names. -/
theorem isOk_readMembers {other : ρ → String × Json → ρ}
    (h : ∀ f ∈ fields, f.Accepts (P f.name)) :
    ∀ (members : List (String × Json)) (a : ρ),
      (readMembers fields other members a).value.isOk = true ↔
        ∀ m ∈ members, m.1 ∈ fields.map Field.name → P m.1 m.2
  | [], a => by simp [readMembers, Verdict.isOk_iff]
  | m :: rest, a => by
    cases hfind : fields.find? (·.name = m.1) with
    | none =>
      have hname : m.1 ∉ fields.map Field.name := fun hmem => by
        obtain ⟨f, hf, hfm⟩ := List.mem_map.mp hmem
        exact List.find?_eq_none.mp hfind f hf (by simpa using hfm)
      rw [readMembers_unknown hfind, isOk_readMembers h rest, List.forall_mem_cons]
      exact ⟨fun hrest => ⟨fun hmem => absurd hmem hname, hrest⟩, fun hall => hall.2⟩
    | some f =>
      have hf := List.mem_of_find?_eq_some hfind
      have hfm : f.name = m.1 := by simpa using List.find?_some hfind
      have hname : m.1 ∈ fields.map Field.name := List.mem_map.mpr ⟨f, hf, hfm⟩
      have haccepts := h f hf m.2 a
      rw [hfm] at haccepts
      rw [readMembers_known hfind, List.forall_mem_cons]
      refine isOk_value_bind_iff.trans ?_
      constructor
      · rintro ⟨c, hc, hrest⟩
        exact ⟨fun _ => haccepts.mp (by rw [hc]; rfl), (isOk_readMembers h rest c).mp hrest⟩
      · rintro ⟨hm, hrest⟩
        obtain ⟨c, hc⟩ := Verdict.isOk_iff.mp (haccepts.mpr (hm hname))
        exact ⟨c, hc, (isOk_readMembers h rest c).mpr hrest⟩

/-- Fields that accept anything take any object. -/
theorem isOk_readMembers_of_accepts (h : ∀ f ∈ fields, f.Accepts fun _ => True)
    (other : ρ → String × Json → ρ) (members : List (String × Json)) (a : ρ) :
    (readMembers fields other members a).value.isOk = true :=
  (isOk_readMembers (P := fun _ _ => True) h members a).mpr fun _ _ _ => trivial

/-- A table takes an array of no more items than it has fields, if these accept them. -/
theorem isOk_readItems : ∀ {fields : List (Field ρ)}, (∀ f ∈ fields, f.Accepts (P f.name)) →
    ∀ {count : Nat} (items : List Json) (a : ρ),
      (readItems count fields items a).value.isOk = true ↔
        items.length ≤ fields.length ∧ ∀ x ∈ fields.zip items, P x.1.name x.2
  | [], _, _, [], _ | _ :: _, _, _, [], _ => by simp [readItems, Verdict.isOk_iff]
  | [], _, _, _ :: _, _ => by simp [readItems, Verdict.isOk_iff]
  | f :: fs, h, count, v :: vs, a => by
    have haccepts := h f List.mem_cons_self v a
    have ih : ∀ c, (readItems count fs vs c).value.isOk = true ↔
        vs.length ≤ fs.length ∧ ∀ x ∈ fs.zip vs, P x.1.name x.2 :=
      isOk_readItems (fun g hg => h g (List.mem_cons_of_mem _ hg)) vs
    rw [readItems, List.zip_cons_cons, List.forall_mem_cons, List.length_cons, List.length_cons,
      Nat.add_le_add_iff_right]
    refine isOk_value_bind_iff.trans ?_
    constructor
    · rintro ⟨c, hc, hrest⟩
      obtain ⟨hlength, hall⟩ := (ih c).mp hrest
      exact ⟨hlength, haccepts.mp (by rw [hc]; rfl), hall⟩
    · rintro ⟨hlength, hv, hall⟩
      obtain ⟨c, hc⟩ := Verdict.isOk_iff.mp (haccepts.mpr hv)
      exact ⟨c, hc, (ih c).mpr ⟨hlength, hall⟩⟩

/-! ## 3. Maps -/

theorem value_readEntry (record : Json → Logged (Verdict α)) (e : String × Json) :
    (readEntry record e).value = (record e.2).value.toOption.map fun x => (e.1, x) := by
  unfold readEntry
  rw [Traced.value_bind]
  cases (record e.2).value <;> rfl

/-- An entry that is left out takes its key along, and no key is changed. -/
theorem keys_filterMap_sublist (g : Json → Option α) : ∀ members : List (String × Json),
    (Entries.keys (members.filterMap fun e => (g e.2).map fun x => (e.1, x))).Sublist
      (Entries.keys members)
  | [] => List.Sublist.refl _
  | m :: rest => by
    have ih := keys_filterMap_sublist g rest
    cases hm : g m.2 with
    | none =>
      rw [List.filterMap_cons_none (by rw [hm]; rfl)]
      exact ih.cons m.1
    | some x =>
      rw [List.filterMap_cons_some (by rw [hm]; rfl)]
      exact ih.cons_cons m.1

/-- A map holds what its entries are read as, in their order. -/
theorem entries_readMap {record : Json → Logged (Verdict α)} {members : List (String × Json)}
    (h : (Entries.keys members).Nodup) :
    (readMap record (.object members)).value.entries =
      members.filterMap fun e => (record e.2).value.toOption.map fun x => (e.1, x) := by
  have hvalue : (readMap record (.object members)).value =
      .ofList (members.filterMap fun e =>
        (record e.2).value.toOption.map fun x => (e.1, x)) := by
    rw [readMap_object]
    simp only [value_readEntry]
  rw [hvalue]
  have hsublist := keys_filterMap_sublist (fun v => (record v).value.toOption) members
  exact OrderedMap.entries_ofList (h.sublist hsublist)

end Field
end Patchbay
