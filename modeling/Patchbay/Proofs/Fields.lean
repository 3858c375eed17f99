/-
# Fields: what reading does with what was written

Reader and writer of a record follow one table of fields (`Document.Field`), so what there is
to show about them can be shown of one field at a time, and by the kind of its value.

Writing first: a field *copies* its part of a record `r` when reading what it writes of `r`
puts that part into a record, without a word in the log (`Field.Copies`).  A table *rebuilds*
`r` from a blank record when its fields copy one after another until `r` is there
(`Field.Rebuilds`).

* `readMembers_writeMembers`, `readRecord_writeRecord`: with such a table, and distinct names,
  reading undoes writing;
* `copies_ident`, `copies_payload`, `copies_tagged`, `copies_ends`, `copies_records`: when a
  field copies, kind by kind.

Reading first: a field *keeps* a property of records when it holds of whatever the field reads
into a record that has it (`Field.Keeps`), or of whatever it reads from values of some sort
(`Field.KeepsFrom`).

* `of_readMembers`, `of_readItems`, `of_readRecord`: a table whose fields all keep a property
  reads no record without it;
* `of_readMembers_from`, `of_readItems_from`: the same where all parts of the input are of the
  sort;
* `keeps_ident`, `keeps_payload`, `keeps_tagged`, `keeps_records`, `keepsFrom_payload`,
  `keepsFrom_records`: when a field keeps a property, kind by kind.
-/
import Mathlib.Data.List.Basic
import Patchbay.Document.Format

namespace Patchbay
namespace Field

variable {ρ α : Type}

/-! ## 1. Reading undoes writing -/

/-- Reading what the field writes of `r` takes `a` to another record and logs nothing; a field
that writes nothing leaves `a` as it is. -/
inductive Copies (f : Field ρ) (r a : ρ) : ρ → Prop where
  | absent (hwrite : f.write r = none) : Copies f r a a
  | written {v : Json} {b : ρ} (hwrite : f.write r = some v) (hread : f.read v a = pure (.ok b)) :
    Copies f r a b

/-- The fields copy from `r` one after another, and take `a` to `b`. -/
inductive Rebuilds (r : ρ) : List (Field ρ) → ρ → ρ → Prop where
  | nil (a : ρ) : Rebuilds r [] a a
  | cons {f : Field ρ} {fs : List (Field ρ)} {a b c : ρ} (head : f.Copies r a b)
      (tail : Rebuilds r fs b c) : Rebuilds r (f :: fs) a c

/-- With distinct names, looking a field up by its name finds it. -/
theorem find?_name : ∀ {fs : List (Field ρ)}, (fs.map Field.name).Nodup →
    ∀ f ∈ fs, fs.find? (·.name = f.name) = some f
  | g :: fs, h, f, hf => by
    have hnd := List.nodup_cons.mp h
    rcases List.mem_cons.mp hf with rfl | hf
    · exact List.find?_cons_of_pos (by simp)
    · have hne : g.name ≠ f.name := fun he => hnd.1 (List.mem_map.mpr ⟨f, hf, he.symm⟩)
      rw [List.find?_cons_of_neg (by simpa using hne)]
      exact find?_name hnd.2 f hf

/-- What a table writes of a record leads its reader to the record, whatever members follow. -/
theorem readMembers_writeMembers {all fs : List (Field ρ)} {other : ρ → String × Json → ρ}
    {r a b : ρ} (hall : ∀ f ∈ fs, all.find? (·.name = f.name) = some f)
    (h : Rebuilds r fs a b) (rest : List (String × Json)) :
    readMembers all other (writeMembers fs r ++ rest) a = readMembers all other rest b := by
  -- `all` stays the whole table, since it is there that every member is looked up
  induction h with
  | nil a => rfl
  | @cons f fs a b c head tail ih =>
    have hrest := ih fun g hg => hall g (List.mem_cons_of_mem _ hg)
    cases head with
    | absent hwrite =>
      have hmembers : writeMembers (f :: fs) r = writeMembers fs r :=
        List.filterMap_cons_none (by rw [hwrite]; rfl)
      rw [hmembers, hrest]
    | @written v b hwrite hread =>
      have hmembers : writeMembers (f :: fs) r = (f.name, v) :: writeMembers fs r :=
        List.filterMap_cons_some (by rw [hwrite]; rfl)
      rw [hmembers, List.cons_append, readMembers_known (hall f List.mem_cons_self), hread,
        pure_bind]
      exact hrest

/-- A table that rebuilds the record reads it from the members that it writes. -/
theorem readMembers_writeMembers_self {fields : List (Field ρ)} {other : ρ → String × Json → ρ}
    {blank r : ρ} (hnames : (fields.map Field.name).Nodup) (h : Rebuilds r fields blank r) :
    readMembers fields other (writeMembers fields r) blank = pure (.ok r) := by
  have hread : readMembers fields other (writeMembers fields r ++ []) blank =
      readMembers fields other [] r :=
    readMembers_writeMembers (find?_name hnames) h []
  rw [List.append_nil] at hread
  exact hread

/-- **Reading undoes writing** for a table that rebuilds the record. -/
theorem readRecord_writeRecord {expected : Expected} {fields : List (Field ρ)} {blank r : ρ}
    (hnames : (fields.map Field.name).Nodup) (h : Rebuilds r fields blank r) :
    readRecord expected fields blank (writeRecord fields r) = pure (.ok r) :=
  readMembers_writeMembers_self hnames h

/-! ## 2. When a field copies -/

theorem copies_ident {name : String} {get : ρ → Option String} {set : ρ → Option String → ρ}
    {r a : ρ} (hnone : set a none = a) : (ident name get set).Copies r a (set a (get r)) := by
  cases hget : get r with
  | none =>
    rw [hnone]
    exact .absent (by simp [ident, hget])
  | some id => exact .written (v := .string id) (by simp [ident, hget]) rfl

theorem copies_payload {name : String} {get : ρ → Option Json} {set : ρ → Option Json → ρ}
    {r a : ρ} (hnone : set a none = a) (hr : get r ≠ some .null) :
    (payload name get set).Copies r a (set a (get r)) := by
  cases hget : get r with
  | none =>
    rw [hnone]
    exact .absent hget
  | some v =>
    have hv : v ≠ .null := fun he => hr (by rw [hget, he])
    exact .written hget (by simp [payload, hv])

theorem copies_tagged {name : String} {ofTag : String → α} {tag : α → String}
    {get : ρ → Option α} {set : ρ → Option α → ρ} {r a : ρ} (hnone : set a none = a)
    (hr : ∀ x, get r = some x → ofTag (tag x) = x) :
    (tagged name ofTag tag get set).Copies r a (set a (get r)) := by
  cases hget : get r with
  | none =>
    rw [hnone]
    exact .absent (by simp [tagged, hget])
  | some x =>
    have hread : (tagged name ofTag tag get set).read (.string (tag x)) a =
        pure (.ok (set a (some (ofTag (tag x))))) := rfl
    rw [hr x hget] at hread
    exact .written (by simp [tagged, hget]) hread

@[simp] theorem endOf_textOrNull (s : Option String) : endOf (Diagnostic.textOrNull s) = s := by
  cases s <;> rfl

/-- The ends of a link are read back at their positions, gaps included. -/
theorem copies_ends {name : String} {get : ρ → List (Option String)}
    {set : ρ → List (Option String) → ρ} {r a : ρ} :
    (ends name get set).Copies r a (set a (get r)) := by
  have hends : endsOf (.array ((get r).map Diagnostic.textOrNull)) = get r := by
    simp [endsOf, Function.comp_def]
  exact .written rfl (by simp only [ends, hends])

/-- A map is read back entry by entry, in its order. -/
theorem readMap_toJson {record : Json → Logged (Verdict α)} {toJson : α → Json}
    {m : OrderedMap α} (h : ∀ x ∈ m.values, record (toJson x) = pure (.ok x)) :
    readMap record (.object (m.map toJson).entries) = pure m := by
  have hentry : ∀ e ∈ m.entries, readEntry record (e.1, toJson e.2) = pure (some e) := by
    intro e he
    unfold readEntry
    rw [h e.2 (List.mem_map.mpr ⟨e, he, rfl⟩), pure_bind]
  rw [readMap_object, OrderedMap.entries_map, List.filterMap_map, List.flatMap_map]
  refine Traced.ext ?_ ?_
  · have hvalue : m.entries.filterMap
        ((fun e => (readEntry record e).value) ∘ fun e => (e.1, toJson e.2)) =
          m.entries.filterMap some :=
      List.filterMap_congr fun e he => by simp [hentry e he]
    rw [hvalue, List.filterMap_some]
    exact OrderedMap.ofList_entries m
  · refine List.flatMap_eq_nil_iff.mpr fun e he => ?_
    rw [hentry e he]
    rfl

theorem copies_records {name : String} {record : Json → Logged (Verdict α)} {toJson : α → Json}
    {get : ρ → OrderedMap α} {set : ρ → OrderedMap α → ρ} {r a : ρ}
    (h : ∀ x ∈ (get r).values, record (toJson x) = pure (.ok x)) :
    (records name record toJson get set).Copies r a (set a (get r)) := by
  exact .written rfl (by simp only [records, readMap_toJson h, pure_bind])

/-! ## 3. What reading keeps -/

/-- Whatever the field reads from a value of the sort `D` into a record with the property has
the property. -/
def KeepsFrom (f : Field ρ) (D : Json → Prop) (I : ρ → Prop) : Prop :=
  ∀ v a b, D v → I a → (f.read v a).value = .ok b → I b

/-- Whatever the field reads into a record with the property has the property. -/
def Keeps (f : Field ρ) (I : ρ → Prop) : Prop :=
  ∀ v a b, I a → (f.read v a).value = .ok b → I b

theorem Keeps.keepsFrom {f : Field ρ} {D : Json → Prop} {I : ρ → Prop} (h : f.Keeps I) :
    f.KeepsFrom D I :=
  fun v a b _ => h v a b

/-- One field and then the rest of the input: reading goes through if both do. -/
theorem value_bind_eq_ok_iff {x : Logged (Verdict ρ)} {k : ρ → Logged (Verdict ρ)} {c : ρ} :
    (x >>= fun | .error reason => return .error reason | .ok b => k b).value = .ok c ↔
      ∃ b, x.value = .ok b ∧ (k b).value = .ok c := by
  rw [Traced.value_bind]
  cases x.value with
  | error reason => simp
  | ok b => simp

theorem of_readMembers_from {fields : List (Field ρ)} {other : ρ → String × Json → ρ}
    {D : Json → Prop} {I : ρ → Prop} (hfields : ∀ f ∈ fields, f.KeepsFrom D I)
    (hother : ∀ a m, I a → D m.2 → fields.find? (·.name = m.1) = none → I (other a m)) :
    ∀ (members : List (String × Json)), (∀ m ∈ members, D m.2) → ∀ {a b : ρ}, I a →
      (readMembers fields other members a).value = .ok b → I b
  | [], _, a, b, ha, h => Except.ok.inj h ▸ ha
  | m :: rest, hmembers, a, b, ha, h => by
    have hm := hmembers m List.mem_cons_self
    have hrest := fun m hm => hmembers m (List.mem_cons_of_mem _ hm)
    cases hfind : fields.find? (·.name = m.1) with
    | none =>
      rw [readMembers_unknown hfind] at h
      exact of_readMembers_from hfields hother rest hrest (hother a m ha hm hfind) h
    | some f =>
      rw [readMembers_known hfind] at h
      obtain ⟨c, hc, h⟩ := value_bind_eq_ok_iff.mp h
      have hf := hfields f (List.mem_of_find?_eq_some hfind)
      exact of_readMembers_from hfields hother rest hrest (hf m.2 a c hm ha hc) h

theorem of_readItems_from {D : Json → Prop} {I : ρ → Prop} {count : Nat} :
    ∀ {fields : List (Field ρ)}, (∀ f ∈ fields, f.KeepsFrom D I) →
      ∀ (items : List Json), (∀ v ∈ items, D v) → ∀ {a b : ρ}, I a →
        (readItems count fields items a).value = .ok b → I b
  | [], _, [], _, a, b, ha, h | _ :: _, _, [], _, a, b, ha, h => Except.ok.inj h ▸ ha
  | [], _, _ :: _, _, _, _, _, h => absurd h (by simp [readItems])
  | f :: fs, hfields, v :: vs, hitems, a, b, ha, h => by
    rw [readItems] at h
    obtain ⟨c, hc, hrest⟩ := value_bind_eq_ok_iff.mp h
    have hv := hitems v List.mem_cons_self
    exact of_readItems_from (fun g hg => hfields g (List.mem_cons_of_mem _ hg)) vs
      (fun w hw => hitems w (List.mem_cons_of_mem _ hw))
      (hfields f List.mem_cons_self v a c hv ha hc) hrest

theorem of_readMembers {fields : List (Field ρ)} {other : ρ → String × Json → ρ}
    {I : ρ → Prop} (hfields : ∀ f ∈ fields, f.Keeps I)
    (hother : ∀ a m, I a → fields.find? (·.name = m.1) = none → I (other a m))
    (members : List (String × Json)) {a b : ρ} (ha : I a)
    (h : (readMembers fields other members a).value = .ok b) : I b :=
  of_readMembers_from (D := fun _ => True) (fun f hf => (hfields f hf).keepsFrom)
    (fun a m ha _ => hother a m ha) members (fun _ _ => trivial) ha h

theorem of_readItems {I : ρ → Prop} {fields : List (Field ρ)} (hfields : ∀ f ∈ fields, f.Keeps I)
    {count : Nat} (items : List Json) {a b : ρ} (ha : I a)
    (h : (readItems count fields items a).value = .ok b) : I b :=
  of_readItems_from (D := fun _ => True) (fun f hf => (hfields f hf).keepsFrom) items
    (fun _ _ => trivial) ha h

/-- **No record is read without a property that its fields keep**, in either form. -/
theorem of_readRecord {expected : Expected} {fields : List (Field ρ)} {blank b : ρ} {I : ρ → Prop}
    (hfields : ∀ f ∈ fields, f.Keeps I) (hblank : I blank) {v : Json}
    (h : (readRecord expected fields blank v).value = .ok b) : I b := by
  cases v with
  | object members => exact of_readMembers hfields (fun _ _ ha _ => ha) members hblank h
  | array items => exact of_readItems hfields items hblank h
  | null | bool _ | number _ | string _ => exact absurd h (by simp [readRecord])

/-! ## 4. When a field keeps a property -/

section Keeping

variable {I : ρ → Prop} {name : String}

theorem keeps_ident {get : ρ → Option String} {set : ρ → Option String → ρ}
    (h : ∀ a id, I a → I (set a id)) : (ident name get set).Keeps I := by
  intro v a b ha hb
  obtain rfl : set a (readId v).value = b := Except.ok.inj hb
  exact h a _ ha

theorem keeps_payload {get : ρ → Option Json} {set : ρ → Option Json → ρ}
    (h : ∀ a v, I a → v ≠ some .null → I (set a v)) : (payload name get set).Keeps I := by
  intro v a b ha hb
  obtain rfl : set a (if v = .null then none else some v) = b := Except.ok.inj hb
  refine h a _ ha ?_
  split
  case isTrue => simp
  case isFalse hv => simpa using hv

theorem keeps_tagged {ofTag : String → α} {tag : α → String} {get : ρ → Option α}
    {set : ρ → Option α → ρ}
    (h : ∀ a x, I a → (∀ y, x = some y → ∃ s, y = ofTag s) → I (set a x)) :
    (tagged name ofTag tag get set).Keeps I := by
  intro v a b ha hb
  cases v with
  | null =>
    obtain rfl : set a none = b := Except.ok.inj hb
    exact h a none ha (by simp)
  | string s =>
    obtain rfl : set a (some (ofTag s)) = b := Except.ok.inj hb
    exact h a _ ha fun y hy => ⟨s, (Option.some.inj hy).symm⟩
  | bool _ | number _ | array _ | object _ => exact absurd hb (by simp [tagged])

/-- A map holds no record that its own reader does not give, from one of its entries. -/
theorem of_mem_readMap {record : Json → Logged (Verdict α)} {v : Json} {x : α}
    (h : x ∈ (readMap record v).value.values) :
    ∃ members, v = .object members ∧ ∃ m ∈ members, (record m.2).value = .ok x := by
  cases v with
  | object members =>
    rw [readMap_object] at h
    obtain ⟨key, hx⟩ := OrderedMap.mem_values_iff.mp h
    obtain ⟨m, hmem, hm⟩ := List.mem_filterMap.mp (OrderedMap.mem_of_mem_ofList hx)
    refine ⟨members, rfl, m, hmem, ?_⟩
    unfold readEntry at hm
    rw [Traced.value_bind] at hm
    cases hrecord : (record m.2).value with
    | error reason => simp [hrecord] at hm
    | ok y => simp_all
  | null | bool _ | number _ | string _ | array _ => exact absurd h (by simp [readMap])

theorem keeps_records {record : Json → Logged (Verdict α)} {toJson : α → Json}
    {get : ρ → OrderedMap α} {set : ρ → OrderedMap α → ρ}
    (h : ∀ a m, I a → (∀ x ∈ m.values, ∃ v, (record v).value = .ok x) → I (set a m)) :
    (records name record toJson get set).Keeps I := by
  intro v a b ha hb
  obtain rfl : set a (readMap record v).value = b := Except.ok.inj hb
  refine h a _ ha fun x hx => ?_
  obtain ⟨_, -, m, -, hm⟩ := of_mem_readMap hx
  exact ⟨m.2, hm⟩

variable {D : Json → Prop}

theorem keepsFrom_payload {get : ρ → Option Json} {set : ρ → Option Json → ρ}
    (h : ∀ a o, I a → (∀ v, o = some v → D v) → I (set a o)) :
    (payload name get set).KeepsFrom D I := by
  intro v a b hv ha hb
  obtain rfl : set a (if v = .null then none else some v) = b := Except.ok.inj hb
  refine h a _ ha fun w hw => ?_
  split at hw
  · exact absurd hw (by simp)
  · exact Option.some.inj hw ▸ hv

theorem keepsFrom_records {record : Json → Logged (Verdict α)} {toJson : α → Json}
    {get : ρ → OrderedMap α} {set : ρ → OrderedMap α → ρ} {E : Json → Prop}
    (hentries : ∀ members, D (.object members) → ∀ m ∈ members, E m.2)
    (h : ∀ a m, I a → (∀ x ∈ m.values, ∃ v, E v ∧ (record v).value = .ok x) → I (set a m)) :
    (records name record toJson get set).KeepsFrom D I := by
  intro v a b hv ha hb
  obtain rfl : set a (readMap record v).value = b := Except.ok.inj hb
  refine h a _ ha fun x hx => ?_
  obtain ⟨members, rfl, m, hmem, hm⟩ := of_mem_readMap hx
  exact ⟨m.2, hentries members hv m hmem, hm⟩

end Keeping

end Field
end Patchbay
