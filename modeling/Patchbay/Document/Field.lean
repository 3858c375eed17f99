/-
# Fields and the records made of them

The form of a record in a document is a table of fields, in the order in which they are
written.  A `Field` says how its value is read into a record and how it is written from one,
so that reader and writer follow the same table.

A record may stand in a document in two forms:

* as an object, whose members are read in document order, whichever order that is
  (`readMembers`);
* as an array, whose items are the fields' values in the order of the table, the last ones
  left out if need be (`readItems`).

Reading goes on after most oddities and leaves a log entry.  Only some fields can reject their
record, and so does an array with more items than fields.  A rejected record has then logged
what was read before, and nothing of what would have come after.  The reason goes up to the map
that the record was an entry of, and is logged there with its key (`readEntry`).

* `readMap_object`: the entries of a map and what reading them logs;
* `readMembers_unknown`, `readMembers_known`: one member at a time.
-/
import Patchbay.Document.Basic
import Patchbay.Json.Writer
import Patchbay.Log

namespace Patchbay

/-- One field of a record of type `ρ`. -/
structure Field (ρ : Type) where
  /-- The member that holds it. -/
  name : String
  /-- Takes a value into a record, or rejects the record. -/
  read : Json → ρ → Logged (Verdict ρ)
  /-- The value to write, `none` to leave the member out. -/
  write : ρ → Option Json

/-! ## 1. Values of a field -/

/-- Reads an id or a key.  A number stands for its text. -/
def readId : Json → Logged (Option String)
  | .string s => return some s
  | .number n => return some (String.ofList n.text)
  | .null => return none
  | other => do
    Traced.note (.oddId other.kind)
    return none

@[simp] theorem readId_null : readId .null = pure none := rfl

/-- Reads one entry of a map, none if it holds no record. -/
def readEntry {α : Type} (record : Json → Logged (Verdict α)) (e : String × Json) :
    Logged (Option (String × α)) := do
  match ← record e.2 with
  | .ok a => return some (e.1, a)
  | .error reason => do
    Traced.note (.skippedEntry e.1 reason)
    return none

/-- Reads a map of records, leaving out the entries that hold none.  Null is the empty map,
and so is anything else that is not an object. -/
def readMap {α : Type} (record : Json → Logged (Verdict α)) : Json → Logged (OrderedMap α)
  | .object members => do
    let entries ← Traced.each (readEntry record) members
    return .ofList (entries.filterMap id)
  | .null => return .empty
  | other => do
    Traced.note (.oddMap other.kind)
    return .empty

@[simp] theorem readMap_null {α : Type} (record : Json → Logged (Verdict α)) :
    readMap record .null = pure .empty := rfl

theorem readMap_object {α : Type} (record : Json → Logged (Verdict α))
    (members : List (String × Json)) :
    readMap record (.object members) =
      ⟨.ofList (members.filterMap fun e => (readEntry record e).value),
        members.flatMap fun e => (readEntry record e).trace⟩ := by
  refine Traced.ext ?_ ?_
  · simp only [readMap, Traced.value_bind, Traced.value_each, Traced.value_pure,
      List.filterMap_map]
    rfl
  · simp [readMap]

/-- The pin that an end of a link names, if it is a text. -/
def endOf : Json → Option String
  | .string s => some s
  | _ => none

@[simp] theorem endOf_null : endOf .null = none := rfl

/-- The ends of a link by position, none if they are not listed. -/
def endsOf : Json → List (Option String)
  | .array items => items.map endOf
  | _ => []

@[simp] theorem endsOf_null : endsOf .null = [] := rfl

/-! ## 2. Fields by the kind of their value -/

namespace Field

variable {ρ α : Type}

/-- An id or a key. -/
def ident (name : String) (get : ρ → Option String) (set : ρ → Option String → ρ) : Field ρ where
  name
  read v r := do
    let id ← readId v
    return .ok (set r id)
  write r := (get r).map .string

/-- A map of records. -/
def records (name : String) (record : Json → Logged (Verdict α)) (toJson : α → Json)
    (get : ρ → OrderedMap α) (set : ρ → OrderedMap α → ρ) : Field ρ where
  name
  read v r := do
    let m ← readMap record v
    return .ok (set r m)
  write r := some (.object ((get r).map toJson).entries)

/-- A value that is passed on as it is.  Null stands for its absence when it is read. -/
def payload (name : String) (get : ρ → Option Json) (set : ρ → Option Json → ρ) : Field ρ where
  name
  read v r := return .ok (set r (if v = .null then none else some v))
  write := get

/-- A text with a meaning.  Null stands for its absence, and any other value that is not a
text rejects the record. -/
def tagged (name : String) (ofTag : String → α) (tag : α → String) (get : ρ → Option α)
    (set : ρ → Option α → ρ) : Field ρ where
  name
  read v r := match v with
    | .null => return .ok (set r none)
    | .string s => return .ok (set r (some (ofTag s)))
    | other => return .error (.mismatch other.outline .text)
  write r := (get r).map fun a => .string (tag a)

/-- The ends of a link. -/
def ends (name : String) (get : ρ → List (Option String)) (set : ρ → List (Option String) → ρ) :
    Field ρ where
  name
  read v r := return .ok (set r (endsOf v))
  write r := some (.array ((get r).map Diagnostic.textOrNull))

/-! ## 3. Reading and writing by a table -/

/-- Reads members in document order.  A member that no field is named for goes to `other`. -/
def readMembers (fields : List (Field ρ)) (other : ρ → String × Json → ρ) :
    List (String × Json) → ρ → Logged (Verdict ρ)
  | [], r => return .ok r
  | m :: rest, r =>
    match fields.find? (·.name = m.1) with
    | none => readMembers fields other rest (other r m)
    | some f => do
      match ← f.read m.2 r with
      | .error reason => return .error reason
      | .ok r => readMembers fields other rest r

theorem readMembers_unknown {fields : List (Field ρ)} {other : ρ → String × Json → ρ}
    {m : String × Json} (h : fields.find? (·.name = m.1) = none)
    (rest : List (String × Json)) (r : ρ) :
    readMembers fields other (m :: rest) r = readMembers fields other rest (other r m) := by
  rw [readMembers, h]

theorem readMembers_known {fields : List (Field ρ)} {other : ρ → String × Json → ρ}
    {m : String × Json} {f : Field ρ} (h : fields.find? (·.name = m.1) = some f)
    (rest : List (String × Json)) (r : ρ) :
    readMembers fields other (m :: rest) r = (f.read m.2 r >>= fun
      | .error reason => return .error reason
      | .ok r => readMembers fields other rest r) := by
  rw [readMembers, h]

/-- Reads items in the order of the table.  More items than fields reject the record, which is
an array of so many. -/
def readItems (count : Nat) : List (Field ρ) → List Json → ρ → Logged (Verdict ρ)
  | _, [], r => return .ok r
  | [], _ :: _, _ => return .error (.surplus count)
  | f :: fs, v :: vs, r => do
    match ← f.read v r with
    | .error reason => return .error reason
    | .ok r => readItems count fs vs r

/-- Reads a record in either form into a blank one, ignoring members that it does not have. -/
def readRecord (expected : Expected) (fields : List (Field ρ)) (blank : ρ) :
    Json → Logged (Verdict ρ)
  | .object members => readMembers fields (fun r _ => r) members blank
  | .array items => readItems items.length fields items blank
  | other => return .error (.mismatch other.outline expected)

/-- The members of a record, in the order of the table. -/
def writeMembers (fields : List (Field ρ)) (r : ρ) : List (String × Json) :=
  fields.filterMap fun f => (f.write r).map fun v => (f.name, v)

/-- A record as an object. -/
def writeRecord (fields : List (Field ρ)) (r : ρ) : Json := .object (writeMembers fields r)

end Field
end Patchbay
