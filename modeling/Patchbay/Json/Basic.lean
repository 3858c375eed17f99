/-
# JSON values

The tree of a JSON document.  Members of an object stand in document order, and a tree that
was just read may name a member twice; `normalize` settles that at every depth, the last
value staying at the first position, and `WellFormed` says that nothing is left to settle.

A number is a whole number of 64 bits, signed or unsigned, or a finite double.  The bounds
are part of the type, so every value has a text that reads back as itself.

* `normalize_of_wellFormed`: a settled tree is unchanged;
* `wellFormed_normalize`: settling settles.
-/
import Patchbay.Double
import Patchbay.OrderedMap

namespace Patchbay

/-! ## 1. Numbers and values -/

/-- A number of a document. -/
inductive Number where
  /-- A whole number that fits 64 bits, with or without a sign: at least `-2 ^ 63` and less
  than `2 ^ 64`. -/
  | int (value : Int) (fits : -9223372036854775808 ≤ value ∧ value < 18446744073709551616)
  /-- Any other number in range. -/
  | double (value : Double)
  deriving DecidableEq, Repr

/-- A JSON value. -/
inductive Json where
  | null
  | bool (value : Bool)
  | number (value : Number)
  | string (value : String)
  | array (items : List Json)
  | object (members : List (String × Json))
  deriving Repr

namespace Json

instance : Inhabited Json := ⟨null⟩

/-! ## 2. Equality is decidable -/

mutual
/-- Decides whether two values are equal. -/
def decEq : (a b : Json) → Decidable (a = b)
  | null, null => isTrue rfl
  | bool a, bool b => decidable_of_iff (a = b) (by simp)
  | number a, number b => decidable_of_iff (a = b) (by simp)
  | string a, string b => decidable_of_iff (a = b) (by simp)
  | array a, array b => match decEqItems a b with
    | isTrue h => isTrue (by rw [h])
    | isFalse h => isFalse (by simpa using h)
  | object a, object b => match decEqMembers a b with
    | isTrue h => isTrue (by rw [h])
    | isFalse h => isFalse (by simpa using h)
  | null, bool _ | null, number _ | null, string _ | null, array _ | null, object _
  | bool _, null | bool _, number _ | bool _, string _ | bool _, array _ | bool _, object _
  | number _, null | number _, bool _ | number _, string _ | number _, array _
  | number _, object _ | string _, null | string _, bool _ | string _, number _
  | string _, array _ | string _, object _ | array _, null | array _, bool _
  | array _, number _ | array _, string _ | array _, object _ | object _, null
  | object _, bool _ | object _, number _ | object _, string _ | object _, array _ =>
    isFalse (by simp)

/-- Decides whether two lists of values are equal. -/
def decEqItems : (as bs : List Json) → Decidable (as = bs)
  | [], [] => isTrue rfl
  | [], _ :: _ | _ :: _, [] => isFalse (by simp)
  | a :: as, b :: bs => match decEq a b, decEqItems as bs with
    | isTrue h, isTrue hs => isTrue (by rw [h, hs])
    | isFalse h, _ => isFalse (by simp [h])
    | _, isFalse hs => isFalse (by simp [hs])

/-- Decides whether two lists of members are equal. -/
def decEqMembers : (as bs : List (String × Json)) → Decidable (as = bs)
  | [], [] => isTrue rfl
  | [], _ :: _ | _ :: _, [] => isFalse (by simp)
  | (k, a) :: as, (l, b) :: bs =>
    if hk : k = l then
      match decEq a b, decEqMembers as bs with
      | isTrue h, isTrue hs => isTrue (by rw [hk, h, hs])
      | isFalse h, _ => isFalse (by simp [h])
      | _, isFalse hs => isFalse (by simp [hs])
    else isFalse (by simp [hk])
end

instance : DecidableEq Json := decEq

/-! ## 3. Kinds -/

/-- The kind of a value. -/
inductive Kind where
  | null | boolean | number | string | array | object
  deriving DecidableEq, Repr

/-- The kind in a sentence. -/
def Kind.phrase : Kind → String
  | .null => "null"
  | .boolean => "a boolean"
  | .number => "a number"
  | .string => "a string"
  | .array => "an array"
  | .object => "an object"

/-- The kind of a value. -/
def kind : Json → Kind
  | null => .null
  | bool _ => .boolean
  | number _ => .number
  | string _ => .string
  | array _ => .array
  | object _ => .object

/-- As much of a value as a remark tells: a container by its kind, anything else in full. -/
inductive Outline where
  | null
  | bool (value : Bool)
  | number (value : Number)
  | string (value : String)
  | array
  | object
  deriving DecidableEq, Repr

/-- What a remark tells of a value. -/
def outline : Json → Outline
  | null => .null
  | bool b => .bool b
  | number n => .number n
  | string s => .string s
  | array _ => .array
  | object _ => .object

/-! ## 4. Repeated members -/

mutual
/-- Every repeated member written once, at every depth: its last value at its first
position. -/
def normalize : Json → Json
  | array items => array (normalizeItems items)
  | object members => object (Entries.placeAll [] (normalizeMembers members))
  | null => null
  | bool b => bool b
  | number n => number n
  | string s => string s

/-- `normalize` on every item. -/
def normalizeItems : List Json → List Json
  | [] => []
  | v :: vs => normalize v :: normalizeItems vs

/-- `normalize` on every member's value. -/
def normalizeMembers : List (String × Json) → List (String × Json)
  | [] => []
  | (k, v) :: rest => (k, normalize v) :: normalizeMembers rest
end

mutual
/-- No object of the tree names a member twice. -/
def WellFormed : Json → Prop
  | array items => WellFormedItems items
  | object members => (Entries.keys members).Nodup ∧ WellFormedMembers members
  | null | bool _ | number _ | string _ => True

/-- Every item is well formed. -/
def WellFormedItems : List Json → Prop
  | [] => True
  | v :: vs => WellFormed v ∧ WellFormedItems vs

/-- Every member's value is well formed. -/
def WellFormedMembers : List (String × Json) → Prop
  | [] => True
  | (_, v) :: rest => WellFormed v ∧ WellFormedMembers rest
end

mutual
theorem normalize_of_wellFormed : ∀ {v : Json}, WellFormed v → normalize v = v
  | null, _ | bool _, _ | number _, _ | string _, _ => rfl
  | array _, h => by rw [normalize, normalizeItems_of_wellFormed h]
  | object _, h => by
    rw [normalize, normalizeMembers_of_wellFormed h.2,
      Entries.placeAll_of_nodup (by simpa using h.1), List.nil_append]

theorem normalizeItems_of_wellFormed :
    ∀ {vs : List Json}, WellFormedItems vs → normalizeItems vs = vs
  | [], _ => rfl
  | _ :: _, h => by
    rw [normalizeItems, normalize_of_wellFormed h.1, normalizeItems_of_wellFormed h.2]

theorem normalizeMembers_of_wellFormed :
    ∀ {ms : List (String × Json)}, WellFormedMembers ms → normalizeMembers ms = ms
  | [], _ => rfl
  | (_, _) :: _, h => by
    rw [normalizeMembers, normalize_of_wellFormed h.1, normalizeMembers_of_wellFormed h.2]
end

theorem wellFormedMembers_place {key : String} {v : Json} (hv : WellFormed v) :
    ∀ {ms : List (String × Json)}, WellFormedMembers ms →
      WellFormedMembers (Entries.place key v ms)
  | [], _ => ⟨hv, trivial⟩
  | (k, w) :: rest, h => by
    rw [Entries.place]
    split
    · exact ⟨hv, h.2⟩
    · exact ⟨h.1, wellFormedMembers_place hv h.2⟩

theorem wellFormedMembers_placeAll {incoming : List (String × Json)} :
    ∀ {target : List (String × Json)}, WellFormedMembers target → WellFormedMembers incoming →
      WellFormedMembers (Entries.placeAll target incoming) := by
  induction incoming with
  | nil => intro _ h _; exact h
  | cons e rest ih => intro _ h hi; exact ih (wellFormedMembers_place hi.1 h) hi.2

mutual
theorem wellFormed_normalize : ∀ v : Json, WellFormed (normalize v)
  | null | bool _ | number _ | string _ => trivial
  | array items => wellFormedItems_normalize items
  | object members =>
    ⟨Entries.nodup_keys_placeAll List.nodup_nil,
      wellFormedMembers_placeAll trivial (wellFormedMembers_normalize members)⟩

theorem wellFormedItems_normalize : ∀ vs : List Json, WellFormedItems (normalizeItems vs)
  | [] => trivial
  | v :: vs => ⟨wellFormed_normalize v, wellFormedItems_normalize vs⟩

theorem wellFormedMembers_normalize :
    ∀ ms : List (String × Json), WellFormedMembers (normalizeMembers ms)
  | [] => trivial
  | (_, v) :: rest => ⟨wellFormed_normalize v, wellFormedMembers_normalize rest⟩
end

end Json
end Patchbay
