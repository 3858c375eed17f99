/-
# Derivations: how a text was read

A reader is a loop in a loop, and all that is known from its success is an equation.  Here each
reader is opened once.  That it has read something is put as a derivation: one constructor for
each way to go on, with what the parts were read as.  A derivation is made by cases and taken
apart by induction, and no later proof looks at a turn of a loop or at a test on a character
again.

* `furtherItems_eq_ok_iff`, `series_eq_ok_iff`: a series of items, from the reader of one;
* `memberName_eq_ok_iff`, `member_eq_ok_iff`: members of an object, from the reader of a value;
* `characters_eq_ok_iff`, `numberToken_kept_eq_ok_iff`: the insides of strings, and numbers;
* `scalar_eq_ok_iff`, `value_eq_ok_iff`: values.
-/
import Mathlib.Data.List.DropRight
import Mathlib.Tactic.SplitIfs
import Patchbay.Json.Reader

namespace Patchbay
namespace Json

theorem bind_eq_ok_iff {ε α β : Type} {x : Except ε α} {f : α → Except ε β} {b : β} :
    (x >>= f) = .ok b ↔ ∃ a, x = .ok a ∧ f a = .ok b := by
  cases x with
  | error e => simp [bind, Except.bind]
  | ok a => simp [bind, Except.bind]

/-! ## 1. Words and marks -/

theorem expect_eq_ok_iff {rest : List Char} :
    ∀ {word cs : List Char}, expect word cs = .ok rest ↔ cs = word ++ rest
  | [], cs => by simp [expect]
  | w :: ws, [] => by simp [expect]
  | w :: ws, c :: cs => by
    rw [expect]
    split
    case isTrue h =>
      subst h
      simp [expect_eq_ok_iff]
    case isFalse h => simp [Ne.symm h]

theorem expectMark_eq_ok_iff {mark : Char} {cs rest : List Char} :
    expectMark mark cs = .ok rest ↔ skipBlanks cs = mark :: rest :=
  expect_eq_ok_iff

/-- Behind blanks there are no more blanks. -/
theorem skipBlanks_skipBlanks (cs : List Char) : skipBlanks (skipBlanks cs) = skipBlanks cs :=
  List.dropWhile_idempotent isBlank cs

/-! ## 2. Series -/

section Series

variable {α : Type} {close : Char} {item : Reader α} {rest : List Char}

/-- How the items behind the first one are read, turn by turn. -/
inductive ReadsFurther (close : Char) (item : Reader α) (rest : List Char) :
    (turns cs : List Char) → List α → Prop where
  /-- The closing mark comes next. -/
  | close {t : Char} {turns cs : List Char} (hmark : skipBlanks cs = close :: rest) :
    ReadsFurther close item rest (t :: turns) cs []
  /-- A comma comes next, and an item behind it. -/
  | comma {t : Char} {turns cs cs₁ cs₂ : List Char} {a : α} {as : List α} (hclose : ',' ≠ close)
    (hmark : skipBlanks cs = ',' :: cs₁) (hitem : item cs₁ = .ok (a, cs₂))
    (hmore : ReadsFurther close item rest turns cs₂ as) :
    ReadsFurther close item rest (t :: turns) cs (a :: as)

theorem furtherItems_eq_ok_iff {turns cs : List Char} {as : List α} :
    furtherItems close item turns cs = .ok (as, rest) ↔
      ReadsFurther close item rest turns cs as := by
  induction turns generalizing cs as with
  | nil => exact ⟨fun h => absurd h (by simp [furtherItems]), fun h => nomatch h⟩
  | cons t turns ih =>
    constructor
    · intro h
      rw [furtherItems] at h
      split at h
      case h_1 => exact absurd h (by simp)
      case h_2 c cs₁ hmark =>
        split_ifs at h with hclose hcomma
        · obtain ⟨rfl, rfl⟩ := Prod.mk.inj (Except.ok.inj h)
          exact .close (hclose ▸ hmark)
        · obtain ⟨⟨a, cs₂⟩, hitem, h⟩ := bind_eq_ok_iff.mp h
          obtain ⟨⟨more, cs₃⟩, hmore, h⟩ := bind_eq_ok_iff.mp h
          obtain ⟨rfl, rfl⟩ := Prod.mk.inj (Except.ok.inj h)
          subst hcomma
          exact .comma hclose hmark hitem (ih.mp hmore)
    · intro h
      cases h with
      | close hmark => simp [furtherItems, hmark]
      | comma hclose hmark hitem hmore =>
        simp [furtherItems, hmark, hclose, hitem, ih.mpr hmore, bind, Except.bind]
        rfl

/-- How a series is read. -/
inductive ReadsSeries (close : Char) (item : Reader α) (rest : List Char) :
    (cs : List Char) → List α → Prop where
  /-- The closing mark comes at once. -/
  | empty {cs : List Char} (hmark : skipBlanks cs = close :: rest) :
    ReadsSeries close item rest cs []
  /-- An item comes first. -/
  | items {c : Char} {cs cs₁ cs₂ : List Char} {a : α} {as : List α} (hclose : c ≠ close)
    (hfirst : skipBlanks cs = c :: cs₁) (hitem : item (c :: cs₁) = .ok (a, cs₂))
    (hmore : ReadsFurther close item rest cs₂ cs₂ as) : ReadsSeries close item rest cs (a :: as)

theorem series_eq_ok_iff {cs : List Char} {as : List α} :
    series close item cs = .ok (as, rest) ↔ ReadsSeries close item rest cs as := by
  constructor
  · intro h
    unfold series at h
    split at h
    case h_1 => exact absurd h (by simp)
    case h_2 c cs₁ hfirst =>
      split_ifs at h with hclose
      · obtain ⟨rfl, rfl⟩ := Prod.mk.inj (Except.ok.inj h)
        exact .empty (hclose ▸ hfirst)
      · obtain ⟨⟨a, cs₂⟩, hitem, h⟩ := bind_eq_ok_iff.mp h
        obtain ⟨⟨more, cs₃⟩, hmore, h⟩ := bind_eq_ok_iff.mp h
        obtain ⟨rfl, rfl⟩ := Prod.mk.inj (Except.ok.inj h)
        exact .items hclose hfirst hitem (furtherItems_eq_ok_iff.mp hmore)
  · intro h
    cases h with
    | empty hmark => simp [series, hmark]
    | items hclose hfirst hitem hmore =>
      have hmore := furtherItems_eq_ok_iff.mpr hmore
      simp [series, hfirst, hclose, hitem, hmore, bind, Except.bind]
      rfl

end Series

/-- A name stands in quotes. -/
theorem memberName_eq_ok_iff {care : Care} {cs rest : List Char} {key : String} :
    memberName care cs = .ok (key, rest) ↔
      ∃ cs₁, skipBlanks cs = '"' :: cs₁ ∧ stringBody care cs₁ = .ok (key, rest) := by
  unfold memberName
  rw [bind_eq_ok_iff]
  simp only [expectMark_eq_ok_iff]

/-- A member is a name, a colon and a value. -/
theorem member_eq_ok_iff {care : Care} {item : Reader Json} {cs rest : List Char}
    {m : String × Json} :
    member care item cs = .ok (m, rest) ↔ ∃ cs₁ cs₂, memberName care cs = .ok (m.1, cs₁) ∧
      skipBlanks cs₁ = ':' :: cs₂ ∧ item cs₂ = .ok (m.2, rest) := by
  constructor
  · intro h
    obtain ⟨⟨key, cs₁⟩, hname, h⟩ := bind_eq_ok_iff.mp h
    obtain ⟨cs₂, hcolon, h⟩ := bind_eq_ok_iff.mp h
    obtain ⟨⟨v, cs₃⟩, hvalue, h⟩ := bind_eq_ok_iff.mp h
    obtain ⟨rfl, rfl⟩ := Prod.mk.inj (Except.ok.inj h)
    exact ⟨cs₁, cs₂, hname, expectMark_eq_ok_iff.mp hcolon, hvalue⟩
  · rintro ⟨cs₁, cs₂, hname, hcolon, hvalue⟩
    have hcolon := expectMark_eq_ok_iff.mpr hcolon
    simp [member, hname, hcolon, hvalue, bind, Except.bind]
    rfl

theorem member_skipBlanks (care : Care) (item : Reader Json) (cs : List Char) :
    member care item (skipBlanks cs) = member care item cs := by
  simp only [member, memberName, expectMark, skipBlanks_skipBlanks]

/-! ## 3. Strings and numbers -/

/-- How the characters of a string are read, turn by turn. -/
inductive ReadsCharacters (care : Care) (rest : List Char) :
    (turns cs : List Char) → List Char → Prop where
  | quote {t : Char} {turns : List Char} : ReadsCharacters care rest (t :: turns) ('"' :: rest) []
  | escape {t c : Char} {turns cs cs₁ s : List Char}
    (hescape : escapeSequence care cs = .ok (c, cs₁))
    (hmore : ReadsCharacters care rest turns cs₁ s) :
    ReadsCharacters care rest (t :: turns) ('\\' :: cs) (c :: s)
  | plain {t c : Char} {turns cs s : List Char}
    (hplain : c ≠ '"' ∧ c ≠ '\\' ∧ ¬ c.toNat < 0x20)
    (hmore : ReadsCharacters care rest turns cs s) :
    ReadsCharacters care rest (t :: turns) (c :: cs) (c :: s)

theorem characters_eq_ok_iff {care : Care} {rest turns cs s : List Char} :
    characters care turns cs = .ok (s, rest) ↔ ReadsCharacters care rest turns cs s := by
  induction turns generalizing cs s with
  | nil => exact ⟨fun h => absurd h (by simp [characters]), fun h => nomatch h⟩
  | cons t turns ih =>
    constructor
    · intro h
      cases cs with
      | nil => exact absurd h (by simp [characters])
      | cons c cs =>
        rw [characters] at h
        split_ifs at h with hquote hbackslash hcontrol
        · obtain ⟨rfl, rfl⟩ := Prod.mk.inj (Except.ok.inj h)
          exact hquote ▸ .quote
        · obtain ⟨⟨d, cs₁⟩, hescape, h⟩ := bind_eq_ok_iff.mp h
          obtain ⟨⟨more, cs₂⟩, hmore, h⟩ := bind_eq_ok_iff.mp h
          obtain ⟨rfl, rfl⟩ := Prod.mk.inj (Except.ok.inj h)
          exact hbackslash ▸ .escape hescape (ih.mp hmore)
        · obtain ⟨⟨more, cs₂⟩, hmore, h⟩ := bind_eq_ok_iff.mp h
          obtain ⟨rfl, rfl⟩ := Prod.mk.inj (Except.ok.inj h)
          exact .plain ⟨hquote, hbackslash, hcontrol⟩ (ih.mp hmore)
    · intro h
      cases h with
      | quote => rfl
      | escape hescape hmore =>
        simp [characters, hescape, ih.mpr hmore, bind, Except.bind]
        rfl
      | plain hplain hmore =>
        simp only [characters, hplain, if_false, ih.mpr hmore, bind, Except.bind]
        rfl

theorem stringBody_eq_ok_iff {care : Care} {cs rest : List Char} {s : String} :
    stringBody care cs = .ok (s, rest) ↔
      ∃ found, ReadsCharacters care rest cs cs found ∧ s = String.ofList found := by
  unfold stringBody
  rw [bind_eq_ok_iff]
  constructor
  · rintro ⟨⟨found, cs₁⟩, hfound, h⟩
    obtain ⟨rfl, rfl⟩ := Prod.mk.inj (Except.ok.inj h)
    exact ⟨found, characters_eq_ok_iff.mp hfound, rfl⟩
  · rintro ⟨found, hfound, rfl⟩
    exact ⟨(found, rest), characters_eq_ok_iff.mpr hfound, rfl⟩

/-- A number that is kept is worked out. -/
theorem numberToken_kept_eq_ok_iff {cs rest : List Char} {v : Json} :
    numberToken .kept cs = .ok (v, rest) ↔ ∃ numeral n,
      Numeral.scan .unfinished cs = .ok (numeral, rest) ∧ numeral.value? = some n ∧
        v = number n := by
  unfold numberToken
  simp only [bind_eq_ok_iff]
  constructor
  · rintro ⟨⟨numeral, cs₁⟩, hscan, h⟩
    dsimp only at h
    split at h
    case h_1 n hvalue =>
      obtain ⟨rfl, rfl⟩ := Prod.mk.inj (Except.ok.inj h)
      exact ⟨numeral, n, hscan, hvalue, rfl⟩
    case h_2 => exact absurd h (by simp)
  · rintro ⟨numeral, n, hscan, hvalue, rfl⟩
    refine ⟨(numeral, rest), hscan, ?_⟩
    simp only [hvalue]
    rfl

/-- A number that is skipped leaves null behind. -/
theorem numberToken_skipped_eq_ok_iff {cs rest : List Char} {v : Json} :
    numberToken .skipped cs = .ok (v, rest) ↔
      v = null ∧ ∃ numeral, Numeral.scan .malformed cs = .ok (numeral, rest) := by
  unfold numberToken
  simp only [bind_eq_ok_iff]
  constructor
  · rintro ⟨⟨numeral, cs₁⟩, hscan, h⟩
    obtain ⟨rfl, rfl⟩ := Prod.mk.inj (Except.ok.inj h)
    exact ⟨rfl, numeral, hscan⟩
  · rintro ⟨rfl, numeral, hscan⟩
    exact ⟨(numeral, rest), hscan, rfl⟩

/-! ## 4. Values -/

/-- How a value that is no container is read, from its first character on. -/
inductive ReadsScalar (care : Care) (rest : List Char) : Char → List Char → Json → Prop where
  | null {cs : List Char} (hword : cs = ['u', 'l', 'l'] ++ rest) :
    ReadsScalar care rest 'n' cs null
  | true {cs : List Char} (hword : cs = ['r', 'u', 'e'] ++ rest) :
    ReadsScalar care rest 't' cs (bool true)
  | false {cs : List Char} (hword : cs = ['a', 'l', 's', 'e'] ++ rest) :
    ReadsScalar care rest 'f' cs (bool false)
  | string {cs : List Char} {s : String} (hbody : stringBody care cs = .ok (s, rest)) :
    ReadsScalar care rest '"' cs (string s)
  | number {c : Char} {cs : List Char} {v : Json} (hfirst : c = '-' ∨ c.isDigit)
    (htoken : numberToken care (c :: cs) = .ok (v, rest)) : ReadsScalar care rest c cs v

/-- A character that a numeral starts with starts nothing else. -/
theorem ne_of_numeral {c d : Char} (h : c = '-' ∨ c.isDigit) (hd : d ≠ '-' ∧ d.isDigit = false) :
    c ≠ d := by
  rintro rfl
  rcases h with h | h
  · exact hd.1 h
  · exact absurd h (by simp [hd.2])

theorem scalar_of_numeral {care : Care} {c : Char} (h : c = '-' ∨ c.isDigit) (cs : List Char) :
    scalar care c cs = numberToken care (c :: cs) := by
  rw [scalar, if_neg (ne_of_numeral h (by decide)), if_neg (ne_of_numeral h (by decide)),
    if_neg (ne_of_numeral h (by decide)), if_neg (ne_of_numeral h (by decide)), if_pos h]

theorem word_eq_ok_iff {fixed cs rest : List Char} {v w : Json} :
    word fixed w cs = .ok (v, rest) ↔ w = v ∧ cs = fixed ++ rest := by
  unfold word
  rw [bind_eq_ok_iff]
  constructor
  · rintro ⟨cs₁, hword, h⟩
    obtain ⟨rfl, rfl⟩ := Prod.mk.inj (Except.ok.inj h)
    exact ⟨rfl, expect_eq_ok_iff.mp hword⟩
  · rintro ⟨rfl, hword⟩
    exact ⟨rest, expect_eq_ok_iff.mpr hword, rfl⟩

theorem scalar_eq_ok_iff {care : Care} {c : Char} {cs rest : List Char} {v : Json} :
    scalar care c cs = .ok (v, rest) ↔ ReadsScalar care rest c cs v := by
  constructor
  · intro h
    unfold scalar at h
    split_ifs at h with hnull htrue hfalse hstring hnumber
    · obtain ⟨rfl, hword⟩ := word_eq_ok_iff.mp h
      exact hnull ▸ .null hword
    · obtain ⟨rfl, hword⟩ := word_eq_ok_iff.mp h
      exact htrue ▸ .true hword
    · obtain ⟨rfl, hword⟩ := word_eq_ok_iff.mp h
      exact hfalse ▸ .false hword
    · obtain ⟨⟨s, cs₁⟩, hbody, h⟩ := bind_eq_ok_iff.mp h
      obtain ⟨rfl, rfl⟩ := Prod.mk.inj (Except.ok.inj h)
      exact hstring ▸ .string hbody
    · exact .number hnumber h
  · intro h
    cases h with
    | null hword => exact word_eq_ok_iff.mpr ⟨rfl, hword⟩
    | true hword => exact word_eq_ok_iff.mpr ⟨rfl, hword⟩
    | false hword => exact word_eq_ok_iff.mpr ⟨rfl, hword⟩
    | string hbody => exact bind_eq_ok_iff.mpr ⟨_, hbody, rfl⟩
    | number hfirst htoken => rw [scalar_of_numeral hfirst, htoken]

/-- How a value is read. -/
inductive ReadsValue (care : Care) (rest : List Char) :
    (depth : Nat) → (cs : List Char) → Json → Prop where
  | array {depth : Nat} {cs cs₁ : List Char} {items : List Json}
    (hfirst : skipBlanks cs = '[' :: cs₁)
    (hitems : series ']' (value care depth) cs₁ = .ok (items, rest)) :
    ReadsValue care rest (depth + 1) cs (array items)
  | object {depth : Nat} {cs cs₁ : List Char} {members : List (String × Json)}
    (hfirst : skipBlanks cs = '{' :: cs₁)
    (hmembers : series '}' (member care (value care depth)) cs₁ = .ok (members, rest)) :
    ReadsValue care rest (depth + 1) cs (object members)
  | scalar {depth : Nat} {c : Char} {cs cs₁ : List Char} {v : Json}
    (hcontainer : c ≠ '[' ∧ c ≠ '{') (hfirst : skipBlanks cs = c :: cs₁)
    (hscalar : scalar care c cs₁ = .ok (v, rest)) : ReadsValue care rest depth cs v

theorem value_eq_ok_iff {care : Care} {depth : Nat} {cs rest : List Char} {v : Json} :
    value care depth cs = .ok (v, rest) ↔ ReadsValue care rest depth cs v := by
  constructor
  · intro h
    cases depth with
    | zero =>
      rw [value] at h
      split at h
      case h_1 => exact absurd h (by simp)
      case h_2 c cs₁ hfirst =>
        split_ifs at h with hcontainer
        exact .scalar (not_or.mp hcontainer) hfirst h
    | succ depth =>
      rw [value] at h
      split at h
      case h_1 => exact absurd h (by simp)
      case h_2 c cs₁ hfirst =>
        split_ifs at h with harray hobject
        · obtain ⟨⟨items, cs₂⟩, hitems, h⟩ := bind_eq_ok_iff.mp h
          obtain ⟨rfl, rfl⟩ := Prod.mk.inj (Except.ok.inj h)
          exact .array (harray ▸ hfirst) hitems
        · obtain ⟨⟨members, cs₂⟩, hmembers, h⟩ := bind_eq_ok_iff.mp h
          obtain ⟨rfl, rfl⟩ := Prod.mk.inj (Except.ok.inj h)
          exact .object (hobject ▸ hfirst) hmembers
        · exact .scalar ⟨harray, hobject⟩ hfirst h
  · intro h
    cases h with
    | array hfirst hitems => simp [value, hfirst, hitems, bind, Except.bind]; rfl
    | object hfirst hmembers => simp [value, hfirst, hmembers, bind, Except.bind]; rfl
    | scalar hcontainer hfirst hscalar => cases depth <;> simp [value, hfirst, hcontainer, hscalar]

theorem value_skipBlanks (care : Care) (depth : Nat) (cs : List Char) :
    value care depth (skipBlanks cs) = value care depth cs := by
  cases depth <;> simp only [value, skipBlanks_skipBlanks]

end Json
end Patchbay
