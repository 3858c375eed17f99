/-
# Rereading: a value is read back from its text

What the writer makes of a value, the reader makes the value of again, whatever text follows.
Two values are exempt.  A double is written as a decimal that need not be the one it was read
from, so nothing is said here of a tree with doubles in it (`DoubleFree`).  And a tree that is
nested too deep is refused.

A reader *takes off* a written item when it reads the item and stops where its text ends
(`TakesOff`).  Arrays and objects are both series of items with commas between them, so the
loop is dealt with once, for any items that their reader takes off:

* `furtherItems_flatMap`, `series_seriesText`: a series, from its items;
* `text_array`, `text_object`: both containers are such series;
* `value_text`: every value that is not too deep, by recursion on the depth;
* `read?_compact`: a whole text.
-/
import Patchbay.Proofs.Nesting
import Patchbay.Proofs.Tokens

namespace Patchbay
namespace Json

/-! ## 1. Trees without doubles -/

mutual
/-- No number of the tree is a double. -/
def DoubleFree : Json → Prop
  | number (.double _) => False
  | array items => DoubleFreeItems items
  | object members => DoubleFreeMembers members
  | null | bool _ | number (.int _ _) | string _ => True

/-- No item has a double in it. -/
def DoubleFreeItems : List Json → Prop
  | [] => True
  | v :: vs => DoubleFree v ∧ DoubleFreeItems vs

/-- No member's value has a double in it. -/
def DoubleFreeMembers : List (String × Json) → Prop
  | [] => True
  | (_, v) :: rest => DoubleFree v ∧ DoubleFreeMembers rest
end

theorem doubleFree_array_iff {items : List Json} :
    (array items).DoubleFree ↔ ∀ v ∈ items, v.DoubleFree := by
  rw [DoubleFree]
  induction items with
  | nil => simp [DoubleFreeItems]
  | cons v vs ih => simp [DoubleFreeItems, ih]

theorem doubleFree_object_iff {members : List (String × Json)} :
    (object members).DoubleFree ↔ ∀ m ∈ members, m.2.DoubleFree := by
  rw [DoubleFree]
  induction members with
  | nil => simp [DoubleFreeMembers]
  | cons m rest ih => simp [DoubleFreeMembers, ih]

/-! ## 2. Series -/

section Series

variable {α : Type}

/-- The reader takes off what is written for `x`, unless the text behind it goes on as a
numeral. -/
def TakesOff (item : Reader α) (write : α → List Char) (x : α) : Prop :=
  ∀ rest, Numeral.Stops rest → item (write x ++ rest) = .ok (x, rest)

/-- What is written for `x` starts with a character that is neither a blank nor the closing
mark. -/
def Starts (close : Char) (write : α → List Char) (x : α) : Prop :=
  ∃ c cs, write x = c :: cs ∧ isBlank c = false ∧ c ≠ close

/-- The items of a series with commas between them, up to the closing mark. -/
def seriesText (close : Char) (write : α → List Char) : List α → List Char
  | [] => [close]
  | x :: xs => write x ++ xs.flatMap (fun y => ',' :: write y) ++ [close]

variable {close : Char} {item : Reader α} {write : α → List Char}

/-- Where the text of a series goes on behind an item, it does not go on as a numeral. -/
theorem stops_flatMap (write : α → List Char) (hclose : Numeral.Stops [close]) (xs : List α)
    (rest : List Char) : Numeral.Stops (xs.flatMap (fun y => ',' :: write y) ++ close :: rest) := by
  cases xs with
  | nil =>
    intro c hc
    exact hclose c hc
  | cons x xs =>
    intro c hc
    obtain rfl : ',' = c := Option.some.inj hc
    decide

theorem furtherItems_flatMap (hclose : Numeral.Stops [close]) (hblank : isBlank close = false)
    (hcomma : ',' ≠ close) (rest : List Char) : ∀ (xs : List α) (turns : List Char),
      (∀ x ∈ xs, TakesOff item write x) → xs.length < turns.length →
        furtherItems close item turns (xs.flatMap (fun y => ',' :: write y) ++ close :: rest) =
          .ok (xs, rest)
  | _, [], _, hturns => absurd hturns (by simp)
  | [], _ :: _, _, _ => by
    rw [List.flatMap_nil, List.nil_append, furtherItems, skipBlanks_cons hblank]
    exact if_pos rfl
  | x :: xs, t :: turns, hitems, hturns => by
    have ih := furtherItems_flatMap hclose hblank hcomma rest xs turns
      (fun y hy => hitems y (List.mem_cons_of_mem _ hy)) (by simpa using hturns)
    have hx := hitems x List.mem_cons_self _ (stops_flatMap write hclose xs rest)
    rw [List.flatMap_cons, List.cons_append, List.cons_append, List.append_assoc, furtherItems,
      skipBlanks_cons (by decide)]
    simp only [hcomma, if_false, if_true, hx, bind, Except.bind, ih]
    rfl

/-- **A series is read back if its items are.** -/
theorem series_seriesText (hclose : Numeral.Stops [close]) (hblank : isBlank close = false)
    (hcomma : ',' ≠ close) {xs : List α} (hitems : ∀ x ∈ xs, TakesOff item write x)
    (hstarts : ∀ x ∈ xs, Starts close write x) (rest : List Char) :
    series close item (seriesText close write xs ++ rest) = .ok (xs, rest) := by
  cases xs with
  | nil =>
    rw [seriesText, List.singleton_append, series, skipBlanks_cons hblank]
    exact if_pos rfl
  | cons x xs =>
    obtain ⟨c, cs, hcs, hc, hne⟩ := hstarts x List.mem_cons_self
    -- behind the first item there are enough characters for a turn per further item
    have hturns : xs.length < (xs.flatMap (fun y => ',' :: write y) ++ close :: rest).length := by
      have hlength := length_le_length_flatMap (fun y => List.cons_ne_nil ',' (write y)) xs
      simp only [List.length_append, List.length_cons]
      omega
    have hfirst := hitems x List.mem_cons_self _ (stops_flatMap write hclose xs rest)
    have hmore := furtherItems_flatMap hclose hblank hcomma rest xs _
      (fun y hy => hitems y (List.mem_cons_of_mem _ hy)) hturns
    rw [hcs, List.cons_append] at hfirst
    rw [seriesText, List.append_assoc, List.append_assoc, List.singleton_append, hcs,
      List.cons_append, series, skipBlanks_cons hc]
    simp only [hne, if_false, hfirst, bind, Except.bind, hmore]
    rfl

end Series

/-! ## 3. Containers as series -/

/-- A member as it is written. -/
def memberText (m : String × Json) : List Char := quoted m.1 ++ ':' :: text m.2

theorem textItems_eq (vs : List Json) :
    textItems vs = vs.flatMap (fun v => ',' :: text v) ++ [']'] := by
  induction vs with
  | nil => rfl
  | cons v vs ih => simp [textItems, ih]

theorem textMembers_eq (ms : List (String × Json)) :
    textMembers ms = ms.flatMap (fun m => ',' :: memberText m) ++ ['}'] := by
  induction ms with
  | nil => rfl
  | cons m ms ih => simp [textMembers, ih, memberText]

theorem text_array (vs : List Json) : text (array vs) = '[' :: seriesText ']' text vs := by
  cases vs with
  | nil => rfl
  | cons v vs => simp [text, seriesText, textItems_eq]

theorem text_object (ms : List (String × Json)) :
    text (object ms) = '{' :: seriesText '}' memberText ms := by
  cases ms with
  | nil => rfl
  | cons m ms => simp [text, seriesText, textMembers_eq, memberText]

/-! ## 4. Values -/

theorem intText_eq_cons (n : Int) : ∃ c cs, intText n = c :: cs ∧ (c = '-' ∨ c.isDigit) := by
  unfold intText
  split
  case isTrue => exact ⟨'-', _, rfl, Or.inl rfl⟩
  case isFalse =>
    obtain ⟨c, cs, hcs, hdigit, -⟩ := Numeral.toDigits_eq_cons n.natAbs
    exact ⟨c, cs, hcs, Or.inr hdigit⟩

theorem starts_text {v : Json} (h : v.DoubleFree) : Starts ']' text v := by
  match v, h with
  | null, _ | bool true, _ | bool false, _ | string _, _ =>
    exact ⟨_, _, rfl, by decide, by decide⟩
  | array vs, _ => exact ⟨_, _, text_array vs, by decide, by decide⟩
  | object ms, _ => exact ⟨_, _, text_object ms, by decide, by decide⟩
  | number (.int n _), _ =>
    obtain ⟨c, cs, hcs, hc⟩ := intText_eq_cons n
    refine ⟨c, cs, hcs, ?_, ne_of_numeral hc (by decide)⟩
    simp only [isBlank, Bool.or_eq_false_iff, decide_eq_false_iff_not]
    exact ⟨⟨⟨ne_of_numeral hc (by decide), ne_of_numeral hc (by decide)⟩,
      ne_of_numeral hc (by decide)⟩, ne_of_numeral hc (by decide)⟩

theorem starts_memberText (m : String × Json) : Starts '}' memberText m :=
  ⟨_, _, rfl, by decide, by decide⟩

/-- A value that starts with the mark of no container is read as a scalar at any depth. -/
theorem value_eq_scalar {care : Care} {c : Char} (hblank : isBlank c = false) (harray : c ≠ '[')
    (hobject : c ≠ '{') (d : Nat) (rest : List Char) :
    value care d (c :: rest) = scalar care c rest := by
  cases d with
  | zero => simp [value, skipBlanks_cons hblank, harray, hobject]
  | succ d => simp [value, skipBlanks_cons hblank, harray, hobject]

theorem scalar_intText {n : Int}
    (fits : -9223372036854775808 ≤ n ∧ n < 18446744073709551616) {c : Char}
    {cs rest : List Char} (hcs : intText n = c :: cs) (hc : c = '-' ∨ c.isDigit)
    (h : Numeral.Stops rest) :
    scalar .kept c (cs ++ rest) = .ok (number (.int n fits), rest) := by
  have hread := numberToken_intText h fits
  rw [hcs, List.cons_append] at hread
  rw [scalar_of_numeral hc, hread]

theorem takesOff_member {item : Reader Json} {m : String × Json}
    (h : TakesOff item text m.2) : TakesOff (member .kept item) memberText m := by
  intro rest hrest
  have hv := h rest hrest
  have hcolon : expectMark ':' (':' :: (text m.2 ++ rest)) = .ok (text m.2 ++ rest) := by
    rw [expectMark, skipBlanks_cons (by decide)]
    rfl
  rw [memberText, List.append_assoc, List.cons_append]
  simp only [member, memberName_quoted, bind, Except.bind, hcolon, hv]
  rfl

theorem takesOff_scalar (d : Nat) {v : Json} (hfree : v.DoubleFree) (hdepth : v.depth = 0) :
    TakesOff (value .kept d) text v := by
  intro rest hrest
  match v, hfree with
  | null, _ | bool true, _ | bool false, _ =>
    exact value_eq_scalar (by decide) (by decide) (by decide) d _
  | string s, _ =>
    rw [text, quoted_append, value_eq_scalar (by decide) (by decide) (by decide)]
    exact scalar_string s rest
  | number (.int n fits), _ =>
    obtain ⟨c, cs, hcs, hc⟩ := intText_eq_cons n
    obtain ⟨c', cs', hcs', hblank, -⟩ := starts_text (v := number (.int n fits)) trivial
    obtain ⟨rfl, rfl⟩ := List.cons.inj (hcs.symm.trans hcs')
    show value .kept d (intText n ++ rest) = _
    rw [hcs, List.cons_append, value_eq_scalar hblank (ne_of_numeral hc (by decide))
      (ne_of_numeral hc (by decide)), scalar_intText fits hcs hc hrest]
  | array _, _ | object _, _ => exact absurd hdepth (Nat.succ_ne_zero _)

/-- **A value is read back from its text**, if as many containers may be opened as it is
deep. -/
theorem value_text (d : Nat) : ∀ v : Json, v.DoubleFree → v.depth ≤ d →
    TakesOff (value .kept d) text v := by
  induction d with
  | zero => exact fun v hfree hdepth => takesOff_scalar 0 hfree (Nat.le_zero.mp hdepth)
  | succ d ih =>
    intro v hfree hdepth
    cases v with
    | array vs =>
      have hfrees := doubleFree_array_iff.mp hfree
      have hdepths := depth_array_le_iff.mp hdepth
      intro rest _
      have hread : series ']' (value .kept d) (seriesText ']' text vs ++ rest) = .ok (vs, rest) :=
        series_seriesText (by decide) (by decide) (by decide)
          (fun w hw => ih w (hfrees w hw) (hdepths w hw)) (fun w hw => starts_text (hfrees w hw))
          rest
      rw [text_array, List.cons_append, value, skipBlanks_cons (by decide)]
      simp only [if_true, hread, bind, Except.bind]
      rfl
    | object ms =>
      have hfrees := doubleFree_object_iff.mp hfree
      have hdepths := depth_object_le_iff.mp hdepth
      intro rest _
      have hread : series '}' (member .kept (value .kept d)) (seriesText '}' memberText ms ++ rest) =
          .ok (ms, rest) :=
        series_seriesText (by decide) (by decide) (by decide)
          (fun m hm => takesOff_member (ih m.2 (hfrees m hm) (hdepths m hm)))
          (fun m _ => starts_memberText m) rest
      rw [text_object, List.cons_append, value, skipBlanks_cons (by decide)]
      simp only [hread, bind, Except.bind]
      rfl
    | null | bool _ | number _ | string _ => exact takesOff_scalar (d + 1) hfree rfl

/-- **A whole text gives back the value that it was made of.** -/
theorem read?_compact {v : Json} (hv : v.WellFormed) (hfree : v.DoubleFree)
    (hdepth : v.depth ≤ deepest) : read? v.compact = .ok v := by
  have hread := value_text deepest v hfree hdepth [] (by decide)
  rw [List.append_nil] at hread
  have htree : readTree? v.compact = .ok v := by
    rw [readTree?, compact, String.toList_ofList, hread]
    rfl
  rw [read?, htree]
  show Except.ok v.normalize = _
  rw [normalize_of_wellFormed hv]

end Json
end Patchbay
