/-
# Tokens: strings and whole numbers are read as they were written

The smallest parts of a text come back one by one.  A string is read character by character:
whatever the writer puts for a character, one turn of the reader takes off and gives the
character for.  A whole number is read digit by digit, up to the first character that is no
digit; so it comes back only if the text behind it does not go on as a numeral
(`Numeral.Stops`).

* `characters_escape`, `characters_flatMap_escape`: one character and all characters of a
  string;
* `memberName_quoted`, `scalar_string`: a string where a name or a value is read;
* `ofDigits_decimal`, `someDigits_decimal`, `wholePart_decimal`: the digits of a natural number;
* `scan_intText`, `value?_ofInt`: the numeral of a whole number, and its value.
-/
import Mathlib.Data.List.Basic
import Patchbay.Json.Reader
import Patchbay.Json.Writer

namespace Patchbay
namespace Json

/-! ## 1. Strings -/

theorem hexValue?_hexDigit : ∀ n < 16, hexValue? (hexDigit n) = some n := by decide

/-- A code unit below 256 comes back from the two digits that the writer gives it. -/
theorem codeUnit_hexDigits {n : Nat} (h : n < 256) (rest : List Char) :
    codeUnit ('0' :: '0' :: hexDigit (n / 16) :: hexDigit (n % 16) :: rest) = .ok (n, rest) := by
  have hzero : hexValue? '0' = some 0 := by decide
  have hhigh : hexValue? (hexDigit (n / 16)) = some (n / 16) :=
    hexValue?_hexDigit (n / 16) (by omega)
  have hlow : hexValue? (hexDigit (n % 16)) = some (n % 16) :=
    hexValue?_hexDigit (n % 16) (by omega)
  have hnumber : ((0 * 16 + 0) * 16 + n / 16) * 16 + n % 16 = n := by omega
  unfold codeUnit fourHex?
  simp only [hzero, hhigh, hlow, Option.bind_eq_bind, Option.bind_some, hnumber]
  rfl

/-- An escape by number stands for its character, if that is no surrogate. -/
theorem escapeSequence_number {c : Char} (h : c.toNat < 0x20) (rest : List Char) :
    escapeSequence .kept
      ('u' :: '0' :: '0' :: hexDigit (c.toNat / 16) :: hexDigit (c.toNat % 16) :: rest) =
        .ok (c, rest) := by
  have hlow : isLowSurrogate c.toNat = false := by
    simp only [isLowSurrogate, Bool.and_eq_false_iff, decide_eq_false_iff_not]
    omega
  have hhigh : isHighSurrogate c.toNat = false := by
    simp only [isHighSurrogate, Bool.and_eq_false_iff, decide_eq_false_iff_not]
    omega
  have hread : numberedEscape .kept
      ('0' :: '0' :: hexDigit (c.toNat / 16) :: hexDigit (c.toNat % 16) :: rest) =
        .ok (Char.ofNat c.toNat, rest) := by
    unfold numberedEscape
    rw [codeUnit_hexDigits (by omega)]
    simp [bind, Except.bind, hlow, hhigh]
    rfl
  rw [escapeSequence, if_pos rfl, hread, Char.ofNat_toNat]

/-- Behind its backslash, an escape gives the character that it stands for. -/
theorem characters_backslash {c : Char} {cs cs' turns : List Char} {t : Char}
    (h : escapeSequence .kept cs = .ok (c, cs')) :
    characters .kept (t :: turns) ('\\' :: cs) = (do
      let (more, rest) ← characters .kept turns cs'
      return (c :: more, rest)) := by
  rw [characters, if_neg (by decide), if_pos rfl, h]
  rfl

/-- **One turn takes off what is written for one character.** -/
theorem characters_escape (c t : Char) (turns cs : List Char) :
    characters .kept (t :: turns) (escape c ++ cs) = (do
      let (more, rest) ← characters .kept turns cs
      return (c :: more, rest)) := by
  unfold escape
  -- the seven short escapes, the escapes by number, and the characters for themselves
  split_ifs with hquote hbackslash hb hf hn hr ht hcontrol
  · subst hquote; exact characters_backslash rfl
  · subst hbackslash; exact characters_backslash rfl
  · subst hb; exact characters_backslash rfl
  · subst hf; exact characters_backslash rfl
  · subst hn; exact characters_backslash rfl
  · subst hr; exact characters_backslash rfl
  · subst ht; exact characters_backslash rfl
  · exact characters_backslash (escapeSequence_number hcontrol cs)
  · rw [List.cons_append, List.nil_append, characters, if_neg hquote, if_neg hbackslash,
      if_neg hcontrol]

theorem characters_flatMap_escape (rest : List Char) : ∀ (s turns : List Char),
    s.length < turns.length →
      characters .kept turns (s.flatMap escape ++ '"' :: rest) = .ok (s, rest)
  | _, [], h => absurd h (by simp)
  | [], _ :: _, _ => rfl
  | c :: s, t :: turns, h => by
    have ih := characters_flatMap_escape rest s turns (by simpa using h)
    rw [List.flatMap_cons, List.append_assoc, characters_escape, ih]
    rfl

/-- What is written in no empty pieces has a character for each of them. -/
theorem length_le_length_flatMap {α : Type} {write : α → List Char} (h : ∀ x, write x ≠ [])
    (xs : List α) : xs.length ≤ (xs.flatMap write).length := by
  induction xs with
  | nil => simp
  | cons x xs ih =>
    have hx := List.length_pos_of_ne_nil (h x)
    rw [List.flatMap_cons, List.length_append, List.length_cons]
    omega

theorem escape_ne_nil (c : Char) : escape c ≠ [] := by
  unfold escape
  split_ifs <;> simp

/-- A string is read back behind its opening quote. -/
theorem stringBody_escape (s : String) (rest : List Char) :
    stringBody .kept (s.toList.flatMap escape ++ '"' :: rest) = .ok (s, rest) := by
  have hturns : s.toList.length < (s.toList.flatMap escape ++ '"' :: rest).length := by
    have h := length_le_length_flatMap escape_ne_nil s.toList
    simp only [List.length_append, List.length_cons]
    omega
  unfold stringBody
  rw [characters_flatMap_escape rest _ _ hturns]
  show Except.ok (String.ofList s.toList, rest) = _
  rw [String.ofList_toList]

theorem quoted_append (s : String) (rest : List Char) :
    quoted s ++ rest = '"' :: (s.toList.flatMap escape ++ '"' :: rest) := by
  simp [quoted]

theorem memberName_quoted (s : String) (rest : List Char) :
    memberName .kept (quoted s ++ rest) = .ok (s, rest) := by
  rw [quoted_append, memberName, expectMark, skipBlanks_cons (by decide)]
  exact stringBody_escape s rest

theorem scalar_string (s : String) (rest : List Char) :
    scalar .kept '"' (s.toList.flatMap escape ++ '"' :: rest) = .ok (string s, rest) := by
  rw [scalar, if_neg (by decide), if_neg (by decide), if_neg (by decide), if_pos rfl,
    stringBody_escape]
  rfl

/-! ## 2. The digits of a natural number -/

namespace Numeral

/-- The text does not go on as a numeral. -/
def Stops (rest : List Char) : Prop :=
  ∀ c ∈ rest.head?, c.isDigit = false ∧ c ≠ '.' ∧ c ≠ 'e' ∧ c ≠ 'E'

instance : (rest : List Char) → Decidable (Stops rest)
  | [] => isTrue fun _ h => absurd h (Option.not_mem_none _)
  | c :: _ => decidable_of_iff (c.isDigit = false ∧ c ≠ '.' ∧ c ≠ 'e' ∧ c ≠ 'E') (by simp [Stops])

/-- The digits of a natural number as they are read. -/
def decimal (n : Nat) : List Nat := (Nat.toDigits 10 n).map digitValue

theorem ofDigits_decimal (n : Nat) : ofDigits (decimal n) = n := by
  have hdigits : ofDigits (decimal n) = Nat.ofDigitChars 10 (Nat.toDigits 10 n) 0 := by
    simp only [ofDigits, decimal, List.foldl_map, Nat.ofDigitChars, digitValue,
      Nat.mul_comm 10]
  rw [hdigits, Nat.ofDigitChars_toDigits (by decide) (by decide)]

theorem takeDigits_toDigits {rest : List Char} (h : Stops rest) (n : Nat) :
    takeDigits (Nat.toDigits 10 n ++ rest) = (decimal n, rest) := by
  have hdigits : ∀ c ∈ Nat.toDigits 10 n, c.isDigit = true := fun c hc =>
    Nat.isDigit_of_mem_toDigits (by decide) (by decide) hc
  have hrest : rest.takeWhile Char.isDigit = [] ∧ rest.dropWhile Char.isDigit = rest := by
    cases rest with
    | nil => exact ⟨rfl, rfl⟩
    | cons c cs => simp [(h c rfl).1]
  rw [takeDigits, List.takeWhile_append_of_pos hdigits, List.dropWhile_append_of_pos hdigits,
    hrest.1, hrest.2, List.append_nil, decimal]

/-- A number above zero starts with another digit than zero. -/
theorem head?_toDigits_ne {n : Nat} (h : 0 < n) : (Nat.toDigits 10 n).head? ≠ some '0' := by
  induction n using Nat.strongRecOn with
  | ind n ih =>
    by_cases hsmall : n < 10
    · rw [Nat.toDigits_of_lt_base hsmall]
      have hdigit : ∀ m < 10, 0 < m → m.digitChar ≠ '0' := by decide
      simpa using hdigit n hsmall h
    · rw [Nat.toDigits_of_base_le (by decide) (by omega),
        List.head?_append_of_ne_nil _ Nat.toDigits_ne_nil]
      exact ih (n / 10) (by omega) (by omega)

/-- The first digit of a numeral, and what follows it. -/
theorem toDigits_eq_cons (n : Nat) : ∃ c cs, Nat.toDigits 10 n = c :: cs ∧ c.isDigit = true ∧
    (c = '0' → cs = []) := by
  obtain ⟨c, cs, hcs⟩ := List.exists_cons_of_ne_nil (Nat.toDigits_ne_nil (n := n) (b := 10))
  refine ⟨c, cs, hcs, Nat.isDigit_of_mem_toDigits (by decide) (by decide)
    (hcs ▸ List.mem_cons_self), fun hc => ?_⟩
  rcases Nat.eq_zero_or_pos n with rfl | hn
  · rw [Nat.toDigits_of_lt_base (by decide)] at hcs
    exact (List.cons.inj hcs).2.symm
  · exact absurd (by rw [hcs, hc]; rfl) (head?_toDigits_ne hn)

theorem someDigits_decimal {rest : List Char} (h : Stops rest) (early : Fault) (n : Nat) :
    someDigits early (Nat.toDigits 10 n ++ rest) = .ok (decimal n, rest) := by
  obtain ⟨c, cs, hcs, hdigit, -⟩ := toDigits_eq_cons n
  have htake := takeDigits_toDigits h n
  rw [hcs, List.cons_append] at htake ⊢
  rw [someDigits, if_pos hdigit, htake]

theorem wholePart_decimal {rest : List Char} (h : Stops rest) (early : Fault) (n : Nat) :
    wholePart early (Nat.toDigits 10 n ++ rest) = .ok (decimal n, rest) := by
  unfold wholePart
  rw [someDigits_decimal h]
  -- a zero in front is the only digit, so the numeral is not refused
  obtain ⟨c, cs, hcs, hdigit, hzero⟩ := toDigits_eq_cons n
  have hdecimal : decimal n = digitValue c :: cs.map digitValue := by rw [decimal, hcs]; rfl
  have hvalue : digitValue c = 0 → c = '0' := by
    intro hc
    have hbounds : 48 ≤ c.toNat := by
      simp only [Char.isDigit, Bool.and_eq_true, decide_eq_true_eq] at hdigit
      exact hdigit.1
    exact Char.toNat_inj.mp (Nat.le_antisymm (Nat.sub_eq_zero_iff_le.mp hc) hbounds)
  simp only [bind, Except.bind]
  split
  case h_1 d ds hd =>
    rw [hdecimal] at hd
    obtain ⟨hfirst, hrest⟩ := List.cons.inj hd
    rw [hzero (hvalue hfirst)] at hrest
    exact absurd hrest (by simp)
  case h_2 => rfl

/-! ## 3. Whole numbers -/

/-- The numeral of a whole number. -/
def ofInt (n : Int) : Numeral :=
  { negative := decide (n < 0), whole := decimal n.natAbs, fraction := [], exponent := none }

/-- The parts of a numeral behind its whole digits are absent where the text stops. -/
theorem fractionPart_of_stops {rest : List Char} (h : Stops rest) (early : Fault) :
    fractionPart early rest = .ok ([], rest) := by
  unfold fractionPart
  split
  case h_1 cs => exact absurd rfl (h '.' rfl).2.1
  case h_2 => rfl

theorem exponentPart_of_stops {rest : List Char} (h : Stops rest) (early : Fault) :
    exponentPart early rest = .ok (none, rest) := by
  cases rest with
  | nil => rfl
  | cons c cs =>
    have hc := h c rfl
    rw [exponentPart, if_neg (by simp [hc])]

theorem scan_toDigits {rest : List Char} (h : Stops rest) (negative : Bool) (n : Nat) :
    scan .unfinished ((if negative then ['-'] else []) ++ (Nat.toDigits 10 n ++ rest)) =
      .ok ({ negative, whole := decimal n, fraction := [], exponent := none }, rest) := by
  have hwhole := wholePart_decimal h .unfinished n
  cases negative with
  | true =>
    show (wholePart .unfinished (Nat.toDigits 10 n ++ rest) >>= _) = _
    rw [hwhole]
    simp [bind, Except.bind, fractionPart_of_stops h, exponentPart_of_stops h]
    rfl
  | false =>
    obtain ⟨c, cs, hcs, hdigit, -⟩ := toDigits_eq_cons n
    have hsign : c ≠ '-' := by
      rintro rfl
      exact absurd hdigit (by decide)
    rw [hcs, List.cons_append] at hwhole
    rw [hcs, List.cons_append]
    unfold scan
    simp [hsign, hwhole, bind, Except.bind, fractionPart_of_stops h, exponentPart_of_stops h]
    rfl

/-- The text of a whole number is scanned as its numeral. -/
theorem scan_intText {rest : List Char} (h : Stops rest) (n : Int) :
    scan .unfinished (intText n ++ rest) = .ok (ofInt n, rest) := by
  have hscan := scan_toDigits h (decide (n < 0)) n.natAbs
  have htext : intText n ++ rest =
      (if decide (n < 0) then ['-'] else []) ++ (Nat.toDigits 10 n.natAbs ++ rest) := by
    unfold intText
    by_cases hn : n < 0 <;> simp [hn]
  rw [htext]
  exact hscan

theorem le_foldl_digits (ds : List Nat) (s : Nat) :
    s ≤ ds.foldl (fun n d => n * 10 + d) s := by
  induction ds generalizing s with
  | nil => exact Nat.le_refl s
  | cons d ds ih =>
    have hnext := ih (s * 10 + d)
    rw [List.foldl_cons]
    omega

/-- Digits of a number with room for all of them are taken in to the last. -/
theorem absorb_of_lt {ds : List Nat} :
    ∀ {s : Nat}, ds.foldl (fun n d => n * 10 + d) s < 18446744073709551616 →
      absorb s ds = (ds.foldl (fun n d => n * 10 + d) s, []) := by
  induction ds with
  | nil => intro s _; rfl
  | cons d ds ih =>
    intro s h
    rw [List.foldl_cons] at h ⊢
    have hroom : s * 10 + d < 18446744073709551616 :=
      Nat.lt_of_le_of_lt (le_foldl_digits ds _) h
    rw [absorb, if_pos hroom, ih h]

theorem absorb_decimal {n : Nat} (h : n < 18446744073709551616) :
    absorb 0 (decimal n) = (n, []) := by
  have hvalue : (decimal n).foldl (fun n d => n * 10 + d) 0 = n := ofDigits_decimal n
  rw [absorb_of_lt (by rw [hvalue]; exact h), hvalue]

/-- A whole number of 64 bits is the value of its numeral. -/
theorem value?_ofInt {n : Int} (fits : -9223372036854775808 ≤ n ∧ n < 18446744073709551616) :
    (ofInt n).value? = some (.int n fits) := by
  have hvalue : (ofInt n).value? = wholeNumber (decide (n < 0)) n.natAbs := by
    have habsorb : absorb 0 (decimal n.natAbs) = (n.natAbs, []) := absorb_decimal (by omega)
    simp only [value?, ofInt, habsorb, and_self, if_true]
  rw [hvalue, wholeNumber]
  by_cases hn : n < 0
  · have hmagnitude : 0 < n.natAbs ∧ n.natAbs ≤ 9223372036854775808 := by omega
    have hsame : -(n.natAbs : Int) = n := by omega
    rw [if_pos (decide_eq_true hn), dif_pos hmagnitude]
    simp only [hsame]
  · have hmagnitude : n.natAbs < 18446744073709551616 := by omega
    have hsame : (n.natAbs : Int) = n := by omega
    rw [if_neg (by simpa using hn), dif_pos hmagnitude]
    simp only [hsame]

end Numeral

theorem numberToken_intText {rest : List Char} (h : Numeral.Stops rest) {n : Int}
    (fits : -9223372036854775808 ≤ n ∧ n < 18446744073709551616) :
    numberToken .kept (intText n ++ rest) = .ok (number (.int n fits), rest) := by
  unfold numberToken
  simp only [Numeral.scan_intText h, bind, Except.bind, Numeral.value?_ofInt fits]
  rfl

end Json
end Patchbay
