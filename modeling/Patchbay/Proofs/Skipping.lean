/-
# Skipping: what can be read can be skipped

A value that nobody asks for is not worked out, only skipped.  That is less strict than reading
it, and so a text that can be read for a value can be skipped instead, with the same text left
behind it.

It is not the same by the same steps.  Reading turns a pair of surrogates into one character and
skipping into two, so it needs a turn more; and reading may open so many containers, skipping as
many as the text has characters.  Both come down to lengths: a reader never leaves more of a text
than it was given, and behind an opening mark there is less.  So the two are compared on texts up
to a bound (`Passes`), and the bound is the number of containers that may be opened.

* `steady_scan`: numerals, where only the fault of a text that ends early is at stake;
* `readsCharacters_skipped`: the characters of a string;
* `passes_series`, `passes_member`: series and members, from their items and values;
* `passes_value`: values.
-/
import Patchbay.Proofs.Derivation

namespace Patchbay
namespace Json

theorem length_skipBlanks_le (cs : List Char) : (skipBlanks cs).length ≤ cs.length :=
  (List.dropWhile_suffix isBlank).length_le

theorem length_lt_of_skipBlanks {c : Char} {cs rest : List Char} (h : skipBlanks cs = c :: rest) :
    rest.length < cs.length := by
  have hle := length_skipBlanks_le cs
  rw [h] at hle
  exact hle

/-! ## 1. Numerals -/

namespace Numeral

/-- What the part of a numeral takes off a text does not depend on the fault that it would have
if the text ended. -/
def Steady {α : Type} (part : Fault → Reader α) : Prop :=
  ∀ early late cs a rest, part early cs = .ok (a, rest) →
    part late cs = .ok (a, rest) ∧ rest.length ≤ cs.length

theorem steady_someDigits : Steady someDigits := by
  intro early late cs ds rest h
  cases cs with
  | nil => exact absurd h (by simp [someDigits])
  | cons c cs =>
    refine ⟨h, ?_⟩
    rw [someDigits] at h
    split at h
    case isTrue =>
      obtain ⟨-, rfl⟩ := Prod.mk.inj (Except.ok.inj h)
      exact (List.dropWhile_suffix Char.isDigit).length_le
    case isFalse => exact absurd h (by simp)

theorem steady_wholePart : Steady wholePart := by
  intro early late cs ds rest h
  obtain ⟨⟨found, cs₁⟩, hfound, h⟩ := bind_eq_ok_iff.mp h
  obtain ⟨hlate, hlength⟩ := steady_someDigits early late cs found cs₁ hfound
  have hwhole : wholePart late cs = .ok (ds, rest) := bind_eq_ok_iff.mpr ⟨_, hlate, h⟩
  refine ⟨hwhole, ?_⟩
  dsimp only at h
  split at h
  case h_1 => exact absurd h (by simp)
  case h_2 =>
    obtain ⟨-, rfl⟩ := Prod.mk.inj (Except.ok.inj h)
    exact hlength

theorem steady_fractionPart : Steady fractionPart := by
  intro early late cs ds rest h
  unfold fractionPart at h ⊢
  split at h
  case h_1 cs =>
    obtain ⟨hlate, hlength⟩ := steady_someDigits early late cs ds rest h
    exact ⟨hlate, Nat.le_succ_of_le hlength⟩
  case h_2 =>
    obtain ⟨-, rfl⟩ := Prod.mk.inj (Except.ok.inj h)
    exact ⟨h, Nat.le_refl _⟩

/-- The sign is taken off before any digit. -/
theorem signedDigits_eq (cs : List Char) : ∃ (sign : Nat → Int) (cs₁ : List Char),
    cs₁.length ≤ cs.length ∧ ∀ early, signedDigits early cs = do
      let ds ← someDigits early cs₁
      return (sign (ofDigits ds.1), ds.2) := by
  unfold signedDigits
  cases cs with
  | nil => exact ⟨fun n => n, [], Nat.le_refl _, fun _ => rfl⟩
  | cons c cs =>
    by_cases hminus : c = '-'
    · subst hminus
      exact ⟨fun n => -n, cs, Nat.le_succ _, fun _ => rfl⟩
    · by_cases hplus : c = '+'
      · subst hplus
        exact ⟨fun n => n, cs, Nat.le_succ _, fun _ => rfl⟩
      · refine ⟨fun n => n, c :: cs, Nat.le_refl _, fun _ => ?_⟩
        simp [hminus, hplus]

theorem steady_signedDigits : Steady signedDigits := by
  intro early late cs n rest h
  obtain ⟨sign, cs₁, hsign, heq⟩ := signedDigits_eq cs
  rw [heq] at h ⊢
  obtain ⟨⟨ds, cs₂⟩, hds, h⟩ := bind_eq_ok_iff.mp h
  obtain ⟨hlate, hlength⟩ := steady_someDigits early late cs₁ ds cs₂ hds
  obtain ⟨-, rfl⟩ := Prod.mk.inj (Except.ok.inj h)
  exact ⟨bind_eq_ok_iff.mpr ⟨_, hlate, h⟩, Nat.le_trans hlength hsign⟩

theorem steady_exponentPart : Steady exponentPart := by
  intro early late cs e rest h
  cases cs with
  | nil =>
    obtain ⟨-, rfl⟩ := Prod.mk.inj (Except.ok.inj h)
    exact ⟨h, Nat.le_refl _⟩
  | cons c cs =>
    rw [exponentPart] at h ⊢
    split at h
    case isTrue hmark =>
      obtain ⟨⟨n, cs₁⟩, hn, h⟩ := bind_eq_ok_iff.mp h
      obtain ⟨hlate, hlength⟩ := steady_signedDigits early late cs n cs₁ hn
      obtain ⟨rfl, rfl⟩ := Prod.mk.inj (Except.ok.inj h)
      rw [if_pos hmark]
      exact ⟨bind_eq_ok_iff.mpr ⟨_, hlate, rfl⟩, Nat.le_succ_of_le hlength⟩
    case isFalse hmark =>
      rw [if_neg hmark]
      obtain ⟨-, rfl⟩ := Prod.mk.inj (Except.ok.inj h)
      exact ⟨h, Nat.le_refl _⟩

/-- The parts of a numeral stand one behind the other, after its sign. -/
theorem scan_eq (cs : List Char) : ∃ (negative : Bool) (cs₁ : List Char),
    cs₁.length ≤ cs.length ∧ ∀ early, scan early cs = do
      let whole ← wholePart early cs₁
      let fraction ← fractionPart early whole.2
      let exponent ← exponentPart early fraction.2
      return (⟨negative, whole.1, fraction.1, exponent.1⟩, exponent.2) := by
  unfold scan
  cases cs with
  | nil => exact ⟨false, [], Nat.le_refl _, fun _ => rfl⟩
  | cons c cs =>
    by_cases hminus : c = '-'
    · subst hminus
      exact ⟨true, cs, Nat.le_succ _, fun _ => rfl⟩
    · refine ⟨false, c :: cs, Nat.le_refl _, fun _ => ?_⟩
      simp [hminus]

theorem steady_scan : Steady scan := by
  intro early late cs numeral rest h
  obtain ⟨negative, cs₀, hsign, heq⟩ := scan_eq cs
  rw [heq] at h ⊢
  obtain ⟨⟨whole, cs₁⟩, hwhole, h⟩ := bind_eq_ok_iff.mp h
  obtain ⟨⟨fraction, cs₂⟩, hfraction, h⟩ := bind_eq_ok_iff.mp h
  obtain ⟨⟨exponent, cs₃⟩, hexponent, h⟩ := bind_eq_ok_iff.mp h
  obtain ⟨hlate₁, hlength₁⟩ := steady_wholePart early late cs₀ whole cs₁ hwhole
  obtain ⟨hlate₂, hlength₂⟩ := steady_fractionPart early late cs₁ fraction cs₂ hfraction
  obtain ⟨hlate₃, hlength₃⟩ := steady_exponentPart early late cs₂ exponent cs₃ hexponent
  obtain rfl : cs₃ = rest := (Prod.mk.inj (Except.ok.inj h)).2
  refine ⟨?_, by omega⟩
  exact bind_eq_ok_iff.mpr ⟨_, hlate₁, bind_eq_ok_iff.mpr ⟨_, hlate₂,
    bind_eq_ok_iff.mpr ⟨_, hlate₃, h⟩⟩⟩

end Numeral

/-! ## 2. Strings -/

theorem length_lt_of_codeUnit {cs rest : List Char} {n : Nat} (h : codeUnit cs = .ok (n, rest)) :
    rest.length < cs.length := by
  unfold codeUnit at h
  split at h
  case h_1 found hfound =>
    obtain rfl := Except.ok.inj h
    unfold fourHex? at hfound
    split at hfound
    case h_1 =>
      simp only [Option.bind_eq_bind, Option.bind_eq_some_iff] at hfound
      obtain ⟨_, -, _, -, _, -, _, -, hfound⟩ := hfound
      obtain ⟨-, rfl⟩ := Prod.mk.inj (Option.some.inj hfound)
      simp only [List.length_cons]
      omega
    case h_2 => exact absurd hfound (by simp)
  case h_2 =>
    split at h
    · exact absurd h (by simp)
    · exact absurd h (by simp)

/-- Behind a numbered escape one number was read, or two that make a pair of surrogates. -/
theorem codeUnits_of_numberedEscape {cs rest : List Char} {c : Char}
    (h : numberedEscape .kept cs = .ok (c, rest)) :
    (∃ n, codeUnit cs = .ok (n, rest)) ∨
      ∃ n low cs₁, codeUnit cs = .ok (n, '\\' :: 'u' :: cs₁) ∧ codeUnit cs₁ = .ok (low, rest) := by
  obtain ⟨⟨n, cs₁⟩, hunit, h⟩ := bind_eq_ok_iff.mp h
  dsimp only at h
  split_ifs at h with hlow hhigh
  · obtain ⟨cs₂, hmark, h⟩ := bind_eq_ok_iff.mp h
    obtain ⟨⟨low, cs₃⟩, hsecond, h⟩ := bind_eq_ok_iff.mp h
    dsimp only at h
    split_ifs at h
    obtain ⟨-, rfl⟩ := Prod.mk.inj (Except.ok.inj h)
    obtain rfl : cs₁ = '\\' :: 'u' :: cs₂ := expect_eq_ok_iff.mp hmark
    exact Or.inr ⟨n, low, cs₂, hunit, hsecond⟩
  · obtain ⟨-, rfl⟩ := Prod.mk.inj (Except.ok.inj h)
    exact Or.inl ⟨n, hunit⟩

/-- Skipping an escape, a number is taken for itself. -/
theorem escapeSequence_of_codeUnit {cs rest : List Char} {n : Nat}
    (h : codeUnit cs = .ok (n, rest)) :
    escapeSequence .skipped ('u' :: cs) = .ok (ofCodeUnit n, rest) :=
  bind_eq_ok_iff.mpr ⟨_, h, rfl⟩

/-- An escape is skipped in one turn, or in two if it is a pair of surrogates. -/
theorem escapeSequence_skipped {cs rest : List Char} {c : Char}
    (h : escapeSequence .kept cs = .ok (c, rest)) :
    rest.length < cs.length ∧
      ((∃ d, escapeSequence .skipped cs = .ok (d, rest)) ∨
        ∃ d e cs₁, cs₁.length + 1 < cs.length ∧
          escapeSequence .skipped cs = .ok (d, '\\' :: cs₁) ∧
          escapeSequence .skipped cs₁ = .ok (e, rest) ∧ rest.length < cs₁.length) := by
  cases cs with
  | nil => exact absurd h (by simp [escapeSequence])
  | cons u cs =>
    by_cases hu : u = 'u'
    · subst hu
      have hnumber : numberedEscape .kept cs = .ok (c, rest) := h
      rcases codeUnits_of_numberedEscape hnumber with
        ⟨n, hunit⟩ | ⟨n, low, cs₁, hunit, hsecond⟩
      · have hlength := length_lt_of_codeUnit hunit
        exact ⟨Nat.lt_succ_of_lt hlength, Or.inl ⟨_, escapeSequence_of_codeUnit hunit⟩⟩
      · have hlength₁ := length_lt_of_codeUnit hunit
        have hlength₂ := length_lt_of_codeUnit hsecond
        simp only [List.length_cons] at hlength₁ ⊢
        exact ⟨by omega, Or.inr ⟨_, _, 'u' :: cs₁, by simp only [List.length_cons]; omega,
          escapeSequence_of_codeUnit hunit, escapeSequence_of_codeUnit hsecond,
          Nat.lt_succ_of_lt hlength₂⟩⟩
    · have hsame : escapeSequence .skipped (u :: cs) = escapeSequence .kept (u :: cs) := by
        simp [escapeSequence, hu]
      refine ⟨?_, Or.inl ⟨c, hsame.trans h⟩⟩
      rw [escapeSequence, if_neg hu] at h
      split at h
      · obtain ⟨-, rfl⟩ := Prod.mk.inj (Except.ok.inj h)
        exact Nat.lt_succ_self _
      · exact absurd h (by simp)

/-- The characters of a string are skipped in as many turns as the text has characters, or
more. -/
theorem readsCharacters_skipped {turns cs s rest : List Char}
    (h : ReadsCharacters .kept rest turns cs s) :
    rest.length < cs.length ∧ ∀ more : List Char, cs.length ≤ more.length →
      ∃ s', ReadsCharacters .skipped rest more cs s' := by
  induction h with
  | quote =>
    refine ⟨Nat.lt_succ_self _, fun more hmore => ?_⟩
    cases more with
    | nil => exact absurd hmore (by simp)
    | cons t more => exact ⟨[], .quote⟩
  | plain hplain _ ih =>
    refine ⟨Nat.lt_succ_of_lt ih.1, fun more hmore => ?_⟩
    cases more with
    | nil => exact absurd hmore (by simp)
    | cons t more =>
      obtain ⟨s', hs'⟩ := ih.2 more (by simpa using hmore)
      exact ⟨_, .plain hplain hs'⟩
  | @escape t c turns cs cs₁ s hescape _ ih =>
    obtain ⟨hlength, hskip⟩ := escapeSequence_skipped hescape
    refine ⟨Nat.lt_succ_of_lt (Nat.lt_trans ih.1 hlength), fun more hmore => ?_⟩
    cases more with
    | nil => exact absurd hmore (by simp)
    | cons t more =>
      have hmore : cs.length ≤ more.length := by simpa using hmore
      rcases hskip with ⟨d, hd⟩ | ⟨d, e, cs₂, hlength₂, hd, he, hlength₁⟩
      · obtain ⟨s', hs'⟩ := ih.2 more (by omega)
        exact ⟨_, .escape hd hs'⟩
      · -- the second half of the pair takes a turn of its own
        cases more with
        | nil => exact absurd hmore (by simp only [List.length_nil]; omega)
        | cons t more =>
          obtain ⟨s', hs'⟩ := ih.2 more (by simp only [List.length_cons] at hmore; omega)
          exact ⟨_, .escape hd (.escape he hs')⟩

/-! ## 3. Values -/

section Passes

variable {α β : Type}

/-- On texts up to the bound, what the first reader takes off the second takes off, too. -/
def Passes (bound : Nat) (keep : Reader α) (skip : Reader β) : Prop :=
  ∀ {cs rest : List Char} {a : α}, cs.length ≤ bound → keep cs = .ok (a, rest) →
    rest.length ≤ cs.length ∧ ∃ b, skip cs = .ok (b, rest)

variable {bound : Nat} {close : Char} {keep : Reader α} {skip : Reader β}

theorem passes_stringBody : Passes bound (stringBody .kept) (stringBody .skipped) := by
  intro cs rest s _ h
  obtain ⟨found, hfound, -⟩ := stringBody_eq_ok_iff.mp h
  obtain ⟨hlength, hskip⟩ := readsCharacters_skipped hfound
  obtain ⟨s', hs'⟩ := hskip cs (Nat.le_refl _)
  exact ⟨Nat.le_of_lt hlength, _, stringBody_eq_ok_iff.mpr ⟨s', hs', rfl⟩⟩

theorem readsFurther_skipped (h : Passes bound keep skip) {turns cs rest : List Char}
    {as : List α} (hread : ReadsFurther close keep rest turns cs as) (hbound : cs.length ≤ bound) :
    rest.length ≤ cs.length ∧ ∃ bs, ReadsFurther close skip rest turns cs bs := by
  induction hread with
  | close hmark =>
    exact ⟨Nat.le_of_lt (length_lt_of_skipBlanks hmark), [], .close hmark⟩
  | comma hclose hmark hitem _ ih =>
    have hbehind := length_lt_of_skipBlanks hmark
    obtain ⟨hlength, b, hb⟩ := h (by omega) hitem
    obtain ⟨hrest, bs, hbs⟩ := ih (by omega)
    exact ⟨by omega, b :: bs, .comma hclose hmark hb hbs⟩

theorem passes_series (h : Passes bound keep skip) :
    Passes bound (series close keep) (series close skip) := by
  intro cs rest as hbound hread
  cases series_eq_ok_iff.mp hread with
  | empty hmark =>
    exact ⟨Nat.le_of_lt (length_lt_of_skipBlanks hmark), [], series_eq_ok_iff.mpr (.empty hmark)⟩
  | items hclose hfirst hitem hmore =>
    have hblanks := length_skipBlanks_le cs
    rw [hfirst] at hblanks
    obtain ⟨hlength, b, hb⟩ := h (by omega) hitem
    obtain ⟨hrest, bs, hbs⟩ := readsFurther_skipped h hmore (by omega)
    exact ⟨by omega, b :: bs, series_eq_ok_iff.mpr (.items hclose hfirst hb hbs)⟩

theorem passes_memberName : Passes bound (memberName .kept) (memberName .skipped) := by
  intro cs rest key hbound h
  obtain ⟨cs₁, hquote, hbody⟩ := memberName_eq_ok_iff.mp h
  have hbehind := length_lt_of_skipBlanks hquote
  obtain ⟨hlength, key', hkey'⟩ := passes_stringBody (Nat.le_refl _) hbody
  exact ⟨by omega, key', memberName_eq_ok_iff.mpr ⟨cs₁, hquote, hkey'⟩⟩

theorem passes_member {keep skip : Reader Json} (h : Passes bound keep skip) :
    Passes bound (member .kept keep) (member .skipped skip) := by
  intro cs rest m hbound hread
  obtain ⟨cs₁, cs₂, hname, hcolon, hvalue⟩ := member_eq_ok_iff.mp hread
  obtain ⟨hlength₁, key, hkey⟩ := passes_memberName hbound hname
  have hbehind := length_lt_of_skipBlanks hcolon
  obtain ⟨hlength₂, v, hv⟩ := h (by omega) hvalue
  exact ⟨by omega, (key, v), member_eq_ok_iff.mpr ⟨cs₁, cs₂, hkey, hcolon, hv⟩⟩

end Passes

/-- A value that is no container is skipped, from its first character on. -/
theorem scalar_skipped {c : Char} {cs rest : List Char} {v : Json}
    (h : scalar .kept c cs = .ok (v, rest)) :
    rest.length ≤ cs.length + 1 ∧ ∃ w, scalar .skipped c cs = .ok (w, rest) := by
  cases scalar_eq_ok_iff.mp h with
  | null hword | true hword | false hword =>
    refine ⟨?_, _, h⟩
    rw [hword, List.length_append]
    omega
  | string hbody =>
    obtain ⟨hlength, s, hs⟩ := passes_stringBody (Nat.le_refl _) hbody
    exact ⟨Nat.le_succ_of_le hlength, _, scalar_eq_ok_iff.mpr (.string hs)⟩
  | number hfirst htoken =>
    obtain ⟨numeral, n, hscan, -, -⟩ := numberToken_kept_eq_ok_iff.mp htoken
    obtain ⟨hskip, hlength⟩ := Numeral.steady_scan .unfinished .malformed _ _ _ hscan
    have hnull := numberToken_skipped_eq_ok_iff.mpr ⟨rfl, numeral, hskip⟩
    exact ⟨hlength, _, scalar_eq_ok_iff.mpr (.number hfirst hnull)⟩

/-- **What can be read can be skipped**, if as many containers may be opened as the text has
characters. -/
theorem passes_value (depth bound : Nat) :
    Passes bound (value .kept depth) (value .skipped bound) := by
  induction depth generalizing bound with
  | zero =>
    intro cs rest v hbound h
    cases value_eq_ok_iff.mp h with
    | scalar hcontainer hfirst hscalar =>
      have hbehind := length_lt_of_skipBlanks hfirst
      obtain ⟨hlength, w, hw⟩ := scalar_skipped hscalar
      exact ⟨by omega, w, value_eq_ok_iff.mpr (.scalar hcontainer hfirst hw)⟩
  | succ depth ih =>
    intro cs rest v hbound h
    cases value_eq_ok_iff.mp h with
    | array hfirst hitems =>
      have hbehind := length_lt_of_skipBlanks hfirst
      obtain ⟨bound, rfl⟩ := Nat.exists_eq_succ_of_ne_zero (show bound ≠ 0 by omega)
      obtain ⟨hlength, items, hskip⟩ := passes_series (ih bound) (by omega) hitems
      exact ⟨by omega, _, value_eq_ok_iff.mpr (.array hfirst hskip)⟩
    | object hfirst hmembers =>
      have hbehind := length_lt_of_skipBlanks hfirst
      obtain ⟨bound, rfl⟩ := Nat.exists_eq_succ_of_ne_zero (show bound ≠ 0 by omega)
      obtain ⟨hlength, members, hskip⟩ :=
        passes_series (passes_member (ih bound)) (by omega) hmembers
      exact ⟨by omega, _, value_eq_ok_iff.mpr (.object hfirst hskip)⟩
    | scalar hcontainer hfirst hscalar =>
      have hbehind := length_lt_of_skipBlanks hfirst
      obtain ⟨hlength, w, hw⟩ := scalar_skipped hscalar
      exact ⟨by omega, w, value_eq_ok_iff.mpr (.scalar hcontainer hfirst hw)⟩

end Json
end Patchbay
