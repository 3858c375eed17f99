/-
# Reading a JSON text

`Json.read?` reads a whole text.  It goes from left to right and stops at the first fault,
which is `unfinished` if the text ends there and `malformed` otherwise.  Blanks are the space,
the tab and the two line ends.  Containers may be nested 127 deep, and only an escaped pair of
surrogates stands for a character above the basic plane.

A stretch of text whose value nobody wants is read with the care `skipped`: it has to follow
the grammar of JSON, but nothing is made of it.  So a lone surrogate, a number out of range or
a deep nesting is let pass there, and a numeral that the end of the text cuts off counts as
malformed.

`value` recurses on the number of containers that may still be opened.  A loop inside it
recurses on the text that is left when the loop starts: each turn takes a character at least,
so the text has a turn for everything that it holds.

* `expect_append`: a word is taken off a text that starts with it;
* `skipBlanks_cons`: a text that starts with no blank is left alone.
-/
import Patchbay.Json.Numeral

namespace Patchbay
namespace Json

/-- Whether the value of a stretch of text is wanted. -/
inductive Care where
  | kept
  | skipped
  deriving DecidableEq, Repr

/-! ## 1. Blanks and fixed words -/

/-- The characters that may stand between the parts of a text. -/
def isBlank (c : Char) : Bool := c = ' ' || c = '\t' || c = '\n' || c = '\r'

/-- The text behind the blanks at its front. -/
def skipBlanks (cs : List Char) : List Char := cs.dropWhile isBlank

/-- Takes a fixed word off the front of a text. -/
def expect : (word : List Char) → List Char → Except Fault (List Char)
  | [], cs => .ok cs
  | _ :: _, [] => .error .unfinished
  | w :: ws, c :: cs => if w = c then expect ws cs else .error .malformed

theorem skipBlanks_cons {c : Char} (h : isBlank c = false) (cs : List Char) :
    skipBlanks (c :: cs) = c :: cs := by
  simp [skipBlanks, h]

theorem expect_append : ∀ word rest : List Char, expect word (word ++ rest) = .ok rest
  | [], _ => rfl
  | w :: ws, rest => by simp [expect, expect_append ws rest]

/-- Takes one character off the front of a text, behind blanks. -/
def expectMark (mark : Char) (cs : List Char) : Except Fault (List Char) :=
  expect [mark] (skipBlanks cs)

/-! ## 2. Strings -/

/-- The value of a hexadecimal digit. -/
def hexValue? (c : Char) : Option Nat :=
  if c.isDigit then some (c.toNat - '0'.toNat)
  else if 'a' ≤ c ∧ c ≤ 'f' then some (c.toNat - 'a'.toNat + 10)
  else if 'A' ≤ c ∧ c ≤ 'F' then some (c.toNat - 'A'.toNat + 10)
  else none

/-- The number that four hexadecimal digits stand for. -/
def fourHex? : List Char → Option (Nat × List Char)
  | a :: b :: c :: d :: rest => do
    let a ← hexValue? a
    let b ← hexValue? b
    let c ← hexValue? c
    let d ← hexValue? d
    return (((a * 16 + b) * 16 + c) * 16 + d, rest)
  | _ => none

/-- Four hexadecimal digits.  A text is too short for them if fewer than four bytes are left
of it. -/
def codeUnit (cs : List Char) : Except Fault (Nat × List Char) :=
  match fourHex? cs with
  | some found => .ok found
  | none =>
    if (String.ofList (cs.take 4)).utf8ByteSize < 4 then .error .unfinished else .error .malformed

/-- The first half of a surrogate pair. -/
def isHighSurrogate (n : Nat) : Bool := 0xD800 ≤ n && n ≤ 0xDBFF

/-- The second half of a surrogate pair. -/
def isLowSurrogate (n : Nat) : Bool := 0xDC00 ≤ n && n ≤ 0xDFFF

/-- The character of a surrogate pair. -/
def ofSurrogates (high low : Nat) : Char :=
  Char.ofNat (0x10000 + (high - 0xD800) * 0x400 + (low - 0xDC00))

/-- The character of a code unit; a surrogate that is only skipped stands for none, and the
replacement character fills its place. -/
def ofCodeUnit (n : Nat) : Char :=
  if isHighSurrogate n || isLowSurrogate n then '\ufffd' else Char.ofNat n

/-- The second half of a pair whose first half has been read. -/
def lowSurrogate (high : Nat) (cs : List Char) : Except Fault (Char × List Char) := do
  let cs ← expect ['\\', 'u'] cs
  let (low, rest) ← codeUnit cs
  if isLowSurrogate low then return (ofSurrogates high low, rest) else .error .malformed

/-- An escape by number, behind its `u`. -/
def numberedEscape (care : Care) (cs : List Char) : Except Fault (Char × List Char) := do
  let (n, rest) ← codeUnit cs
  match care with
  | .skipped => return (ofCodeUnit n, rest)
  | .kept =>
    if isLowSurrogate n then .error .malformed
    else if isHighSurrogate n then lowSurrogate n rest
    else return (Char.ofNat n, rest)

/-- The character that a short escape stands for. -/
def shortEscape? : Char → Option Char
  | '"' => some '"'
  | '\\' => some '\\'
  | '/' => some '/'
  | 'b' => some '\x08'
  | 'f' => some '\x0c'
  | 'n' => some '\n'
  | 'r' => some '\r'
  | 't' => some '\t'
  | _ => none

/-- An escape behind its backslash. -/
def escapeSequence (care : Care) : Reader Char
  | [] => .error .unfinished
  | c :: rest =>
    if c = 'u' then numberedEscape care rest
    else match shortEscape? c with
      | some plain => .ok (plain, rest)
      | none => .error .malformed

/-- The characters of a string up to its closing quote, in one turn each. -/
def characters (care : Care) : (turns : List Char) → Reader (List Char)
  | [], _ => .error .unfinished
  | _ :: turns, cs => match cs with
    | [] => .error .unfinished
    | c :: rest =>
      if c = '"' then .ok ([], rest)
      else if c = '\\' then do
        let (plain, rest) ← escapeSequence care rest
        let (more, rest) ← characters care turns rest
        return (plain :: more, rest)
      else if c.toNat < 0x20 then .error .malformed
      else do
        let (more, rest) ← characters care turns rest
        return (c :: more, rest)

/-- A string behind its opening quote. -/
def stringBody (care : Care) (cs : List Char) : Except Fault (String × List Char) := do
  let (found, rest) ← characters care cs cs
  return (String.ofList found, rest)

/-! ## 3. Numbers -/

/-- A number.  One that is skipped is not worked out. -/
def numberToken (care : Care) (cs : List Char) : Except Fault (Json × List Char) :=
  match care with
  | .skipped => do
    let (_, rest) ← Numeral.scan .malformed cs
    return (null, rest)
  | .kept => do
    let (numeral, rest) ← Numeral.scan .unfinished cs
    match numeral.value? with
    | some n => return (number n, rest)
    | none => .error .malformed

/-! ## 4. Arrays and objects -/

/-- The items of a series behind its first one, in one turn each. -/
def furtherItems {α : Type} (close : Char) (item : Reader α) :
    (turns : List Char) → Reader (List α)
  | [], _ => .error .unfinished
  | _ :: turns, cs => match skipBlanks cs with
    | [] => .error .unfinished
    | c :: rest =>
      if c = close then .ok ([], rest)
      else if c = ',' then do
        let (first, rest) ← item rest
        let (more, rest) ← furtherItems close item turns rest
        return (first :: more, rest)
      else .error .malformed

/-- A series of items with commas between them, up to its closing mark. -/
def series {α : Type} (close : Char) (item : Reader α) (cs : List Char) :
    Except Fault (List α × List Char) :=
  match skipBlanks cs with
  | [] => .error .unfinished
  | c :: rest =>
    if c = close then .ok ([], rest)
    else do
      let (first, rest) ← item (c :: rest)
      let (more, rest) ← furtherItems close item rest rest
      return (first :: more, rest)

/-- The name of a member, in quotes behind blanks. -/
def memberName (care : Care) (cs : List Char) : Except Fault (String × List Char) := do
  let cs ← expectMark '"' cs
  stringBody care cs

/-- A member: a name, a colon and a value. -/
def member (care : Care) (value : Reader Json) (cs : List Char) :
    Except Fault ((String × Json) × List Char) := do
  let (key, cs) ← memberName care cs
  let cs ← expectMark ':' cs
  let (v, cs) ← value cs
  return ((key, v), cs)

/-! ## 5. Values -/

/-- A fixed word that stands for a value. -/
def word (rest : List Char) (v : Json) (cs : List Char) : Except Fault (Json × List Char) := do
  let cs ← expect rest cs
  return (v, cs)

/-- A value that is no container, whose first character is `c`. -/
def scalar (care : Care) (c : Char) (rest : List Char) : Except Fault (Json × List Char) :=
  if c = 'n' then word ['u', 'l', 'l'] null rest
  else if c = 't' then word ['r', 'u', 'e'] (bool true) rest
  else if c = 'f' then word ['a', 'l', 's', 'e'] (bool false) rest
  else if c = '"' then do
    let (s, rest) ← stringBody care rest
    return (string s, rest)
  else if c = '-' ∨ c.isDigit then numberToken care (c :: rest)
  else .error .malformed

/-- A value with at most `depth` containers open at once. -/
def value (care : Care) : (depth : Nat) → Reader Json
  | 0, cs => match skipBlanks cs with
    | [] => .error .unfinished
    | c :: rest => if c = '[' ∨ c = '{' then .error .malformed else scalar care c rest
  | depth + 1, cs => match skipBlanks cs with
    | [] => .error .unfinished
    | c :: rest =>
      if c = '[' then do
        let (items, rest) ← series ']' (value care depth) rest
        return (array items, rest)
      else if c = '{' then do
        let (members, rest) ← series '}' (member care (value care depth)) rest
        return (object members, rest)
      else scalar care c rest

/-- How deep the containers of a text may be nested. -/
def deepest : Nat := 127

/-- Nothing but blanks. -/
def finish (cs : List Char) : Except Fault Unit :=
  if skipBlanks cs = [] then .ok () else .error .malformed

/-- The tree of a whole text, repeated members included. -/
def readTree? (text : String) : Except Fault Json := do
  let (v, rest) ← value .kept deepest text.toList
  finish rest
  return v

example : readTree? " " = .error .unfinished := by cbv
example : readTree? "\x7b\"a\":tru" = .error .unfinished := by cbv
example : readTree? "\x7b\"a\":trux\x7d" = .error .malformed := by cbv
example : readTree? "\x7b\"a\":1,\x7d" = .error .malformed := by cbv
example : readTree? "\"\\u12" = .error .unfinished := by cbv
example : readTree? "[\"\\ud83d\\ude00\"] " = .ok (array [string "😀"]) := by cbv
example : readTree? "\"\\ud83d\"" = .error .malformed := by cbv

/-- The value of a whole text: of a repeated member the last value, at the first position. -/
def read? (text : String) : Except Fault Json := do
  return (← readTree? text).normalize

end Json
end Patchbay
