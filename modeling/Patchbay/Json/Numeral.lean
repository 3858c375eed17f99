/-
# Numerals of a JSON text

A numeral is read in two steps.  `Numeral.scan` takes the longest numeral off the front of a
text and keeps its digits; `Numeral.value?` says which number they stand for:

* without fraction and exponent, a whole number if it fits 64 bits with or without a sign,
  except that negative zero is a double;
* otherwise a double.  Its significand takes digits in while it stays below `2 ^ 64`.  Whole
  digits that find no room count into the exponent; fraction digits are tried again one by
  one, and those behind the first that finds no room are dropped.

A numeral too large for a double stands for no number; one too small is zero.
-/
import Patchbay.Json.Basic

namespace Patchbay
namespace Json

/-! ## 1. Faults -/

/-- What can be wrong with a text that is read as JSON. -/
inductive Fault where
  /-- It ends where more was needed. -/
  | unfinished
  /-- It goes on with something that has no place there. -/
  | malformed
  deriving DecidableEq, Repr

/-- Takes something off the front of a text and gives the rest. -/
abbrev Reader (α : Type) := List Char → Except Fault (α × List Char)

/-! ## 2. Digits -/

/-- The value of a decimal digit. -/
def digitValue (c : Char) : Nat := c.toNat - '0'.toNat

/-- The decimal digits at the front of a text, and the rest. -/
def takeDigits (cs : List Char) : List Nat × List Char :=
  ((cs.takeWhile Char.isDigit).map digitValue, cs.dropWhile Char.isDigit)

/-- The number that a list of digits stands for. -/
def ofDigits (ds : List Nat) : Nat := ds.foldl (fun n d => n * 10 + d) 0

/-! ## 3. Scanning -/

/-- The parts of a numeral.  A numeral with a point has at least one fraction digit. -/
structure Numeral where
  negative : Bool
  whole : List Nat
  fraction : List Nat
  exponent : Option Int
  deriving DecidableEq, Repr

namespace Numeral

/-- At least one digit; `early` is the fault of a text that ends instead. -/
def someDigits (early : Fault) : Reader (List Nat)
  | [] => .error early
  | c :: cs =>
    if c.isDigit then .ok (takeDigits (c :: cs)) else .error .malformed

/-- The digits before the point: a leading zero stands alone. -/
def wholePart (early : Fault) (cs : List Char) : Except Fault (List Nat × List Char) := do
  let (ds, rest) ← someDigits early cs
  match ds with
  | 0 :: _ :: _ => .error .malformed
  | _ => return (ds, rest)

/-- The digits behind the point, none if there is no point. -/
def fractionPart (early : Fault) : Reader (List Nat)
  | '.' :: cs => someDigits early cs
  | cs => .ok ([], cs)

/-- The digits of an exponent, with its sign. -/
def signedDigits (early : Fault) (cs : List Char) : Except Fault (Int × List Char) := do
  let (negative, cs) := match cs with
    | '-' :: rest => (true, rest)
    | '+' :: rest => (false, rest)
    | _ => (false, cs)
  let (ds, rest) ← someDigits early cs
  let magnitude : Int := ofDigits ds
  return (if negative then -magnitude else magnitude, rest)

/-- The exponent, if there is one. -/
def exponentPart (early : Fault) (cs : List Char) : Except Fault (Option Int × List Char) :=
  match cs with
  | [] => .ok (none, [])
  | c :: rest =>
    if c = 'e' ∨ c = 'E' then do
      let (e, rest) ← signedDigits early rest
      return (some e, rest)
    else .ok (none, cs)

/-- The longest numeral at the front of a text; `early` is the fault of a text that ends
inside it. -/
def scan (early : Fault) (cs : List Char) : Except Fault (Numeral × List Char) := do
  let (negative, cs) := match cs with
    | '-' :: rest => (true, rest)
    | _ => (false, cs)
  let (whole, cs) ← wholePart early cs
  let (fraction, cs) ← fractionPart early cs
  let (exponent, cs) ← exponentPart early cs
  return ({ negative, whole, fraction, exponent }, cs)

/-! ## 4. The number -/

/-- Takes digits into a significand below `2 ^ 64`; the digits from the first that finds no
room on are left. -/
def absorb : Nat → List Nat → Nat × List Nat
  | significand, [] => (significand, [])
  | significand, d :: ds =>
    if significand * 10 + d < 18446744073709551616 then absorb (significand * 10 + d) ds
    else (significand, d :: ds)

/-- A whole number of 64 bits with its sign, or the double in its place. -/
def wholeNumber (negative : Bool) (magnitude : Nat) : Option Number :=
  if negative then
    if h : 0 < magnitude ∧ magnitude ≤ 9223372036854775808 then some (.int (-magnitude) (by omega))
    else (Double.ofDecimal? true magnitude 0).map .double
  else if h : magnitude < 18446744073709551616 then some (.int magnitude (by omega))
  else (Double.ofDecimal? false magnitude 0).map .double

/-- The number that a numeral stands for; none if it is too large. -/
def value? (n : Numeral) : Option Number :=
  let (significand, overflow) := absorb 0 n.whole
  if n.fraction = [] ∧ n.exponent = none ∧ overflow = [] then wholeNumber n.negative significand
  else
    let (significand, dropped) := absorb significand n.fraction
    let taken := n.fraction.length - dropped.length
    let exponent : Int := overflow.length - taken + n.exponent.getD 0
    (Double.ofDecimal? n.negative significand exponent).map .double

/-! ## 5. Numerals at their corners -/

/-- The number of a text that is one numeral. -/
def read? (text : String) : Option Number :=
  match scan .unfinished text.toList with
  | .ok (n, []) => n.value?
  | _ => none

example : scan .unfinished ['1', '.', ']'] = .error .malformed := by cbv
example : scan .unfinished ['1', '.'] = .error .unfinished := by cbv
example : scan .malformed ['1', '.'] = .error .malformed := by cbv
example : scan .unfinished ['0', '1'] = .error .malformed := by cbv
example : read? "18446744073709551615" = some (.int 18446744073709551615 (by decide)) := by
  decide +kernel
example :
    read? "18446744073709551616" =
      (Double.ofDecimal? false 1844674407370955161 1).map .double := by
  decide +kernel
example : read? "-0" = some (.double (Double.zero.withSign true)) := by decide +kernel
example : read? "1e309" = none := by decide +kernel

end Numeral
end Json
end Patchbay
