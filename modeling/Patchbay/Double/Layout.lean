/-
# The written form of a double

`Double.text` lays the shortest decimal of a double out.  Which exponents are written
positionally, and how the exponent of the others looks, is one value of `DecimalLayout`:
a document's numbers have at least one digit after the point, are positional from `0.00001`
up to seventeen digits before the point, and carry a signed exponent otherwise.
-/
import Patchbay.Double.Shortest

namespace Patchbay

/-- How a decimal is laid out. -/
structure DecimalLayout where
  /-- Decimal exponents of the leading digit that are written positionally. -/
  leastPositional : Int
  greatestPositional : Int
  /-- What stands before the exponent. -/
  exponentMark : Char
  /-- Whether an exponent that is not negative has a sign. -/
  signedExponent : Bool

namespace DecimalLayout

/-- Zeros. -/
def zeros (n : Nat) : List Char := List.replicate n '0'

/-- `digits` with the point after the first `whole` of them, filled up with zeros to that
point and to one digit after it. -/
def positional (digits : List Char) (whole : Nat) : List Char :=
  if digits.length ≤ whole then digits ++ zeros (whole - digits.length) ++ ['.', '0']
  else digits.take whole ++ '.' :: digits.drop whole

/-- An exponent behind its mark. -/
def exponentPart (l : DecimalLayout) (exponent : Int) : List Char :=
  let sign := if exponent < 0 then ['-'] else if l.signedExponent then ['+'] else []
  l.exponentMark :: sign ++ Nat.toDigits 10 exponent.natAbs

/-- One digit before the point, the others after it, and the exponent. -/
def scientific (l : DecimalLayout) (digits : List Char) (exponent : Int) : List Char :=
  let significand := match digits with
    | first :: second :: rest => first :: '.' :: second :: rest
    | short => short
  significand ++ l.exponentPart exponent

/-- A decimal laid out. -/
def render (l : DecimalLayout) (d : Decimal) : List Char :=
  let digits := Nat.toDigits 10 d.digits
  let leading := d.exponent + digits.length - 1
  if leading < l.leastPositional ∨ l.greatestPositional < leading then l.scientific digits leading
  else if leading < 0 then '0' :: '.' :: zeros (leading.natAbs - 1) ++ digits
  else positional digits (leading.toNat + 1)

/-- The layout of the numbers of a document. -/
def document : DecimalLayout := ⟨-5, 15, 'e', true⟩

end DecimalLayout

namespace Double

/-- The text of a double in a document. -/
def text (d : Double) : List Char :=
  let magnitude := DecimalLayout.document.render d.shortest
  if d.negative then '-' :: magnitude else magnitude

/-! ## Written forms -/

/-- The text of the double for `significand * 10 ^ exponent`. -/
def textOf? (significand : Nat) (exponent : Int) : Option String :=
  (ofDecimal? false significand exponent).map fun d => String.ofList d.text

example : textOf? 0 0 = some "0.0" := by decide +kernel
example : textOf? 1 2 = some "100.0" := by decide +kernel
example : textOf? 125 (-2) = some "1.25" := by decide +kernel
example : textOf? 1 15 = some "1000000000000000.0" := by decide +kernel
example : textOf? 1 16 = some "1e+16" := by decide +kernel
example : textOf? 1 (-5) = some "0.00001" := by decide +kernel
example : textOf? 1 (-6) = some "1e-6" := by decide +kernel
example : textOf? 18446744073709551615 0 = some "1.8446744073709552e+19" := by decide +kernel
example : textOf? 5 (-324) = some "5e-324" := by decide +kernel

end Double
end Patchbay
