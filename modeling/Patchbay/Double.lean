/-
# Finite doubles

A number of a document that is not a whole number of 64 bits is kept as a double: a sign and
a magnitude `mantissa * 2 ^ exponent`, counted in units of `2 ^ -1074`, the least positive
double.  Every finite double has one such form in which the mantissa has at most 53 bits, and
all 53 of them unless the exponent is zero, so equality of the parts is equality of the
doubles, zero and negative zero being two.

All arithmetic is on `Nat`.  An exact quotient is rounded once, to the nearest double, a half
going to the even mantissa (`ofRatio?`); a product and a quotient of doubles are such
roundings (`mul?`, `div?`).  `none` stands for a magnitude beyond the largest double.

`ofDecimal?` is the rule by which a decimal numeral becomes a double: its significand is
rounded, and then multiplied or divided by a rounded power of ten.  This takes up to three
roundings, so the result can differ in the last bit from the double nearest to the numeral.
-/
namespace Patchbay

/-! ## 1. The canonical form -/

/-- `mantissa * 2 ^ exponent` is the one form of a double's magnitude: at most 53 bits, all of
them used above the least exponent, and not beyond the largest double. -/
abbrev CanonicalDouble (mantissa exponent : Nat) : Prop :=
  mantissa < Nat.pow 2 53 ∧ (exponent = 0 ∨ Nat.pow 2 52 ≤ mantissa) ∧ exponent ≤ 2045

/-- A finite double: a sign and `mantissa * 2 ^ exponent` units of `2 ^ -1074`. -/
structure Double where
  negative : Bool
  mantissa : Nat
  exponent : Nat
  canonical : CanonicalDouble mantissa exponent
  deriving DecidableEq, Repr

namespace Double

/-- The magnitude in units of `2 ^ -1074`. -/
def magnitude (d : Double) : Nat := d.mantissa * Nat.pow 2 d.exponent

/-- The number one in units of `2 ^ -1074`. -/
def one : Nat := Nat.pow 2 1074

/-- Zero or negative zero. -/
def isZero (d : Double) : Bool := d.mantissa = 0

/-- The same magnitude with the sign given. -/
def withSign (negative : Bool) (d : Double) : Double := { d with negative }

/-- Zero. -/
def zero : Double := ⟨false, 0, 0, by decide⟩

instance : Inhabited Double := ⟨zero⟩

/-! ## 2. Rounding -/

/-- `num / den` rounded to a whole number, a half going to the even neighbour. -/
def roundHalfEven (num den : Nat) : Nat :=
  let q := num / den
  let r := num % den
  if 2 * r < den then q else if den < 2 * r then q + 1 else q + q % 2

/-- The least exponent at which `num / den` units have fewer than 54 bits before the point. -/
def scaleOf (num den : Nat) : Nat :=
  let e := num.log2 - den.log2 - 53
  if num < den * Nat.pow 2 (e + 53) then e else e + 1

/-- The double nearest to `num / den` units of `2 ^ -1074`, a half going to the even mantissa.
A mantissa that rounds up to 54 bits is the next power of two. -/
def ofRatio? (negative : Bool) (num den : Nat) : Option Double :=
  let e := scaleOf num den
  let m := roundHalfEven num (den * Nat.pow 2 e)
  let (m, e) := if m = Nat.pow 2 53 then (Nat.pow 2 52, e + 1) else (m, e)
  if h : CanonicalDouble m e then some ⟨negative, m, e, h⟩ else none

/-- The double nearest to a whole number. -/
def ofNat? (n : Nat) : Option Double := ofRatio? false (n * one) 1

/-- The double nearest to the product. -/
def mul? (a b : Double) : Option Double :=
  ofRatio? (a.negative != b.negative) (a.magnitude * b.magnitude) one

/-- The double nearest to the quotient. -/
def div? (a b : Double) : Option Double :=
  ofRatio? (a.negative != b.negative) (a.magnitude * one) b.magnitude

/-! ## 3. Decimal numerals -/

/-- The greatest power of ten that is a double has this exponent. -/
def greatestTen : Nat := 308

/-- `d` divided by `10 ^ k`, in steps of at most `10 ^ 308` that end once zero is reached. -/
def divideByTens? (d : Double) (k : Nat) : Option Double :=
  if k ≤ greatestTen then do d.div? (← ofNat? (Nat.pow 10 k))
  else if d.isZero then some d
  else do
    let smaller ← d.div? (← ofNat? (Nat.pow 10 greatestTen))
    divideByTens? smaller (k - greatestTen)
  termination_by k
  decreasing_by simp only [greatestTen] at *; omega

/-- `d` multiplied by `10 ^ k`; beyond `10 ^ 308` only zero stays in range. -/
def multiplyByTens? (d : Double) (k : Nat) : Option Double :=
  if k ≤ greatestTen then do d.mul? (← ofNat? (Nat.pow 10 k))
  else if d.isZero then some d
  else none

/-- The double that stands for `significand * 10 ^ exponent`, with its sign. -/
def ofDecimal? (negative : Bool) (significand : Nat) (exponent : Int) : Option Double := do
  let d ← ofNat? significand
  let scaled ← match exponent with
    | .ofNat k => d.multiplyByTens? k
    | .negSucc k => d.divideByTens? (k + 1)
  return scaled.withSign negative

/-! ## 4. What the rounding gives at its corners -/

example : (ofRatio? false 1 2).map (·.mantissa) = some 0 := by decide +kernel
example : (ofRatio? false 3 2).map (·.mantissa) = some 2 := by decide +kernel
example : (ofRatio? false (Nat.pow 2 54 - 1) 1).map magnitude = some (Nat.pow 2 54) := by
  decide +kernel
example : ofDecimal? false 1 309 = none := by decide +kernel
example : (ofDecimal? true 0 999).map (fun d => (d.negative, d.mantissa)) = some (true, 0) := by
  decide +kernel

end Double
end Patchbay
