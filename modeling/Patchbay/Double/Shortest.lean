/-
# The shortest decimal of a double

Many decimals round to one double.  `shortest` picks the one to write: of the decimals in the
double's rounding interval those with the fewest digits, of these the nearest to the double,
and of two equally near the one with the even last digit.

The interval is searched on decimal grids, from a grid too coarse to hold anything but zero
and one point down to finer ones.  On each grid only the two neighbours of the double need a
look, because the interval contains the double: if any point of the grid is in it, one of the
two neighbours is.  The first grid with a hit gives the fewest digits.  A grid of seventeen
digits always has one.

All comparisons are between whole numbers: the interval is kept in quarters of the unit
`2 ^ -1074`, in which its ends are whole.
-/
import Patchbay.Double

namespace Patchbay

/-- The decimal `digits * 10 ^ exponent`. -/
structure Decimal where
  digits : Nat
  exponent : Int
  deriving DecidableEq, Repr

namespace Double

/-! ## 1. The rounding interval -/

/-- The number one in quarter units. -/
def quarters : Nat := 4 * one

/-- The reals that round to a double, in quarter units: from `low` to `high` around `middle`,
with the ends when `closed`. -/
structure Interval where
  low : Nat
  middle : Nat
  high : Nat
  closed : Bool

/-- The interval of a double.  Half a step lies on either side, but a power of two above the
least exponent has only a quarter of a step below it.  The ends round to the double exactly
if its mantissa is even. -/
def interval (d : Double) : Interval :=
  let step := Nat.pow 2 d.exponent
  let below := if d.mantissa = Nat.pow 2 52 ∧ 0 < d.exponent then step else 2 * step
  { low := 4 * d.magnitude - below
    middle := 4 * d.magnitude
    high := 4 * d.magnitude + 2 * step
    closed := d.mantissa % 2 = 0 }

/-! ## 2. One grid -/

/-- The grid of the multiples of `10 ^ exponent`: `width / fineness` quarter units from one
point to the next. -/
structure Grid where
  exponent : Int
  width : Nat
  fineness : Nat

/-- The grid of the multiples of a power of ten. -/
def Grid.ofExponent : Int → Grid
  | .ofNat k => ⟨k, Nat.pow 10 k * quarters, 1⟩
  | .negSucc k => ⟨.negSucc k, quarters, Nat.pow 10 (k + 1)⟩

/-- Whether the `n`th point of the grid is in the interval. -/
def Grid.hits (g : Grid) (i : Interval) (n : Nat) : Bool :=
  let point := n * g.width
  let low := i.low * g.fineness
  let high := i.high * g.fineness
  if i.closed then low ≤ point ∧ point ≤ high else low < point ∧ point < high

/-- The neighbour of the middle to write, if one of the two is in the interval: the nearer one
of two, and the even one of two equally near. -/
def Grid.best? (g : Grid) (i : Interval) : Option Nat :=
  let middle := i.middle * g.fineness
  let n := middle / g.width
  match g.hits i n, g.hits i (n + 1) with
  | false, false => none
  | true, false => some n
  | false, true => some (n + 1)
  | true, true =>
    let down := middle - n * g.width
    let up := (n + 1) * g.width - middle
    if down < up ∨ down = up ∧ n % 2 = 0 then some n else some (n + 1)

/-! ## 3. The search -/

/-- The first hit on the grids from `10 ^ exponent` down, `turns` of them at most. -/
def searchGrids (i : Interval) : (turns : Nat) → (exponent : Int) → Decimal
  | 0, exponent => ⟨0, exponent⟩
  | turns + 1, exponent =>
    match (Grid.ofExponent exponent).best? i with
    | some n => ⟨n, exponent⟩
    | none => searchGrids i turns (exponent - 1)

/-- A power of ten that is at least as coarse as the leading digit of a nonzero double.
A magnitude of `b` bits lies below `2 ^ (b - 1074)`, and `30103 / 100000` is the decimal
logarithm of two to five places. -/
def coarsest (d : Double) : Int :=
  ((d.magnitude.log2 : Int) + 1 - 1074) * 30103 / 100000

/-- The decimal that is written for the magnitude of a double. -/
def shortest (d : Double) : Decimal :=
  if d.isZero then ⟨0, 0⟩ else searchGrids d.interval 20 d.coarsest

end Double
end Patchbay
