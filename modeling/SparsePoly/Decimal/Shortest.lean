import SparsePoly.Binary64.Magnitude

/-!
# The shortest decimal of a magnitude

Every positive magnitude is nearest to a whole interval of real numbers: all of them round to it.
Among the decimal fractions in that interval the shortest ones are those on the coarsest decimal
grid that meets it, and of these the one nearest to the magnitude is the one to write.

## Main definitions

* `Interval.ofUnits` - the real numbers that round to a magnitude
* `Decimal.onGrid?` - the point of one decimal grid to choose, if the grid meets the interval
* `Decimal.shortest` - the choice on the coarsest grid that does

## Design decisions

* Everything is a natural number.  The ends of an interval are counted in quarter units, which
  are fine enough for the half gap below a power of two; both they and the decimal grids are then
  scaled by `10 ^ 324`, the finest grid that is ever looked at.
* The search goes from coarse to fine.  A point of a coarse grid is a point of every finer one, so
  the first hit is the one with the fewest digits, and it does not end in a zero.
* Of two points of a grid that are equally near, the upper one is taken.
-/

namespace SparsePoly

open Binary64

/-- An interval of real numbers with natural ends. -/
structure Interval where
  /-- The lower end. -/
  lower : Nat
  /-- The upper end. -/
  upper : Nat
  /-- Whether the ends belong to it. -/
  closed : Bool
  deriving DecidableEq

namespace Interval

/-- Membership. -/
def contains (i : Interval) (point : Nat) : Bool :=
  if i.closed then
    decide (i.lower ≤ point ∧ point ≤ i.upper)
  else
    decide (i.lower < point ∧ point < i.upper)

/-- **What rounds to a magnitude**, in quarter units: half a gap to either side, where the gap
below a power of two is half the one above, unless both are one unit.  The ends are ties, and go
to an even significand. -/
def ofUnits (units : Nat) : Interval :=
  let gap := spacing units
  let gapBelow := if units = 2 ^ units.log2 ∧ 1 < gap then gap / 2 else gap
  { lower := 4 * units - 2 * gapBelow
    upper := 4 * units + 2 * gap
    closed := units / gap % 2 = 0 }

/-- The interval in a unit that is smaller by the factor. -/
def scale (i : Interval) (factor : Nat) : Interval :=
  { i with lower := i.lower * factor, upper := i.upper * factor }

end Interval

/-- The decimal fraction `digits * 10 ^ exponent`. -/
structure Decimal where
  /-- The digits, as one natural number. -/
  digits : Nat
  /-- The power of ten of the last digit. -/
  exponent : Int
  deriving DecidableEq

namespace Decimal

/-- The number of decimal places of the finest grid.  It has a point in every interval, because
the least distance of magnitudes is several times its step. -/
def finestPlaces : Nat := 324

/-- The step of the finest grid, in quarter units divided by `10 ^ 324`. -/
def finestStep : Nat := 4 * unitsPerOne

/-- The multiple of `step` to choose, as a number of steps: the one below or the one above the
centre, whichever lies in the interval, the nearer one if both do, the upper one of a tie. -/
def onGrid? (i : Interval) (centre step : Nat) : Option Nat :=
  let below := centre / step
  -- Points further away are in the interval only if one of these two is.
  match i.contains (below * step), i.contains ((below + 1) * step) with
  | true, true => some (if 2 * (centre % step) < step then below else below + 1)
  | true, false => some below
  | false, true => some (below + 1)
  | false, false => none

/-- The choice on the coarsest grid that meets the interval, among the grids that are at most
`10 ^ coarsest` times the finest. -/
def search (i : Interval) (centre : Nat) : (coarsest : Nat) → Decimal
  | 0 => ⟨(onGrid? i centre finestStep).getD (centre / finestStep), -(finestPlaces : Int)⟩
  | k + 1 =>
    match onGrid? i centre (finestStep * 10 ^ (k + 1)) with
    | some digits => ⟨digits, (k + 1 : Nat) - (finestPlaces : Int)⟩
    | none => search i centre k

/-- **The shortest decimal.**  The search starts from a grid whose step exceeds the upper end of
the interval: `10 ^ (b / 3 + 1)` exceeds every number of `b + 1` bits. -/
def shortest (m : Magnitude) : Decimal :=
  let i := (Interval.ofUnits m.units).scale (10 ^ finestPlaces)
  search i (4 * m.units * 10 ^ finestPlaces) ((i.upper / finestStep).log2 / 3 + 1)

end Decimal

end SparsePoly
