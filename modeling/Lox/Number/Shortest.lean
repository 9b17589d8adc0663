import Lox.Number.Binary
/-!
# The shortest decimal that reads back

The reals that round to a magnitude form an interval around it, which owns its ends exactly when
the mantissa is even. The shortest decimal of the magnitude is the point of that interval on the
coarsest grid `10 ^ place` that has one; of two such points the nearer is taken, and of two equally
near the larger.

Only the two neighbours of the magnitude on each grid are tried: if any point of a grid lies in the
interval, one of them does.
-/

namespace Lox.Number

-- powers of natural numbers are those of the core library, under any imports
attribute [local instance (2000)] instPowNat

/-- The decimal `digits * 10 ^ place`. -/
structure Decimal where
  digits : Nat
  place : Int
  deriving Repr, DecidableEq

namespace Magnitude

/-- Every magnitude is itself a finite decimal, since `2 ^ (-q) = 5 ^ q * 10 ^ (-q)`. -/
def exactDecimal (size : Magnitude) : Decimal :=
  if 0 ≤ size.exponent then
    ⟨size.mantissa * 2 ^ size.exponent.toNat, 0⟩
  else
    ⟨size.mantissa * 5 ^ (-size.exponent).toNat, size.exponent⟩

/--
The magnitude, its interval and one decimal grid in a common whole unit: the points of the grid
are the multiples of `step`, and the reals between `low` and `high` round to `value`.
-/
structure OnGrid where
  low : Nat
  value : Nat
  high : Nat
  step : Nat
  closed : Bool

/-- Quarters of the last binary place are fine enough for the magnitude and both ends. -/
def onGrid (size : Magnitude) (place : Int) : OnGrid :=
  let quarter := size.exponent - 2
  let scale := 2 ^ quarter.toNat * 10 ^ (-place).toNat
  let below := if size.isNarrowBelow then 1 else 2
  { low := (4 * size.mantissa - below) * scale
    value := 4 * size.mantissa * scale
    high := (4 * size.mantissa + 2) * scale
    step := 10 ^ place.toNat * 2 ^ (-quarter).toNat
    closed := size.mantissa % 2 = 0 }

namespace OnGrid

/-- Whether a point rounds to the magnitude. -/
def owns (g : OnGrid) (point : Nat) : Bool :=
  if g.closed then g.low ≤ point && point ≤ g.high else g.low < point && point < g.high

/-- The better of the two neighbours, as a multiple of the step, if one is in the interval. -/
def nearest? (g : OnGrid) : Option Nat :=
  let down := g.value / g.step
  let up := down + 1
  match g.owns (down * g.step), g.owns (up * g.step) with
  | true, true => some (if g.value - down * g.step < up * g.step - g.value then down else up)
  | true, false => some down
  | false, true => some up
  | false, false => none

end OnGrid

/-- Tries ever finer grids, from `10 ^ place` down; the exact decimal ends the search. -/
def shortestFrom (size : Magnitude) : Nat → Int → Decimal
  | 0, _ => size.exactDecimal
  | finer + 1, place =>
    match (size.onGrid place).nearest? with
    | some digits => ⟨digits, place⟩
    | none => shortestFrom size finer (place - 1)

/-- A place that lies above the first digit of the magnitude. -/
def topPlace (size : Magnitude) : Int :=
  ((size.mantissa.log2 + size.exponent + 1) * 30103).fdiv 100000 + 2

/-- The shortest decimal that rounds to the magnitude, and the nearest of those. -/
def shortest (size : Magnitude) : Decimal :=
  if size.mantissa = 0 then ⟨0, 0⟩ else size.shortestFrom 24 size.topPlace

end Magnitude

end Lox.Number
