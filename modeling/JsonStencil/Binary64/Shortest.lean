import JsonStencil.Binary64

/-!
# Shortest decimals

The decimal that stands for a binary64 number is the one with the fewest
digits among those that round to it; of several such decimals it is the one
nearest to the number, and of two equally near ones the one whose last digit
is even.

The reals that round to `mantissa · 2 ^ exponent` form an interval, closed
when the mantissa is even. On the grid of decimals with a given number of
digits only the two neighbours of the number can be the nearest one, so each
length asks two questions in exact arithmetic, and seventeen digits always
suffice.

Main definitions:

* `Binary64.Interval` — the reals that round to a number, as fractions
  over a common denominator.
* `Binary64.shortest` — the digits and the decimal exponent chosen.
-/

namespace JsonStencil.Binary64

/-- The reals that round to a number: `low`, the number itself and `high`
over one denominator, and whether the ends belong. -/
structure Interval where
  low : Nat
  value : Nat
  high : Nat
  den : Nat
  closed : Bool

/-- The interval of a number. Below a power of two the grid is twice as
fine, so the lower end is only a quarter of a unit away. -/
def interval (x : Binary64) : Interval :=
  let below := if x.mantissa = leadingBit ∧ -1074 < x.exponent then 1 else 2
  let unit := inUnits 1 1 (2 - x.exponent)
  { low := (4 * x.mantissa - below) * unit.1
    value := 4 * x.mantissa * unit.1
    high := (4 * x.mantissa + 2) * unit.1
    den := unit.2
    closed := x.mantissa % 2 == 0 }

/-- The same interval after multiplication by `10 ^ power`. -/
def Interval.shift (i : Interval) (power : Int) : Interval :=
  if 0 ≤ power then
    let factor := Nat.pow 10 power.toNat
    { i with low := i.low * factor, value := i.value * factor, high := i.high * factor }
  else { i with den := i.den * Nat.pow 10 (-power).toNat }

/-- Whether an integer lies in the interval. -/
def Interval.holds (i : Interval) (n : Nat) : Bool :=
  if i.closed then i.low ≤ n * i.den && n * i.den ≤ i.high
  else i.low < n * i.den && n * i.den < i.high

/-- The integer in the interval that is nearest to its value, if there is
one: one of the two neighbours of the value. -/
def Interval.nearest? (i : Interval) : Option Nat :=
  let floor := i.value / i.den
  match i.holds floor, i.holds (floor + 1) with
  | true, true => some (Binary64.nearest i.value i.den)
  | true, false => some floor
  | false, true => some (floor + 1)
  | false, false => none

/-- The exponent of the first digit of `num / den`, for a positive
quotient. -/
def leadingExponent (num den : Nat) : Int :=
  if den ≤ num then ((Nat.toDigits 10 (num / den)).length : Int) - 1
  else match (List.range 400).find? fun places => den ≤ num * Nat.pow 10 places with
    | some places => -(places : Int)
    | none => 0

/-- Drops trailing zeros of the digits and raises the exponent for each. -/
def trimZeros : (fuel : Nat) → Nat → Int → Nat × Int
  | 0, digits, exponent => (digits, exponent)
  | fuel + 1, digits, exponent =>
    if digits ≠ 0 ∧ digits % 10 = 0 then trimZeros fuel (digits / 10) (exponent + 1)
    else (digits, exponent)

/-- Tries the decimal grids from the coarsest on: `count` digits first, then
one more each time, while `left` lengths remain. -/
def firstGrid (i : Interval) (leading : Int) : (left count : Nat) → Nat × Int
  | 0, _ => (0, 0)
  | left + 1, count =>
    match (i.shift (count - 1 - leading)).nearest? with
    | some digits => (digits, leading - count + 1)
    | none => firstGrid i leading left (count + 1)

/-- The shortest digits `d` and the exponent `k` with `d · 10 ^ k` rounding
to the magnitude of a number other than zero. -/
def shortest (x : Binary64) : Nat × Int :=
  let i := x.interval
  let found := firstGrid i (leadingExponent i.value i.den) 17 1
  trimZeros 20 found.1 found.2

end JsonStencil.Binary64
