import PositionalRecord.Decimal.Binary64

/-!
# Shortest decimals

A finite number stands for every real that is nearer to it than to any other number, and for the
two reals half way to its neighbours if its significand is even. The shortest decimal of a number
is the one with the fewest digits among those reals, and the nearest to the number if there are
several. The search is exact: all comparisons are between natural numbers.
-/

namespace PositionalRecord

/-- The decimal number `digits * 10 ^ exponent`. -/
structure Decimal where
  digits : Nat
  exponent : Int
deriving DecidableEq

namespace Decimal

def digitCount (n : Nat) : Nat := (Nat.toDigits 10 n).length

/-- The same number without zeros at the end of its digits, `fuel` of them at most. -/
def trimZeros : Nat → Decimal → Decimal
  | 0, decimal => decimal
  | fuel + 1, decimal =>
    if decimal.digits % 10 = 0 then trimZeros fuel ⟨decimal.digits / 10, decimal.exponent + 1⟩
    else decimal

/-! ## The reals that a number stands for -/

/-- The reals that round to a number: from `low` to `high` around `middle`, all in units of
`1 / unit`, the ends included or not. -/
structure Interval where
  low : Nat
  middle : Nat
  high : Nat
  unit : Nat
  closed : Bool

/-- The reals that round to the positive finite magnitude of `x`. The neighbour below is only half
as far away where the significand is the least of its shift. -/
def Interval.of (x : Binary64) : Interval :=
  let below := if x.significand = Binary64.hiddenBit ∧ 0 < x.shift then 1 else 2
  { low := (4 * x.significand - below) <<< x.shift
    middle := (4 * x.significand) <<< x.shift
    high := (4 * x.significand + 2) <<< x.shift
    unit := 1 <<< 1076
    closed := x.significand % 2 == 0 }

def Interval.contains (interval : Interval) (numerator denominator : Nat) : Bool :=
  if interval.closed then
    interval.low * denominator ≤ numerator && numerator ≤ interval.high * denominator
  else
    interval.low * denominator < numerator && numerator < interval.high * denominator

/-- The power of ten just above the middle: the least `k` with `middle < unit * 10 ^ k`. -/
def Interval.decade (interval : Interval) : Int :=
  if interval.unit ≤ interval.middle then digitCount (interval.middle / interval.unit)
  else
    1 - (digitCount ((interval.unit + interval.middle - 1) / interval.middle - 1) : Int)

/-! ## The search -/

/-- The decimal with `count` digits in the interval that is nearest to the middle, an exact tie
going up. Only the two neighbours of the middle on the decimal grid can be that decimal. -/
def nearest? (interval : Interval) (count : Nat) : Option Decimal :=
  let exponent := interval.decade - count
  let step := interval.unit * Nat.pow 10 exponent.toNat
  let stretch := Nat.pow 10 (-exponent).toNat
  let lower := interval.middle * stretch / step
  let lowerFits := interval.contains (lower * step) stretch
  let upperFits := interval.contains ((lower + 1) * step) stretch
  let lowerNearer := 2 * (interval.middle * stretch) < (2 * lower + 1) * step
  if lowerFits && (lowerNearer || !upperFits) then some ⟨lower, exponent⟩
  else if upperFits then some ⟨lower + 1, exponent⟩
  else none

/-- The shortest decimal of the positive finite magnitude of `x`. Seventeen digits always
suffice. -/
def shortest (x : Binary64) : Decimal :=
  match (List.range 17).findSome? fun digits ↦ nearest? (.of x) (digits + 1) with
  | some decimal => decimal.trimZeros 17
  | none => ⟨0, 0⟩

end Decimal

end PositionalRecord
