import SecureArith.Double.Basic

set_option autoImplicit false

/-!
# Shortest decimals

The decimal of a double has the fewest digits among those that round to it, and of these it is the
nearest. The decimals that round to a double form an interval, closed when the significand is
even. For every grid of decimals the two neighbours of the double on it are tested.
-/

namespace SecureArith.Double

inductive Tie where
  | up
  | even
  deriving DecidableEq, Repr

/-- The decimals that round to a double, in quarters of its last binary place: the double itself
is `center * 2 ^ place`. -/
structure Interval where
  low : Nat
  center : Nat
  high : Nat
  place : Int
  closed : Bool

/-- Below a power of two the doubles lie twice as dense, so that the lower half is shorter. -/
def interval (x : Double) : Interval :=
  let m := x.significand
  { low := if x.code % 1 <<< 52 = 0 ∧ 1 <<< 53 ≤ x.code then 4 * m - 1 else 4 * m - 2
    center := 4 * m
    high := 4 * m + 2
    place := x.exponent - 2
    closed := m % 2 = 0 }

/-- The nearer neighbour on the grid of multiples of `10 ^ power` that lies in the interval. -/
def Interval.pick? (i : Interval) (tie : Tie) (power : Int) : Option Nat :=
  let step := Nat.pow 10 power.toNat <<< (-i.place).toNat
  let unit := Nat.pow 10 (-power).toNat <<< i.place.toNat
  let inside (c : Nat) : Bool :=
    if i.closed then i.low * unit ≤ c * step ∧ c * step ≤ i.high * unit
    else i.low * unit < c * step ∧ c * step < i.high * unit
  let c := i.center * unit / step
  let r := 2 * (i.center * unit % step)
  let up : Bool := match tie with
    | .up => step ≤ r
    | .even => step < r ∨ (r = step ∧ c % 2 = 1)
  if inside c then
    if inside (c + 1) && up then some (c + 1) else some c
  else if inside (c + 1) then some (c + 1)
  else none

def leadingPower (num den : Nat) : Int :=
  if den ≤ num then (Nat.toDigits 10 (num / den)).length - 1
  else -((Nat.toDigits 10 (den / num)).length : Int)

/-- A decimal `0.d₁d₂… * 10 ^ point`, with no zero at either end of its digits. -/
structure Decimal where
  digits : List Char
  point : Int

def dropTrailingZeros (digits : List Char) : List Char :=
  (digits.reverse.dropWhile (· == '0')).reverse

/-- The shortest decimal of a finite double other than zero. Seventeen digits always suffice. -/
def shortest (x : Double) (tie : Tie) : Decimal :=
  let i := x.interval
  let leading := leadingPower x.numerator x.denominator
  let found := (List.range 17).findSome? fun (n : Nat) =>
    (i.pick? tie (leading - n)).map fun c => (c, leading - (n : Int))
  let (c, power) := found.getD (x.significand, 0)
  let digits := Nat.toDigits 10 c
  { digits := dropTrailingZeros digits
    point := digits.length + power }

end SecureArith.Double
