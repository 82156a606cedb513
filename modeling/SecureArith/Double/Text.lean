import SecureArith.Double.Shortest

set_option autoImplicit false

/-!
# Doubles as text

Both formats write the shortest decimal, with a point or an exponent in every number. They differ
in where positional notation ends, in the sign of the exponent and in ties.
-/

namespace SecureArith.Double

/-- The decisions of a decimal format. -/
structure Layout where
  /-- Least and greatest power of the first digit that is written in positional notation. -/
  least : Int
  greatest : Int
  /-- Positive exponents carry a sign. -/
  plus : Bool
  tie : Tie

/-- Constants in expressions and trees: `0.0001`, `1e-5`, `1e16`. -/
def Layout.expression : Layout := ⟨-4, 15, false, .up⟩

/-- Numbers in JSON: `0.00001`, `1e-6`, `1e+16`. -/
def Layout.json : Layout := ⟨-5, 15, true, .even⟩

def Decimal.positional (d : Decimal) : List Char :=
  if d.point ≤ 0 then '0' :: '.' :: List.replicate (-d.point).toNat '0' ++ d.digits
  else
    let whole := d.point.toNat
    if d.digits.length ≤ whole then
      d.digits ++ List.replicate (whole - d.digits.length) '0' ++ ['.', '0']
    else d.digits.take whole ++ '.' :: d.digits.drop whole

def Decimal.scientific (d : Decimal) (plus : Bool) : List Char :=
  let power := d.point - 1
  let fraction := match d.digits.drop 1 with
    | [] => []
    | rest => '.' :: rest
  let sign := if power < 0 then ['-'] else if plus then ['+'] else []
  d.digits.take 1 ++ fraction ++ 'e' :: sign ++ Nat.toDigits 10 power.natAbs

def magnitudeText (x : Double) (layout : Layout) : List Char :=
  if x.isInfinite then "inf".toList
  else if x.isZero then "0.0".toList
  else
    let d := x.shortest layout.tie
    if layout.least ≤ d.point - 1 ∧ d.point - 1 ≤ layout.greatest then d.positional
    else d.scientific layout.plus

def text (x : Double) (layout : Layout) : List Char :=
  if x.isNaN then "NaN".toList
  else if x.negative then '-' :: x.magnitudeText layout
  else x.magnitudeText layout

end SecureArith.Double
