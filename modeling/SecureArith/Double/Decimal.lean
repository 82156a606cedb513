import SecureArith.Double.Basic

set_option autoImplicit false

/-!
# Decimals read as doubles

A decimal `digits * 10 ^ power` is read in two roundings: the digits are rounded to a double, and
that double is multiplied or divided by the double nearest to the power of ten. The result can be
one unit away from the double nearest to the decimal.
-/

namespace SecureArith.Double

/-- Powers of ten up to this one are finite doubles. -/
def greatestPower : Nat := 308

def powerOfTen (n : Nat) : Double := ofNat false (Nat.pow 10 n)

def times (x y : Double) : Double :=
  ofRatio x.negative (x.numerator * y.numerator) (x.denominator * y.denominator)

def dividedBy (x y : Double) : Double :=
  ofRatio x.negative (x.numerator * y.denominator) (x.denominator * y.numerator)

/-- `x` times `10 ^ power`, where powers under the least one are divided off in steps. There is no
answer when the result is infinite. -/
def scale (x : Double) (power : Int) : Option Double :=
  if power.natAbs ≤ greatestPower then
    if 0 ≤ power then
      let y := x.times (powerOfTen power.natAbs)
      if y.isInfinite then none else some y
    else some (x.dividedBy (powerOfTen power.natAbs))
  else if x.isZero then some x
  else if 0 ≤ power then none
  else scale (x.dividedBy (powerOfTen greatestPower)) (power + greatestPower)
termination_by (-power).toNat
decreasing_by
  simp only [greatestPower] at *
  omega

def ofDecimal (negative : Bool) (digits : Nat) (power : Int) : Option Double :=
  (scale (ofNat false digits) power).map fun x => { x with negative }

end SecureArith.Double
