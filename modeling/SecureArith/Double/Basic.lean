set_option autoImplicit false

/-!
# Binary64 numbers

A double is kept as its sign and its other 63 bits read as one natural number. That number grows
with the absolute value, so that rounding up to the next double adds one to it. Nothing in this
library does arithmetic on doubles beyond reading them, writing them and comparing them.
-/

namespace SecureArith

structure Double where
  negative : Bool
  /-- Exponent field and fraction field as one number. -/
  code : Nat
  deriving DecidableEq, Repr, Inhabited

namespace Double

/-- The code of infinity. Larger codes are not numbers. -/
def infinityCode : Nat := 2047 <<< 52

def zero (negative : Bool) : Double := ⟨negative, 0⟩

def infinity (negative : Bool) : Double := ⟨negative, infinityCode⟩

def notANumber : Double := ⟨false, infinityCode + 1 <<< 51⟩

def isNaN (x : Double) : Bool := infinityCode < x.code

def isInfinite (x : Double) : Bool := x.code == infinityCode

def isFinite (x : Double) : Bool := x.code < infinityCode

def isZero (x : Double) : Bool := x.code == 0

/-- Numeric equality: the two zeros are equal, and what is not a number equals nothing. -/
def equal (x y : Double) : Bool :=
  !x.isNaN && (x == y || (x.isZero && y.isZero))

/-- A finite double is `significand * 2 ^ exponent` up to its sign. -/
def significand (x : Double) : Nat :=
  if x.code < 1 <<< 52 then x.code else 1 <<< 52 + x.code % 1 <<< 52

def exponent (x : Double) : Int :=
  if x.code < 1 <<< 52 then -1074 else (x.code >>> 52 : Nat) - 1075

def numerator (x : Double) : Nat := x.significand <<< x.exponent.toNat

def denominator (x : Double) : Nat := 1 <<< (-x.exponent).toNat

/-- The quotient rounded to the nearest integer, a half to the even one. -/
def roundDiv (n d : Nat) : Nat :=
  let q := n / d
  let r := 2 * (n % d)
  if d < r ∨ (r = d ∧ q % 2 = 1) then q + 1 else q

/-- The exponent `e` with `2 ^ e ≤ num / den < 2 ^ (e + 1)`. -/
def ratioExponent (num den : Nat) : Int :=
  let e : Int := (num.log2 : Int) - den.log2
  if num <<< (-e).toNat < den <<< e.toNat then e - 1 else e

/-- The double nearest to `num / den`, a half to the even significand, infinity when it is too
large. -/
def ofRatio (negative : Bool) (num den : Nat) : Double :=
  if num = 0 then zero negative
  else
    let q := max (ratioExponent num den - 52) (-1074)
    let m := roundDiv (num <<< (-q).toNat) (den <<< q.toNat)
    ⟨negative, min infinityCode ((q + 1074).toNat <<< 52 + m)⟩

def ofNat (negative : Bool) (n : Nat) : Double := ofRatio negative n 1

def ofInt (n : Int) : Double := ofNat (n < 0) n.natAbs

theorem equal_comm (x y : Double) : x.equal y = y.equal x := by
  rcases x with ⟨s, a⟩
  rcases y with ⟨t, b⟩
  rw [Bool.eq_iff_iff]
  simp only [equal, isNaN, isZero, Bool.and_eq_true, Bool.or_eq_true, Bool.not_eq_true',
    decide_eq_false_iff_not, beq_iff_eq, mk.injEq]
  constructor <;> rintro ⟨h, ⟨rfl, rfl⟩ | ⟨rfl, rfl⟩⟩ <;> simp_all

end Double

end SecureArith
