import SecureArith.Json.Basic
import SecureArith.Double.Decimal

set_option autoImplicit false

/-!
# Number literals

A literal without fraction and exponent is an integer when it fits 64 bits, signed or unsigned;
minus zero and everything else is a double. A double is read from as many leading digits as fit an
unsigned 64-bit integer.
-/

namespace SecureArith.Json

def isDigit (c : Char) : Bool := '0' ≤ c && c ≤ '9'

def digitValue (c : Char) : Nat := c.toNat - '0'.toNat

def digitsValue (digits : List Char) : Nat :=
  digits.foldl (fun n c => n * 10 + digitValue c) 0

structure Numeral where
  negative : Bool
  whole : List Char
  fraction : List Char
  /-- Sign and digits of the exponent. -/
  power : Option (Bool × List Char)

namespace Numeral

def maxUnsigned : Nat := 0xFFFFFFFFFFFFFFFF

def minSigned : Int := -0x8000000000000000

def maxSigned : Int := 0x7FFFFFFFFFFFFFFF

/-- Exponents beyond this one are not added up. -/
def maxPower : Nat := 0x7FFFFFFF

/-- Leading digits, and the power of ten that they are to be multiplied by. -/
structure Scan where
  digits : Nat
  power : Int
  /-- A digit did not fit. -/
  full : Bool

/-- Whole digits that do not fit are counted. -/
def Scan.whole (s : Scan) (c : Char) : Scan :=
  let next := s.digits * 10 + digitValue c
  if s.full || maxUnsigned < next then { s with power := s.power + 1, full := true }
  else { s with digits := next }

/-- Digits after the point that do not fit are dropped. -/
def Scan.fraction (s : Scan) (c : Char) : Scan :=
  let next := s.digits * 10 + digitValue c
  if s.full || maxUnsigned < next then { s with full := true }
  else { s with digits := next, power := s.power - 1 }

/-- The digits before the point that do not fit leave room for digits after it. -/
def scan (n : Numeral) : Scan :=
  let s := n.whole.foldl Scan.whole ⟨0, 0, false⟩
  n.fraction.foldl Scan.fraction { s with full := false }

def toDouble (n : Numeral) : Option Double :=
  let s := n.scan
  match n.power with
  | none => Double.ofDecimal n.negative s.digits s.power
  | some (negative, digits) =>
    let power := digitsValue digits
    if maxPower < power then
      if s.digits ≠ 0 ∧ negative = false then none else some (Double.zero n.negative)
    else Double.ofDecimal n.negative s.digits (s.power + if negative then -(power : Int) else power)

def toInt? (n : Numeral) : Option Int :=
  if n.fraction = [] ∧ n.power = none then
    let k := digitsValue n.whole
    if n.negative then if k ≠ 0 ∧ minSigned ≤ -(k : Int) then some (-(k : Int)) else none
    else if k ≤ maxUnsigned then some k else none
  else none

def toJson (n : Numeral) : Json :=
  match n.toInt? with
  | some k => .int k
  | none =>
    match n.toDouble with
    | some x => .real x
    | none => .unreadable

def read (cs : List Char) : Option (Numeral × List Char) :=
  let (negative, cs) := match cs with
    | '-' :: rest => (true, rest)
    | _ => (false, cs)
  let whole := cs.takeWhile isDigit
  let rest := cs.dropWhile isDigit
  if whole = [] ∨ (whole.head? = some '0' ∧ 1 < whole.length) then none
  else
    let pointed := match rest with
      | '.' :: rest =>
        let fraction := rest.takeWhile isDigit
        if fraction = [] then none else some (fraction, rest.dropWhile isDigit)
      | _ => some ([], rest)
    match pointed with
    | none => none
    | some (fraction, rest) =>
      let powered := match rest with
        | 'e' :: rest | 'E' :: rest =>
          let (sign, rest) := match rest with
            | '-' :: rest => (true, rest)
            | '+' :: rest => (false, rest)
            | _ => (false, rest)
          let digits := rest.takeWhile isDigit
          if digits = [] then none else some (some (sign, digits), rest.dropWhile isDigit)
        | _ => some (none, rest)
      match powered with
      | none => none
      | some (power, rest) => some (⟨negative, whole, fraction, power⟩, rest)

end Numeral

end SecureArith.Json
