import SecureArith.Json.Reader

set_option autoImplicit false

/-!
# From JSON to data

A decoder gets a value and the number of levels of arrays and objects that it may still open. A
record is written as an object, whose unknown fields are skipped and whose known fields occur once
at most, or as an array of its fields in order.
-/

namespace SecureArith.Json

/-- The levels that a whole text may have. -/
def maxDepth : Nat := 127

abbrev Decoder (α : Type) := Nat → Json → Option α

namespace Decoder

variable {α : Type}

def bool : Decoder Bool
  | _, .bool b => some b
  | _, _ => none

def string : Decoder String
  | _, .str s => some s
  | _, _ => none

/-- An integer between two bounds. -/
def integer (low high : Int) : Decoder Int
  | _, .int n => if low ≤ n ∧ n ≤ high then some n else none
  | _, _ => none

def signed : Decoder Int := integer Numeral.minSigned Numeral.maxSigned

def natural (bits : Nat) : Decoder Nat := fun room j =>
  (integer 0 ((1 <<< bits : Nat) - 1) room j).map Int.toNat

def counter : Decoder Nat := natural 64

def index : Decoder Nat := natural 32

def double : Decoder Double
  | _, .int n => some (Double.ofInt n)
  | _, .real x => some x
  | _, _ => none

def option (d : Decoder α) : Decoder (Option α)
  | _, .null => some none
  | room, j => (d room j).map some

def list (d : Decoder α) : Decoder (List α)
  | room + 1, .arr items => items.mapM (d room)
  | _, _ => none

/-- An object with a single field. -/
def tagged (d : String → Decoder α) : Decoder α
  | room + 1, .obj [(tag, j)] => d tag room j
  | _, _ => none

end Decoder

/-- The fields of a record in the order of their names. -/
structure Fields where
  room : Nat
  /-- The record is an array. -/
  positional : Bool
  values : List (Option Json)

namespace Fields

variable {α : Type}

/-- The value of the only field of a name. There is no answer when the name is repeated. -/
def lookup (fields : List (String × Json)) (name : String) : Option (Option Json) :=
  match fields.filter (·.1 == name) with
  | [] => some none
  | [(_, j)] => some (some j)
  | _ => none

def read (names : List String) : Decoder Fields
  | room + 1, .obj fields =>
    (names.mapM (lookup fields)).map fun values => ⟨room, false, values⟩
  | room + 1, .arr items =>
    if items.length ≤ names.length then some ⟨room, true, items.map some⟩ else none
  | _, _ => none

def value? (f : Fields) (i : Nat) : Option Json := (f.values[i]?).join

def required (f : Fields) (i : Nat) (d : Decoder α) : Option α :=
  (f.value? i).bind (d f.room)

/-- A field that is given or falls back to a default. -/
def withDefault (f : Fields) (i : Nat) (default : α) (d : Decoder α) : Option α :=
  match f.value? i with
  | none => some default
  | some j => d f.room j

/-- A field that only objects may leave out. -/
def optional (f : Fields) (i : Nat) (d : Decoder α) : Option (Option α) :=
  match f.value? i with
  | none => if f.positional then none else some none
  | some j => d.option f.room j

end Fields

def Decoder.ofText {α : Type} (d : Decoder α) (text : String) : Option α :=
  (parse text).bind (d maxDepth)

end SecureArith.Json
