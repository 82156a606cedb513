import SecureArith.Json.Decoder

set_option autoImplicit false

/-!
# Encodings

An encoding is a list of records of seven fields, one for each node of a forest. `absent` stands
for a child, parameter or variable that is not there.
-/

namespace SecureArith

structure Record where
  id : Int
  left : Int
  right : Int
  /-- Position of the variable among the parameters. -/
  param : Int
  var : Int
  /-- Empty for leaves. -/
  operator : String
  type : String
  deriving DecidableEq, Repr

abbrev Encoding := List Record

namespace Record

open Json (Decoder)

def absent : Int := -1

def isLeaf (r : Record) : Bool := r.left == absent && r.right == absent

def toJson (r : Record) : Json :=
  .arr [.int r.id, .int r.left, .int r.right, .int r.param, .int r.var, .str r.operator,
    .str r.type]

def decode : Decoder Record
  | room + 1, .arr [id, left, right, param, var, operator, type] => do
    return ⟨← Decoder.signed room id, ← Decoder.signed room left, ← Decoder.signed room right,
      ← Decoder.signed room param, ← Decoder.signed room var, ← Decoder.string room operator,
      ← Decoder.string room type⟩
  | _, _ => none

end Record

namespace Encoding

def toJson (e : Encoding) : Json := .ofList Record.toJson e

def decode : Json.Decoder Encoding := Record.decode.list

end Encoding

end SecureArith
