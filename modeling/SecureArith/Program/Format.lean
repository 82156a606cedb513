import SecureArith.Program.Basic
import SecureArith.Json.Decoder

set_option autoImplicit false

/-!
# Program parts as JSON

Alternatives are objects with one field, named for the alternative.
-/

namespace SecureArith

open Json (Decoder Fields)

namespace ValueKind

def toJson : ValueKind → Json
  | .int n => .obj [("IntConst", .int n)]
  | .float x => .obj [("FloatConst", .real x)]
  | .var v => .obj [("Var", .nat v)]
  | .call func args =>
    .obj [("Call", .obj [("func", .nat func), ("args", .ofList .nat args)])]
  | .tuple elements => .obj [("Tuple", .ofList .nat elements)]

def decode : Decoder ValueKind := Decoder.tagged fun tag room j =>
  match tag with
  | "IntConst" => (Decoder.signed room j).map .int
  | "FloatConst" => (Decoder.double room j).map .float
  | "Var" => (Decoder.index room j).map .var
  | "Call" => do
    let f ← Fields.read ["func", "args"] room j
    return .call (← f.required 0 Decoder.index) (← f.required 1 Decoder.index.list)
  | "Tuple" => (Decoder.index.list room j).map .tuple
  | _ => none

end ValueKind

namespace Value

def toJson (v : Value) : Json :=
  .obj [("id", .nat v.id), ("ty", .ofOption .str v.type), ("kind", v.kind.toJson)]

def decode : Decoder Value := fun room j => do
  let f ← Fields.read ["id", "ty", "kind"] room j
  return ⟨← f.required 0 Decoder.index, ← f.optional 1 Decoder.string,
    ← f.required 2 ValueKind.decode⟩

end Value

namespace Instruction

def toJson : Instruction → Json
  | .ret v => .obj [("Return", .nat v)]
  | .assign target v => .obj [("Assign", .obj [("lhs", .nat target), ("rhs", .nat v)])]
  | .eval v => .obj [("Eval", .nat v)]

def decode : Decoder Instruction := Decoder.tagged fun tag room j =>
  match tag with
  | "Return" => (Decoder.index room j).map .ret
  | "Assign" => do
    let f ← Fields.read ["lhs", "rhs"] room j
    return .assign (← f.required 0 Decoder.index) (← f.required 1 Decoder.index)
  | "Eval" => (Decoder.index room j).map .eval
  | _ => none

end Instruction

namespace Attributes

def toJson (a : Attributes) : Json :=
  .obj [("cipher_opt", .bool a.minimize), ("enc_opt", .bool a.encode),
    ("reorder_matmul", .bool a.reorderMatmuls)]

def decode : Decoder Attributes := fun room j => do
  let f ← Fields.read ["cipher_opt", "enc_opt", "reorder_matmul"] room j
  return ⟨← f.withDefault 0 false Decoder.bool, ← f.withDefault 1 false Decoder.bool,
    ← f.withDefault 2 false Decoder.bool⟩

end Attributes

namespace Function

def toJson (f : Function) : Json :=
  .obj [("name", .str f.name), ("mpc", .ofOption .nat f.mpc), ("params", .ofList .nat f.params),
    ("body", .ofList Instruction.toJson f.body), ("attributes", f.attributes.toJson)]

def decode : Decoder Function := fun room j => do
  let f ← Fields.read ["name", "mpc", "params", "body", "attributes"] room j
  return ⟨← f.required 0 Decoder.string, ← f.optional 1 Decoder.index,
    ← f.required 2 Decoder.index.list, ← f.required 3 Instruction.decode.list,
    ← f.required 4 Attributes.decode⟩

end Function

end SecureArith
