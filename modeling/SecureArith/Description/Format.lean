import SecureArith.Description.Basic
import SecureArith.Program.Format

set_option autoImplicit false

/-!
# Descriptions as JSON

An expression is an integer, a double, the name of a variable, or an object with `op` and `args`;
calls are the only records that cannot be written as arrays.
-/

namespace SecureArith

open Json (Decoder Fields)

namespace Description

namespace Expr

mutual

def toJson : Expr → Json
  | .int n => .int n
  | .float x => .real x
  | .var name => .str name
  | .call callee args => .obj [("op", .str callee), ("args", .arr (toJsonAll args))]

def toJsonAll : List Expr → List Json
  | [] => []
  | e :: rest => e.toJson :: toJsonAll rest

end

/-- Integers beyond the signed ones are read as doubles. -/
def ofInt (n : Int) : Expr :=
  match Decoder.signed 0 (.int n) with
  | some n => .int n
  | none => .float (.ofInt n)

mutual

def ofJson : Json → Option Expr
  | .int n => some (ofInt n)
  | .real x => some (.float x)
  | .str name => some (.var name)
  | .obj fields =>
    match Fields.lookup fields "op", argsOfFields fields with
    | some (some (.str callee)), some args => some (.call callee args)
    | _, _ => none
  | _ => none

def argsOfFields : List (String × Json) → Option (List Expr)
  | [] => none
  | (name, j) :: rest =>
    if name = "args" then
      match j with
      | .arr items => if rest.any (·.1 == "args") then none else ofItems items
      | _ => none
    else argsOfFields rest

def ofItems : List Json → Option (List Expr)
  | [] => some []
  | j :: rest =>
    match ofJson j, ofItems rest with
    | some e, some es => some (e :: es)
    | _, _ => none

end

def decode : Decoder Expr := fun room j =>
  if j.readable && j.depth ≤ room then ofJson j else none

end Expr

namespace Statement

def toJson : Statement → Json
  | .ret e => .obj [("return", e.toJson)]
  | .assign target e => .obj [("assign", .obj [("var", .str target), ("value", e.toJson)])]
  | .eval e => .obj [("eval", e.toJson)]

def decode : Decoder Statement := Decoder.tagged fun tag room j =>
  match tag with
  | "return" => (Expr.decode room j).map .ret
  | "assign" => do
    let f ← Fields.read ["var", "value"] room j
    return .assign (← f.required 0 Decoder.string) (← f.required 1 Expr.decode)
  | "eval" => (Expr.decode room j).map .eval
  | _ => none

end Statement

namespace VarDecl

def toJson (v : VarDecl) : Json :=
  .obj [("name", .str v.name), ("type", .ofOption .str v.type)]

def decode : Decoder VarDecl := fun room j => do
  let f ← Fields.read ["name", "type"] room j
  return ⟨← f.required 0 Decoder.string, ← f.withDefault 1 none Decoder.string.option⟩

end VarDecl

namespace OperatorDecl

def toJson (o : OperatorDecl) : Json :=
  .obj [("receiver", .str o.receiver), ("operator", .str o.operator),
    ("operands", .ofList .str o.operands), ("result", .str o.result)]

def decode : Decoder OperatorDecl := fun room j => do
  let f ← Fields.read ["receiver", "operator", "operands", "result"] room j
  return ⟨← f.required 0 Decoder.string, ← f.required 1 Decoder.string,
    ← f.required 2 Decoder.string.list, ← f.required 3 Decoder.string⟩

end OperatorDecl

namespace HelperDecl

def toJson (h : HelperDecl) : Json :=
  .obj [("name", .str h.name), ("result", .ofOption .str h.result)]

def decode : Decoder HelperDecl := fun room j => do
  let f ← Fields.read ["name", "result"] room j
  return ⟨← f.required 0 Decoder.string, ← f.withDefault 1 none Decoder.string.option⟩

end HelperDecl

namespace FunctionDecl

def toJson (d : FunctionDecl) : Json :=
  .obj [("name", .str d.name), ("mpc", .ofOption .str d.mpc), ("params", .ofList .str d.params),
    ("attributes", d.attributes.toJson), ("body", .ofList Statement.toJson d.body)]

def decode : Decoder FunctionDecl := fun room j => do
  let f ← Fields.read ["name", "mpc", "params", "attributes", "body"] room j
  return ⟨← f.required 0 Decoder.string, ← f.withDefault 1 none Decoder.string.option,
    ← f.withDefault 2 [] Decoder.string.list, ← f.withDefault 3 {} Attributes.decode,
    ← f.required 4 Statement.decode.list⟩

end FunctionDecl

def toJson (d : Description) : Json :=
  .obj [("vars", .ofList VarDecl.toJson d.vars),
    ("operators", .ofList OperatorDecl.toJson d.operators),
    ("helpers", .ofList HelperDecl.toJson d.helpers),
    ("functions", .ofList FunctionDecl.toJson d.functions)]

def decode : Decoder Description := fun room j => do
  let f ← Fields.read ["vars", "operators", "helpers", "functions"] room j
  return { vars := ← f.withDefault 0 [] VarDecl.decode.list
           operators := ← f.withDefault 1 [] OperatorDecl.decode.list
           helpers := ← f.withDefault 2 [] HelperDecl.decode.list
           functions := ← f.withDefault 3 [] FunctionDecl.decode.list }

end Description

end SecureArith
