import SecureArith.Expr.Edit

set_option autoImplicit false

/-!
# Expressions of values

Calls of one or two operands become operations, and all other values leaves. The expressions that
are transformed have operations of two operands only, so that each can be linked again; their
leaves count as expanded unless they read a variable.
-/

namespace SecureArith

def Value.isRead (v : Value) : Bool :=
  match v.kind with
  | .var _ => true
  | _ => false

namespace Store

def valueOf (p : Program) (id : ValueId) : StoreM Value :=
  match p.values[id]? with
  | some v => return v
  | none => throw .outOfRange

def operatorOf (p : Program) (func : FuncId) : StoreM Operator :=
  match p.funcName? func with
  | some name => return .ofName name
  | none => throw .outOfRange

def appendCall (v : Value) (op : Operator) (left : NodeId) (right : Option NodeId) :
    StoreM NodeId :=
  append
    { origin := some (.ofValue v), memo := v.type, op := some op, left := some left, right }

def operandOf (args : List ValueId) (position : Nat) : StoreM ValueId :=
  match args[position]? with
  | some a => return a
  | none => throw .outOfRange

/-- The expression of a value. The first number bounds the depth. -/
def buildTo (p : Program) : Nat → ValueId → StoreM NodeId
  | 0, _ => throw .outOfRange
  | depth + 1, id => do
    let v ← valueOf p id
    let leaf := append { origin := some (.ofValue v) }
    match v.kind with
    | .call func args =>
      if args.length = 1 ∨ args.length = 2 then
        let op ← operatorOf p func
        let left ← buildTo p depth (← operandOf args 0)
        let right ← args[1]?.mapM (buildTo p depth)
        appendCall v op left right
      else leaf
    | _ => leaf

def build (p : Program) (id : ValueId) : StoreM NodeId := buildTo p p.values.size id

/-- The expression of a value with operations of two operands only. -/
def buildBinaryTo (p : Program) : Nat → ValueId → StoreM NodeId
  | 0, _ => throw .outOfRange
  | depth + 1, id => do
    let v ← valueOf p id
    let leaf := append { origin := some (.ofValue v), expanded := !v.isRead }
    match v.kind with
    | .call func args =>
      if args.length = 2 then
        let op ← operatorOf p func
        let left ← buildBinaryTo p depth (← operandOf args 0)
        let right ← buildBinaryTo p depth (← operandOf args 1)
        appendCall v op left (some right)
      else leaf
    | _ => leaf

def buildBinary (p : Program) (id : ValueId) : StoreM NodeId := buildBinaryTo p p.values.size id

end Store

end SecureArith
