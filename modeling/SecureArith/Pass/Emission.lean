import SecureArith.Work

set_option autoImplicit false

/-!
# Values of expressions

A leaf yields the value that it was made from. An operation is linked to the operator registered
for the types of its operands and becomes a new call.
-/

namespace SecureArith

namespace Work

/-- The callee of an operation on operands of these types. The first one receives it. -/
def link (op : Operator) (types : List TypeName) : Work FuncId := do
  let receiver ← demand types[0]?
  match (← get).program.resolve? ⟨receiver, op.name, types⟩ with
  | some func => return func
  | none => throw (.unlinked op.name receiver types)

/-- A new call, remembered in the node that it computes. -/
def emitCall (id : NodeId) (func : FuncId) (args : List ValueId) : Work ValueId := do
  let call ← addCall func args
  let v ← value call
  onStore (Store.write id fun n => { n with origin := some (.ofValue v) })
  return call

def emitTo (c : Classifier) : Nat → NodeId → Work ValueId
  | 0, _ => throw .outOfRange
  | depth + 1, id => do
    let n ← node id
    if n.isLeaf then
      match n.origin with
      | some origin => return origin.id
      | none => throw (.noValue id)
    else
      match n.op, n.left with
      | some op, some _ =>
        let types ← n.children.mapM (typeAt c false)
        let func ← link op types
        let args ← n.children.mapM (emitTo c depth)
        emitCall id func args
      | _, _ => throw (.unfinished id)

def emit (c : Classifier) (id : NodeId) : Work ValueId := do
  emitTo c (← get).forest.store.size id

end Work

end SecureArith
