import SecureArith.Work

set_option autoImplicit false

/-!
# Reordering priorities

In a chain of an operator that commutes, cheap operands are combined with each other before they
meet a secure one: `(s + a) + b` becomes `(b + a) + s` for a secure `s`.
-/

namespace SecureArith

namespace Node

/-- Puts another child in the place of one. The left place goes first. -/
def withChild (n : Node) (old new : NodeId) : Node :=
  if n.left = some old then { n with left := some new } else { n with right := some new }

end Node

namespace Work

def exchange (c : Classifier) (root child sibling operand : NodeId) : Work Unit := do
  onStore (Store.write child (·.withChild operand sibling))
  onStore (Store.write root (·.withChild sibling operand))
  onStore (Store.setMemo child none)
  let _ ← typeAt c false child
  noteAt .debug do return .reordered (← shown root)

/-- Exchanges a sibling of a child with the only secure operand of the child, if the sibling is
cheap. -/
def exchangeSecure (c : Classifier) (root child sibling : NodeId) (k : Node) : Work Bool := do
  if ← isSecure c sibling then return false
  match k.left, k.right with
  | some a, some b =>
    let secureA ← isSecure c a
    let secureB ← isSecure c b
    if secureA = secureB then return false
    exchange c root child sibling (if secureA then a else b)
    return true
  | _, _ => return false

/-- Swaps the priorities of an operation and a child of the same operator, if that puts a secure
operand last. -/
def swap (c : Classifier) (root child : NodeId) : Work Bool := do
  let r ← node root
  if !r.hasChild child then throw (.notChild child root)
  let k ← node child
  if r.op.isNone || r.op != k.op then throw (.operatorsDiffer (← shown root) (← shown child))
  match r.left, r.right with
  | some left, some right =>
    exchangeSecure c root child (if left = child then right else left) k
  | _, _ => return false

def isConsecutive (id : NodeId) : Work Bool := do
  let n ← node id
  match n.op with
  | some op =>
    if op.commutes then n.children.anyM fun child => return (← node child).isOp op
    else return false
  | none => return false

def swapChild (c : Classifier) (root : NodeId) (op : Option Operator) (child : NodeId) :
    Work Bool := do
  if (← node child).op = op then swap c root child else return false

/-- The first swap that is possible, a node before its children. The number bounds the depth. -/
def reorderOnceTo (c : Classifier) : Nat → NodeId → Work Bool
  | 0, _ => throw .outOfRange
  | depth + 1, id => do
    let n ← node id
    if n.isLeaf then return false
    if !(← isSecure c id) then return false
    if ← isConsecutive id then
      if ← n.children.anyM (swapChild c id n.op) then return true
    n.children.anyM (reorderOnceTo c depth)

def reorderOnce (c : Classifier) (id : NodeId) : Work Bool := do
  reorderOnceTo c (← get).forest.store.size id

def reorderUpTo (c : Classifier) (root : NodeId) (limit : Nat) : Nat → Work Nat
  | 0 => do
    noteAt .warn do return .reorderingStopped limit (← shown root)
    return limit
  | n + 1 => do
    if ← reorderOnce c root then reorderUpTo c root limit n else return limit - (n + 1)

def reorderAll (c : Classifier) (root : NodeId) : Work Bool := do
  let size := (← completeTree root).size
  let limit := max (size * size) 16
  return 0 < (← reorderUpTo c root limit limit)

end Work

end SecureArith
