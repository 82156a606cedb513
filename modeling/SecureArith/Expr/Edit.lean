import SecureArith.Expr.Tree
import SecureArith.Failure

set_option autoImplicit false

/-!
# Editing a store

An edit fails at the first index that is not in the store. What was changed until then stays.
-/

namespace SecureArith

abbrev StoreM := EStateM Failure Store

namespace Store

def read (id : NodeId) : StoreM Node := do
  match (← get).get? id with
  | some n => return n
  | none => throw .outOfRange

def append (n : Node) : StoreM NodeId := modifyGet (·.alloc n)

def write (id : NodeId) (f : Node → Node) : StoreM Unit := do
  let _ ← read id
  modify (·.update id f)

def setMemo (id : NodeId) (memo : Option TypeName) : StoreM Unit :=
  write id fun n => { n with memo }

/-- The node at `target` becomes the one at `source`, children included. -/
def overwrite (target source : NodeId) : StoreM Unit := do
  if target = source then return
  let n ← read source
  write target fun _ => n

/-- Appends a copy of a tree, children first. The first argument bounds the depth. -/
def copyTo : Nat → NodeId → StoreM NodeId
  | 0, _ => throw .outOfRange
  | depth + 1, id => do
    let n ← read id
    let left ← n.left.mapM (copyTo depth)
    let right ← n.right.mapM (copyTo depth)
    append { n with left, right }

def copy (id : NodeId) : StoreM NodeId := do copyTo (← get).size id

end Store

end SecureArith
