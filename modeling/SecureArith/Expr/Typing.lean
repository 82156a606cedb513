import SecureArith.Expr.Edit

set_option autoImplicit false

/-!
# Types of expressions

A leaf has the type of the value that it was made from. An operation has the type of its ciphertext
operand if there is one, else of its plaintext operand, else of its left operand. Types that have
been found are kept in the nodes.
-/

namespace SecureArith

namespace Classifier

/-- The type of a node from the types of its children. -/
def combine? (c : Classifier) : Option TypeName → Option TypeName → Option TypeName
  | some l, some r => some (c.combine l r)
  | l, r => l.or r

end Classifier

namespace Store

/-- Finds the type of a node and keeps it there. Kept types are trusted unless `force` is set. The
first number bounds the depth. -/
def realize (c : Classifier) (force : Bool) : Nat → NodeId → StoreM TypeName
  | 0, _ => throw .outOfRange
  | depth + 1, id => do
    let n ← read id
    match if force then none else n.memo with
    | some type => return type
    | none =>
      let left ← n.left.mapM (realize c force depth)
      let right ← n.right.mapM (realize c force depth)
      match (c.combine? left right).or n.type? with
      | some type =>
        setMemo id (some type)
        return type
      | none => throw (.untypeable ((← get).tree id).text)

def typeAt (c : Classifier) (force : Bool) (id : NodeId) : StoreM TypeName := do
  realize c force (← get).size id

end Store

end SecureArith
