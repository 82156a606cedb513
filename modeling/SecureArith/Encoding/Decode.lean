import SecureArith.Encoding.Basic
import SecureArith.Expr.Edit

set_option autoImplicit false

/-!
# Forests of records

Of records with the same identity the first one counts. Those that no record names as a child are
the roots. A node with two parents is built twice.
-/

namespace SecureArith

namespace Encoding

def record? (e : Encoding) (id : Int) : Option Record := e.find? (·.id == id)

def childIds (e : Encoding) : List Int :=
  (e.flatMap fun r => [r.left, r.right]).filter (· != Record.absent)

/-- The identities that are no children, in order of first appearance. -/
def rootIds (e : Encoding) : List Int :=
  let children := e.childIds
  (e.map (·.id)).filter (fun id => !children.contains id) |>.eraseDups

end Encoding

namespace Record

def indexLimit : Int := 0x100000000

def toIndex? (n : Int) : Option Nat := if 0 ≤ n ∧ n < indexLimit then some n.toNat else none

/-- What a node was made from: the program's value of that index when it has no left child, else
the variable or something unknown. -/
def origin (r : Record) (values : Array Value) (id : ValueId) (left : Option NodeId) : Origin :=
  let named : Origin := ⟨id, some r.type,
    match toIndex? r.var, left with
    | some v, none => .var v
    | _, _ => .other⟩
  match left, values[id]? with
  | none, some v => .ofValue v
  | _, _ => named

def node (r : Record) (values : Array Value) (id : ValueId) (left right : Option NodeId) : Node :=
  { origin := some (r.origin values id left)
    memo := some r.type
    op := if r.operator.isEmpty then none else some (.ofName r.operator)
    expanded := true
    left
    right }

end Record

namespace Encoding

/-- Builds the node of an identity. The first argument bounds the depth, and `path` has the
identities above. -/
def build (e : Encoding) (values : Array Value) : Nat → List Int → Int → StoreM NodeId
  | 0, _, id => throw (.cyclicRecord id)
  | depth + 1, path, id =>
    match e.record? id with
    | none => throw (.unknownRecord id)
    | some r => do
      if path.contains id then throw (.cyclicRecord id)
      let child (c : Int) : StoreM (Option NodeId) :=
        if c = Record.absent then return none
        else some <$> build e values depth (id :: path) c
      let left ← child r.left
      let right ← child r.right
      match Record.toIndex? id with
      | some index => modifyGet (·.alloc (r.node values index left right))
      | none => throw (.invalidIdentity id)

/-- The trees of all roots, in a store of their own. No path is longer than the encoding. -/
def toTrees (e : Encoding) (values : Array Value) : Except Failure (Store × List NodeId) :=
  match (e.rootIds.mapM (build e values (e.length + 1) [])).run {} with
  | .ok roots s => .ok (s, roots)
  | .error f _ => .error f

end Encoding

end SecureArith
