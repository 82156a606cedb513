import SecureArith.Encoding.Basic
import SecureArith.Expr.Typing
import SecureArith.Forest.Basic

set_option autoImplicit false

/-!
# Forests as records

Records follow the order of the forest's nodes. A node is identified by the value that it was made
from, or by a number after the program's last value when it has none or another node has taken it.
-/

namespace SecureArith

namespace Encoding

/-- Identities given so far: of the nodes, the numbers that are taken, and the next free one. -/
structure Naming where
  names : List (NodeId × Int) := []
  taken : List Int := []
  free : Int

namespace Naming

def give (m : Naming) (id : NodeId) (name : Int) : Naming :=
  { m with
    names := if (m.names.lookup id).isSome then m.names else (id, name) :: m.names
    taken := name :: m.taken }

def step (s : Store) (m : Naming) (id : NodeId) : Naming :=
  match (s.get? id).bind (·.origin) with
  | some origin =>
    if m.taken.contains (origin.id : Int) then { m.give id m.free with free := m.free + 1 }
    else m.give id origin.id
  | none => { m.give id m.free with free := m.free + 1 }

end Naming

/-- The identity of every node; a node that occurs twice keeps its first one. -/
def identities (s : Store) (values : Nat) (order : List NodeId) : List (NodeId × Int) :=
  (order.foldl (Naming.step s) { free := values }).names

def identity (names : List (NodeId × Int)) (child : Option NodeId) : Int :=
  (child.bind (names.lookup ·)).getD Record.absent

end Encoding

def Node.toRecord (n : Node) (names : List (NodeId × Int)) (params : List VarId) (id : NodeId)
    (type : TypeName) : Record where
  id := Encoding.identity names (some id)
  left := Encoding.identity names n.left
  right := Encoding.identity names n.right
  param := ((n.var?.bind (params.idxOf? ·)).map Int.ofNat).getD Record.absent
  var := (n.var?.map Int.ofNat).getD Record.absent
  operator := (n.op.map (·.name)).getD ""
  type := type

namespace Store

def record (c : Classifier) (names : List (NodeId × Int)) (params : List VarId) (id : NodeId) :
    StoreM Record := do
  let type ← typeAt c false id
  let n ← read id
  if (id :: n.children).all fun k => (names.lookup k).isSome then
    return n.toRecord names params id type
  else throw .outOfRange

end Store

namespace Forest

/-- The records of all trees. Types that were found stay in the store. -/
def encode (c : Classifier) (f : Forest) (values : Nat) (params : List VarId) :
    StoreM Encoding := do
  match f.nodes? with
  | some order =>
    let names := Encoding.identities f.store values order
    order.mapM (Store.record c names params)
  | none => throw .outOfRange

end Forest

end SecureArith
