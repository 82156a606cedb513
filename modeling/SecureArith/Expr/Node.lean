import SecureArith.Operator
import SecureArith.Program.Text

set_option autoImplicit false

/-!
# Expression nodes

Nodes live in a `Store` and refer to their children by index. A node without children is a leaf.
Overwriting the node at an index changes it for whoever refers to the index.
-/

namespace SecureArith

abbrev NodeId := Nat

/-- What a program value is to an expression. -/
inductive Atom where
  | int (n : Int)
  | float (x : Double)
  | var (v : VarId)
  /-- A value that expressions do not look into. -/
  | other
  deriving DecidableEq, Repr

namespace Atom

def ofKind : ValueKind → Atom
  | .int n => .int n
  | .float x => .float x
  | .var v => .var v
  | .call .. | .tuple _ => .other

/-- The same constant or the same variable. -/
def same : Atom → Atom → Bool
  | .int a, .int b => a == b
  | .float x, .float y => x.equal y
  | .var v, .var w => v == w
  | _, _ => false

theorem same_comm (a b : Atom) : a.same b = b.same a := by
  cases a <;> cases b <;> simp only [same, Double.equal_comm, Bool.beq_comm]

end Atom

/-- The program value that a node was made from. -/
structure Origin where
  id : ValueId
  type : Option TypeName
  atom : Atom
  deriving DecidableEq, Repr

def Origin.ofValue (v : Value) : Origin := ⟨v.id, v.type, .ofKind v.kind⟩

/-- What a node holds besides its children. -/
structure Label where
  origin : Option Origin := none
  /-- The type, once it has been found. -/
  memo : Option TypeName := none
  op : Option Operator := none
  /-- Variables under this node have been replaced by their trees. -/
  expanded : Bool := false
  deriving DecidableEq, Repr

namespace Label

def isOp (l : Label) (op : Operator) : Bool := l.op == some op

def atom? (l : Label) : Option Atom := l.origin.map (·.atom)

def type? (l : Label) : Option TypeName := l.origin.bind (·.type)

def sameAtom (a b : Label) : Bool :=
  match a.atom?, b.atom? with
  | some x, some y => x.same y
  | _, _ => false

/-- Two operators, when there are two, are the same. -/
def opsAgree (a b : Label) : Bool :=
  match a.op, b.op with
  | some x, some y => x == y
  | _, _ => true

def commutes (l : Label) : Bool := l.op.any (·.commutes)

def text (l : Label) : String :=
  match l.origin with
  | some ⟨_, _, .int n⟩ => toString n
  | some ⟨_, _, .float x⟩ => floatText x
  | some ⟨_, _, .var v⟩ => "$" ++ toString v
  | some ⟨id, _, .other⟩ => "?" ++ toString id
  | none => "?"

end Label

structure Node extends Label where
  left : Option NodeId := none
  right : Option NodeId := none
  deriving DecidableEq, Repr

namespace Node

def isLeaf (n : Node) : Bool := n.left.isNone && n.right.isNone

def leafAtom? (n : Node) : Option Atom := if n.isLeaf then n.atom? else none

def var? (n : Node) : Option VarId :=
  match n.leafAtom? with
  | some (.var v) => some v
  | _ => none

def int? (n : Node) : Option Int :=
  match n.leafAtom? with
  | some (.int k) => some k
  | _ => none

def children (n : Node) : List NodeId := n.left.toList ++ n.right.toList

def hasChild (n : Node) (id : NodeId) : Bool := n.left == some id || n.right == some id

end Node

structure Store where
  nodes : Array Node := #[]
  deriving DecidableEq, Repr

namespace Store

def size (s : Store) : Nat := s.nodes.size

def get? (s : Store) (id : NodeId) : Option Node := s.nodes[id]?

def alloc (s : Store) (n : Node) : NodeId × Store := (s.nodes.size, ⟨s.nodes.push n⟩)

def update (s : Store) (id : NodeId) (f : Node → Node) : Store := ⟨s.nodes.modify id f⟩

def leaf (s : Store) (origin : Option Origin) : NodeId × Store := s.alloc { origin }

def operation (s : Store) (op : Operator) (left : NodeId) (right : Option NodeId) :
    NodeId × Store :=
  s.alloc { op := some op, left := some left, right }

@[simp] theorem get?_alloc (s : Store) (n : Node) (id : NodeId) :
    (s.alloc n).2.get? id = if id = s.size then some n else s.get? id := by
  simp only [alloc, get?, size, Array.getElem?_push]
  rfl

theorem size_alloc (s : Store) (n : Node) : (s.alloc n).2.size = s.size + 1 := by
  simp [alloc, size]

@[simp] theorem get?_update (s : Store) (f : Node → Node) (target id : NodeId) :
    (s.update target f).get? id = if target = id then (s.get? id).map f else s.get? id := by
  simp only [update, get?, Array.getElem?_modify]

@[simp] theorem size_update (s : Store) (f : Node → Node) (id : NodeId) :
    (s.update id f).size = s.size := by
  simp [update, size]

end Store

end SecureArith
