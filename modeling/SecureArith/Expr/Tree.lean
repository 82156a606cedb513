import SecureArith.Expr.Node

set_option autoImplicit false

/-!
# Trees

The tree of a node is the node with its children unfolded, as far as they are looked at. `nil` is a
place without child and `missing` an index that is not in the store; in a store without cycles it
occurs nowhere else. Trees are looked at, the store is what changes.
-/

namespace SecureArith

inductive Side where
  | left
  | right
  deriving DecidableEq, Repr

/-- A child is a function of its side, so that nodes with two parents cost nothing until they are
looked at. -/
inductive Tree where
  | nil
  | missing (id : NodeId)
  | node (id : NodeId) (label : Label) (child : Side → Tree)
  deriving Inhabited

def Node.child (n : Node) : Side → Option NodeId
  | .left => n.left
  | .right => n.right

namespace Store

/-- The first argument bounds the depth. -/
def unfold (s : Store) : Nat → NodeId → Tree
  | 0, id => .missing id
  | depth + 1, id =>
    match s.get? id with
    | none => .missing id
    | some n => .node id n.toLabel fun side => ((n.child side).map (s.unfold depth)).getD .nil

/-- A store without cycles is no deeper than it is large. -/
def tree (s : Store) (id : NodeId) : Tree := s.unfold s.size id

end Store

namespace Tree

def isNil : Tree → Bool
  | .nil => true
  | _ => false

def id? : Tree → Option NodeId
  | .nil => none
  | .missing id | .node id .. => some id

def complete : Tree → Bool
  | .nil => true
  | .missing _ => false
  | .node _ _ child => (child .left).complete && (child .right).complete

/-- No index is missing where the text of the tree needs it. -/
def printable : Tree → Bool
  | .nil => true
  | .missing _ => false
  | .node _ label child =>
    label.op.isNone || ((child .left).printable && (child .right).printable)

/-- An operation in brackets with the operator first. A node without operator hides its
children. -/
def text : Tree → String
  | .nil | .missing _ => ""
  | .node _ label child =>
    match label.op with
    | some op =>
      "(" ++ op.name ++ (if (child .left).isNil then "" else " " ++ (child .left).text) ++
        (if (child .right).isNil then "" else " " ++ (child .right).text) ++ ")"
    | none => label.text

def text? (t : Tree) : Option String := if t.printable then some t.text else none

/-- The indices, a node before its children and left before right. -/
def preorder : Tree → List NodeId
  | .nil => []
  | .missing id => [id]
  | .node id _ child => id :: ((child .left).preorder ++ (child .right).preorder)

def size : Tree → Nat
  | .nil => 0
  | .missing _ => 1
  | .node _ _ child => (child .left).size + (child .right).size + 1

theorem length_preorder (t : Tree) : t.preorder.length = t.size := by
  induction t with
  | nil | missing => rfl
  | node _ _ _ ih => simp [preorder, size, ih]

def count (op : Operator) : Tree → Nat
  | .nil | .missing _ => 0
  | .node _ label child =>
    (child .left).count op + (child .right).count op + if label.isOp op then 1 else 0

def edges : Tree → Nat
  | .nil | .missing _ => 0
  | .node _ _ child =>
    (child .left).edges + (child .right).edges + (if (child .left).isNil then 0 else 1) +
      (if (child .right).isNil then 0 else 1)

/-- Equal up to the order of the operands of operators that commute. Leaves are equal when they
hold the same constant or read the same variable; other values equal nothing. There is no answer
when the comparison comes upon a missing index. -/
def same? : Tree → Tree → Option Bool
  | .nil, .nil => some true
  | .nil, _ | _, .nil => some false
  | .node _ a child, .node _ b child' =>
    if (child .left).isNil && (child .right).isNil then
      some ((child' .left).isNil && (child' .right).isNil && a.sameAtom b)
    else if (child' .left).isNil && (child' .right).isNil || !a.opsAgree b then some false
    else
      ((child .left).same? (child' .left) <&&> (child .right).same? (child' .right)) <||>
        (pure a.commutes <&&> (child .left).same? (child' .right) <&&>
          (child .right).same? (child' .left))
  | _, _ => none

theorem isSome_same?_of_complete {a b : Tree} (ha : a.complete) (hb : b.complete) :
    (a.same? b).isSome := by
  induction a generalizing b with
  | nil => cases b <;> simp [same?]
  | missing => simp [complete] at ha
  | node _ label child ih =>
    cases b with
    | nil => simp [same?]
    | missing => simp [complete] at hb
    | node _ label' child' =>
      simp only [complete, Bool.and_eq_true] at ha hb
      obtain ⟨x, hx⟩ := Option.isSome_iff_exists.mp (ih .left ha.1 hb.1)
      obtain ⟨y, hy⟩ := Option.isSome_iff_exists.mp (ih .right ha.2 hb.2)
      obtain ⟨z, hz⟩ := Option.isSome_iff_exists.mp (ih .left ha.1 hb.2)
      obtain ⟨w, hw⟩ := Option.isSome_iff_exists.mp (ih .right ha.2 hb.1)
      simp only [same?, hx, hy, hz, hw]
      split
      · rfl
      · split
        · rfl
        · cases x <;> cases y <;> cases label.commutes <;> cases z <;> cases w <;> rfl

end Tree

namespace Store

/-- A level has at most twice as many nodes as the one above it. -/
theorem size_unfold_lt (s : Store) (depth : Nat) (id : NodeId) :
    (s.unfold depth id).size < 1 <<< (depth + 1) := by
  induction depth generalizing id with
  | zero => simp [unfold, Tree.size]
  | succ depth ih =>
    have positive : 0 < 1 <<< (depth + 1) := by
      rw [Nat.one_shiftLeft]
      exact Nat.two_pow_pos (depth + 1)
    have double : 1 <<< (depth + 1 + 1) = 2 * 1 <<< (depth + 1) := Nat.shiftLeft_succ 1 (depth + 1)
    have child (c : Option NodeId) :
        ((c.map (s.unfold depth)).getD .nil).size < 1 <<< (depth + 1) := by
      cases c with
      | none => exact positive
      | some id => simpa using ih id
    simp only [unfold]
    split
    · simp only [Tree.size]
      omega
    · rename_i n _
      have left := child (n.child .left)
      have right := child (n.child .right)
      simp only [Tree.size]
      omega

end Store

end SecureArith
