import Mathlib.Algebra.Order.Group.Multiset
import SecureArith.Proofs.Graft

set_option autoImplicit false

/-!
# Sums over trees

A `Tally` adds something up over the nodes of a tree: a leaf counts by its label and any other node
by its operator. The number of nodes of an operator and the leaves are such sums.
-/

namespace SecureArith

/-- What the nodes of a tree count. -/
structure Tally (M : Type) where
  leaf : Label → M
  inner : Option Operator → M

namespace Tree

variable {M : Type} [AddCancelCommMonoid M] {w : Tally M} {t u : Tree} {id : NodeId} {label : Label}
  {child : Side → Tree}

def tally (w : Tally M) : Tree → M
  | .nil | .missing _ => 0
  | .node _ label child =>
    (if childless child then w.leaf label else w.inner label.op) + (child .left).tally w +
      (child .right).tally w

theorem tally_node (inner : childless child = false) (side : Side) :
    (Tree.node id label child).tally w =
      w.inner label.op + (child side).tally w + (child side.flip).tally w := by
  rw [tally, inner, if_neg Bool.false_ne_true]
  cases side with
  | left => rfl
  | right => exact add_right_comm _ _ _

theorem childless_eq_false (side : Side) (there : (child side).isNil = false) :
    childless child = false := by
  cases side <;> simp [childless, there]

theorem Sub.isNil_eq (h : u.Sub t) (there : u.isNil = false) : t.isNil = false := by
  cases h with
  | refl => exact there
  | child => rfl

theorem tally_withId (a : NodeId) (t : Tree) : (t.withId a).tally w = t.tally w := by
  cases t <;> rfl

theorem tally_anonymous (t : Tree) : t.anonymous.tally w = t.tally w := by
  induction t with
  | nil | missing => rfl
  | node id label child ih =>
    simp only [anonymous, tally, ih]
    rw [childless_congr fun side => isNil_anonymous (child side)]

theorem tally_eq_of_anonymous (h : u.anonymous = t.anonymous) : u.tally w = t.tally w := by
  rw [← tally_anonymous, h, tally_anonymous]

end Tree

namespace Tally

def ofOperator (op : Operator) : Tally Nat :=
  ⟨fun label => if label.isOp op then 1 else 0, fun tag => if tag = some op then 1 else 0⟩

/-- The leaves, in any order. -/
def ofLeaves : Tally (Multiset (Option Origin)) := ⟨fun label => {label.origin}, fun _ => 0⟩

/-- The number of nodes with children and without operator. -/
def ofUntagged : Tally Nat := ⟨fun _ => 0, fun tag => if tag.isNone then 1 else 0⟩

end Tally

namespace Tree

theorem tally_ofOperator (op : Operator) (t : Tree) : t.tally (.ofOperator op) = t.count op := by
  induction t with
  | nil | missing => rfl
  | node id label child ih =>
    have head : (if childless child then (Tally.ofOperator op).leaf label
        else (Tally.ofOperator op).inner label.op) = if label.isOp op then 1 else 0 := by
      simp [Tally.ofOperator, Label.isOp]
    rw [tally, head, ih, ih, count]
    omega

theorem tally_ofLeaves (t : Tree) : t.tally .ofLeaves = (t.leaves : Multiset (Option Origin)) := by
  induction t with
  | nil | missing => rfl
  | node id label child ih =>
    rw [tally, leaves]
    split
    · rename_i leaf
      rw [children_of_childless leaf .left, children_of_childless leaf .right]
      rfl
    · rw [ih, ih, ← Multiset.coe_add]
      exact congrArg (· + _) (zero_add _)

theorem tagged_iff (t : Tree) : t.tagged = true ↔ t.tally .ofUntagged = 0 := by
  induction t with
  | nil | missing => simp [tagged, tally]
  | node id label child ih =>
    have head : (childless child || label.op.isSome) = true ↔
        (if childless child then Tally.ofUntagged.leaf label
          else Tally.ofUntagged.inner label.op) = 0 := by
      cases childless child <;> cases label.op <;> simp [Tally.ofUntagged]
    rw [tagged, tally, Bool.and_eq_true, Bool.and_eq_true, head, ih, ih]
    omega

theorem count_le_size (op : Operator) (t : Tree) : t.count op ≤ t.size := by
  induction t with
  | nil | missing => exact Nat.zero_le _
  | node id label child ih =>
    have left := ih .left
    have right := ih .right
    simp only [count, size]
    split <;> omega

end Tree

end SecureArith
