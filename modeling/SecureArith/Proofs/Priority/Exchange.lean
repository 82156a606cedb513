import Mathlib.Logic.Relation
import SecureArith.Proofs.Graft
import SecureArith.Proofs.Typing

set_option autoImplicit false

/-!
# Exchanging operands

An operand of an operation is exchanged with an operand of the operation below it. Where the
operator is commutative and associative this changes no meaning, and the tree keeps its leaves and
its operations.
-/

namespace SecureArith

universe u

variable {R : Type u} {I : Interpretation R}

namespace Interpretation

/-- Operators that commute are commutative and associative. -/
structure Reorders (I : Interpretation R) : Prop where
  comm : ∀ op : Operator, op.commutes = true → ∀ a b, I.call op.name [a, b] = I.call op.name [b, a]
  assoc : ∀ op : Operator, op.commutes = true → ∀ a b c,
    I.call op.name [I.call op.name [a, b], c] = I.call op.name [a, I.call op.name [b, c]]

theorem Arithmetic.reorders [CommRing R] (laws : I.Arithmetic) : I.Reorders := by
  constructor
  · intro op commutes a b
    cases op with
    | add => exact laws.ringlike.commutative.add_comm a b
    | mul => exact laws.ringlike.commutative.mul_comm a b
    | sub | matmul | truediv | pow | other => simp [Operator.commutes] at commutes
  · intro op commutes a b c
    cases op with
    | add => simp only [laws.add, add_assoc]
    | mul => simp only [laws.mul, mul_assoc]
    | sub | matmul | truediv | pow | other => simp [Operator.commutes] at commutes

end Interpretation

namespace Tree

variable {op : Operator} {t u : Tree} {x y : Tree}

/-- Two subtrees, the first one on the given side. -/
def place (side : Side) (x y : Tree) : Side → Tree :=
  match side with
  | .left => pair x y
  | .right => pair y x

@[simp] theorem place_same (side : Side) (x y : Tree) : place side x y side = x := by
  cases side <;> rfl

@[simp] theorem place_flip (side : Side) (x y : Tree) : place side x y side.flip = y := by
  cases side <;> rfl

theorem place_swap (side : Side) (x y : Tree) : place side x y = place side.flip y x := by
  cases side <;> rfl

theorem place_eta (side : Side) (child : Side → Tree) :
    place side (child side) (child side.flip) = child := by
  cases side <;> exact pair_eta child

/-- An operand of an operation and one of the operation below it are exchanged. -/
inductive Exchanged (op : Operator) : Tree → Tree → Prop
  | here {root k : NodeId} {label label' : Label} {side side' : Side} {a b c : Tree}
      (upper : label.op = some op) (lower : label'.op = some op) (thereA : a.isNil = false)
      (thereB : b.isNil = false) (thereC : c.isNil = false) :
      Exchanged op (.node root label (place side (.node k label' (place side' a b)) c))
        (.node root label (place side (.node k label' (place side' c b)) a))
  | left {l l' : Tree} (id : NodeId) (label : Label) (r : Tree) (h : Exchanged op l l') :
      Exchanged op (.node id label (pair l r)) (.node id label (pair l' r))
  | right {r r' : Tree} (id : NodeId) (label : Label) (l : Tree) (h : Exchanged op r r') :
      Exchanged op (.node id label (pair l r)) (.node id label (pair l r'))

theorem eval_place (laws : I.Reorders) (commutes : op.commutes = true) {id : NodeId}
    {label : Label} (isOp : label.op = some op) (side : Side) (hx : x.isNil = false)
    (hy : y.isNil = false) (env : Env R) (other : Option ValueId → R) :
    (Tree.node id label (place side x y)).eval I env other =
      I.call op.name [x.eval I env other, y.eval I env other] := by
  have name : label.opName = op.name := by simp [Label.opName, isOp]
  cases side with
  | left =>
    rw [place, eval_binary hx hy, name]
    rfl
  | right =>
    rw [place, eval_binary hy hx, name, laws.comm op commutes]
    rfl

theorem childless_place {side : Side} (hx : x.isNil = false) :
    childless (place side x y) = false := by
  cases side <;> simp [place, childless, hx]

theorem leaves_place {id : NodeId} {label : Label} {side : Side} (hx : x.isNil = false)
    {o : Option Origin} :
    o ∈ (Tree.node id label (place side x y)).leaves ↔ o ∈ x.leaves ∨ o ∈ y.leaves := by
  rw [leaves_node (childless_place hx), List.mem_append]
  cases side with
  | left => exact Iff.rfl
  | right => exact or_comm

theorem proper_place {id : NodeId} {label : Label} {side : Side} (isOp : label.op = some op)
    (hx : x.isNil = false) (hy : y.isNil = false) :
    (Tree.node id label (place side x y)).proper = (x.proper && y.proper) := by
  cases side <;> simp [place, proper, isOp, hx, hy, Bool.and_comm]

/-- Exchanging operands of an operator that commutes changes no meaning. -/
theorem Exchanged.refines (laws : I.Reorders) (commutes : op.commutes = true)
    (h : t.Exchanged op u) : t.Refines I u := by
  induction h with
  | @here root k label label' side side' a b c upper lower thereA thereB thereC =>
    refine ⟨rfl, fun env other => ?_, fun o mem => ?_, fun proper => ?_⟩
    · have binary {id : NodeId} {label : Label} (isOp : label.op = some op) (side : Side)
          {x y : Tree} (hx : x.isNil = false) (hy : y.isNil = false) :
          (Tree.node id label (place side x y)).eval I env other = _ :=
        eval_place laws commutes isOp side hx hy env other
      rw [binary upper side rfl thereA, binary upper side rfl thereC,
        binary lower side' thereC thereB, binary lower side' thereA thereB]
      generalize a.eval I env other = a
      generalize b.eval I env other = b
      generalize c.eval I env other = c
      calc I.call op.name [I.call op.name [c, b], a]
        _ = I.call op.name [a, I.call op.name [c, b]] := laws.comm op commutes _ _
        _ = I.call op.name [a, I.call op.name [b, c]] := by rw [laws.comm op commutes c b]
        _ = I.call op.name [I.call op.name [a, b], c] := (laws.assoc op commutes a b c).symm
    · rw [leaves_place rfl, leaves_place thereC] at mem
      rw [leaves_place rfl, leaves_place thereA]
      rcases mem with (mem | mem) | mem
      · exact .inr mem
      · exact .inl (.inr mem)
      · exact .inl (.inl mem)
    · rw [proper_place upper (isNil_node ..) thereC, proper_place lower thereA thereB,
        Bool.and_eq_true, Bool.and_eq_true] at proper
      rw [proper_place upper (isNil_node ..) thereA, proper_place lower thereC thereB,
        Bool.and_eq_true, Bool.and_eq_true]
      exact ⟨⟨proper.2, proper.1.2⟩, proper.1.1⟩
  | left id label r h ih => exact ih.node (.refl I r) id id label
  | right id label l h ih => exact Refines.node (.refl I l) ih id id label

/-- Up to kept types, operands of an operator that commutes are exchanged. -/
def Reordered (t u : Tree) : Prop :=
  ∃ op : Operator, op.commutes = true ∧ t.untyped.Exchanged op u.untyped

theorem Reordered.refines (laws : I.Reorders) (h : t.Reordered u) : t.Refines I u := by
  obtain ⟨op, commutes, exchanged⟩ := h
  exact (refines_of_bare (bare_untyped t)).trans
    ((exchanged.refines laws commutes).trans (refines_of_bare (bare_untyped u).symm))

theorem sub_place (id : NodeId) (label : Label) (side : Side) (x y : Tree) :
    x.Sub (.node id label (place side x y)) :=
  .child side (by rw [place_same]; exact .refl)

theorem preorder_place (id : NodeId) (label : Label) (side : Side) (x y : Tree) :
    (Tree.node id label (place side x y)).preorder.Perm (id :: (x.preorder ++ y.preorder)) := by
  cases side with
  | left => exact .refl _
  | right => exact List.perm_append_comm.cons id

theorem preorder_place_place (root k : NodeId) (label label' : Label) (side side' : Side)
    (a o s : Tree) :
    (Tree.node root label (place side (.node k label' (place side' a o)) s)).preorder.Perm
      (root :: k :: (a.preorder ++ (o.preorder ++ s.preorder))) := by
  refine (preorder_place root label side _ s).trans (.cons root ?_)
  rw [← List.append_assoc]
  exact (preorder_place k label' side' a o).append_right s.preorder

theorem untyped_place (id : NodeId) (label : Label) (side : Side) (x y : Tree) :
    (Tree.node id label (place side x y)).untyped =
      .node id { label with memo := none } (place side x.untyped y.untyped) := by
  rw [untyped]
  congr 1
  funext side'
  cases side <;> cases side' <;> rfl

theorem untyped_congr {x' y' : Tree} (id : NodeId) (label : Label) (side : Side)
    (hx : x'.untyped = x.untyped) (hy : y'.untyped = y.untyped) :
    (Tree.node id label (place side x' y')).untyped =
      (Tree.node id label (place side x y)).untyped := by
  rw [untyped_place, untyped_place, hx, hy]

end Tree

end SecureArith
