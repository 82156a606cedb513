import Mathlib.Algebra.Ring.Defs
import SecureArith.Proofs.Meaning.Program
import SecureArith.Proofs.Span

set_option autoImplicit false

/-!
# What trees compute

A leaf stands for its constant or for what its variable holds; other leaves stand for anything. An
operation stands for a call of its operator on its children. Trees that differ in their indices,
kept types or marks compute the same, and so do trees that `Tree.same?` finds equal.
-/

namespace SecureArith

universe u

variable {R : Type u}

namespace Interpretation

/-- The operands of sums and products may be exchanged, and equal floats stand for the same. -/
structure Commutative (I : Interpretation R) : Prop where
  add_comm : ∀ a b, I.call Operator.add.name [a, b] = I.call Operator.add.name [b, a]
  mul_comm : ∀ a b, I.call Operator.mul.name [a, b] = I.call Operator.mul.name [b, a]
  float_eq : ∀ x y : Double, x.equal y → I.float x = I.float y

/-- Sums, products and powers of two operands are those of a ring. -/
structure Arithmetic [CommRing R] (I : Interpretation R) : Prop where
  add : ∀ a b, I.call Operator.add.name [a, b] = a + b
  mul : ∀ a b, I.call Operator.mul.name [a, b] = a * b
  pow : ∀ (a : R) (k : Nat), 1 ≤ k → k ≤ 1024 → I.call Operator.pow.name [a, I.int k] = a ^ k
  float_eq : ∀ x y : Double, x.equal y → I.float x = I.float y

/-- Sums and products of two operands are those of a ring, whatever other calls stand for. -/
structure Ringlike [CommRing R] (I : Interpretation R) : Prop where
  add : ∀ a b, I.call Operator.add.name [a, b] = a + b
  mul : ∀ a b, I.call Operator.mul.name [a, b] = a * b
  float_eq : ∀ x y : Double, x.equal y → I.float x = I.float y

theorem Arithmetic.ringlike [CommRing R] {I : Interpretation R} (laws : I.Arithmetic) :
    I.Ringlike :=
  ⟨laws.add, laws.mul, laws.float_eq⟩

theorem Ringlike.commutative [CommRing R] {I : Interpretation R} (laws : I.Ringlike) :
    I.Commutative where
  add_comm a b := by rw [laws.add, laws.add, add_comm]
  mul_comm a b := by rw [laws.mul, laws.mul, mul_comm]
  float_eq := laws.float_eq

end Interpretation

namespace Label

def eval (I : Interpretation R) (env : Env R) (other : Option ValueId → R) (l : Label) : R :=
  match l.origin with
  | some ⟨_, _, .int n⟩ => I.int n
  | some ⟨_, _, .float x⟩ => I.float x
  | some ⟨_, _, .var v⟩ => env v
  | some ⟨id, _, .other⟩ => other (some id)
  | none => other none

def opName (l : Label) : String := (l.op.map (·.name)).getD ""

theorem op_eq_of_isOp {l : Label} {op : Operator} (h : l.isOp op = true) : l.op = some op := by
  simpa [isOp] using h

theorem opName_of_isOp {l : Label} {op : Operator} (h : l.isOp op = true) :
    l.opName = op.name := by
  simp [opName, op_eq_of_isOp h]

theorem eval_eq_of_sameAtom {I : Interpretation R} {env : Env R} {other : Option ValueId → R}
    (laws : I.Commutative) {a b : Label}
    (h : a.sameAtom b = true) : a.eval I env other = b.eval I env other := by
  simp only [sameAtom, atom?] at h
  cases ha : a.origin with
  | none => simp [ha] at h
  | some x =>
    cases hb : b.origin with
    | none => simp [ha, hb] at h
    | some y =>
      obtain ⟨_, _, x⟩ := x
      obtain ⟨_, _, y⟩ := y
      cases x <;> cases y <;> simp_all [eval, Atom.same]
      exact laws.float_eq _ _ h

end Label

namespace Tree

variable {I : Interpretation R} {env : Env R} {other : Option ValueId → R}

def childless (child : Side → Tree) : Bool := (child .left).isNil && (child .right).isNil

/-- What is given for the children that are there. -/
def present {α : Type*} (child : Side → Tree) (left right : α) : List α :=
  (if (child .left).isNil then [] else [left]) ++ if (child .right).isNil then [] else [right]

def eval (I : Interpretation R) (env : Env R) (other : Option ValueId → R) : Tree → R
  | .nil | .missing _ => other none
  | .node _ label child =>
    if childless child then label.eval I env other
    else I.call label.opName
      (present child ((child .left).eval I env other) ((child .right).eval I env other))

def leaves : Tree → List (Option Origin)
  | .nil | .missing _ => []
  | .node _ label child =>
    if childless child then [label.origin] else (child .left).leaves ++ (child .right).leaves

/-- Every node with children has an operator and two children. -/
def proper : Tree → Bool
  | .nil | .missing _ => true
  | .node _ label child =>
    (childless child ||
      label.op.isSome && !(child .left).isNil && !(child .right).isNil) &&
      (child .left).proper && (child .right).proper

/-- Every node with children has an operator. -/
def tagged : Tree → Bool
  | .nil | .missing _ => true
  | .node _ label child =>
    (childless child || label.op.isSome) && (child .left).tagged && (child .right).tagged

/-- The tree without its indices. -/
def anonymous : Tree → Tree
  | .nil => .nil
  | .missing _ => .missing 0
  | .node _ label child => .node 0 label fun side => (child side).anonymous

/-- The tree with all that is not looked at by its meaning left out. -/
def bare : Tree → Tree
  | .nil => .nil
  | .missing _ => .missing 0
  | .node _ label child =>
    .node 0 { origin := if childless child then label.origin else none, op := label.op }
      fun side => (child side).bare

@[simp] theorem isNil_nil : Tree.nil.isNil = true := rfl

@[simp] theorem isNil_missing (id : NodeId) : (Tree.missing id).isNil = false := rfl

@[simp] theorem isNil_node (id : NodeId) (label : Label) (child : Side → Tree) :
    (Tree.node id label child).isNil = false := rfl

theorem eq_nil_of_isNil {t : Tree} (h : t.isNil = true) : t = .nil := by
  cases t with
  | nil => rfl
  | missing | node => simp at h

theorem children_of_childless {child : Side → Tree} (leaf : childless child = true) (side : Side) :
    child side = .nil := by
  simp only [childless, Bool.and_eq_true] at leaf
  cases side with
  | left => exact eq_nil_of_isNil leaf.1
  | right => exact eq_nil_of_isNil leaf.2

@[simp] theorem isNil_bare (t : Tree) : t.bare.isNil = t.isNil := by
  cases t <;> rfl

theorem childless_congr {f g : Side → Tree} (h : ∀ side, (f side).isNil = (g side).isNil) :
    childless f = childless g := by
  simp [childless, h]

theorem present_congr {α : Type*} {f g : Side → Tree} (h : ∀ side, (f side).isNil = (g side).isNil)
    (left right : α) : present f left right = present g left right := by
  simp [present, h]

@[simp] theorem isNil_anonymous (t : Tree) : t.anonymous.isNil = t.isNil := by
  cases t <;> rfl

theorem bare_anonymous (t : Tree) : t.anonymous.bare = t.bare := by
  induction t with
  | nil | missing => rfl
  | node _ _ child ih =>
    simp only [anonymous, bare, ih]
    rw [childless_congr fun side => isNil_anonymous (child side)]

theorem bare_eq_of_anonymous {t u : Tree} (h : t.anonymous = u.anonymous) : t.bare = u.bare := by
  rw [← bare_anonymous t, h, bare_anonymous]

theorem isNil_eq_of_bare {t u : Tree} (h : t.bare = u.bare) : t.isNil = u.isNil := by
  rw [← isNil_bare t, h, isNil_bare]

theorem anonymous_node {child child' : Side → Tree}
    (left : (child' .left).anonymous = (child .left).anonymous)
    (right : (child' .right).anonymous = (child .right).anonymous) (id id' : NodeId)
    (label : Label) :
    (Tree.node id' label child').anonymous = (Tree.node id label child).anonymous := by
  simp only [anonymous]
  congr 1
  funext side
  cases side with
  | left => exact left
  | right => exact right

theorem bare_node {l r l' r' : Tree} (left : l'.bare = l.bare) (right : r'.bare = r.bare)
    (id id' : NodeId) (label : Label) :
    (Tree.node id' label (pair l' r')).bare = (Tree.node id label (pair l r)).bare := by
  have same (side : Side) : (pair l' r' side).bare = (pair l r side).bare := by
    cases side with
    | left => exact left
    | right => exact right
  simp only [bare, same]
  rw [childless_congr fun side => isNil_eq_of_bare (same side)]

theorem eval_leaf {id : NodeId} {label : Label} {child : Side → Tree}
    (leaf : childless child = true) :
    (Tree.node id label child).eval I env other = label.eval I env other := by
  simp [eval, leaf]

theorem eval_binary {id : NodeId} {label : Label} {child : Side → Tree}
    (left : (child .left).isNil = false) (right : (child .right).isNil = false) :
    (Tree.node id label child).eval I env other =
      I.call label.opName
        [(child .left).eval I env other, (child .right).eval I env other] := by
  simp [eval, childless, present, left, right]

theorem eval_node_congr {child child' : Side → Tree}
    (same : ∀ side, (child' side).isNil = (child side).isNil)
    (value : ∀ side, (child' side).eval I env other = (child side).eval I env other)
    (id id' : NodeId) (label : Label) :
    (Tree.node id' label child').eval I env other = (Tree.node id label child).eval I env other := by
  simp only [eval, value]
  rw [childless_congr same, present_congr same]

theorem leaves_node {id : NodeId} {label : Label} {child : Side → Tree}
    (inner : childless child = false) :
    (Tree.node id label child).leaves = (child .left).leaves ++ (child .right).leaves := by
  simp [leaves, inner]

theorem proper_child {id : NodeId} {label : Label} {child : Side → Tree}
    (h : (Tree.node id label child).proper = true) (side : Side) : (child side).proper = true := by
  simp only [proper, Bool.and_eq_true] at h
  cases side with
  | left => exact h.1.2
  | right => exact h.2

theorem proper_congr {id id' : NodeId} {label : Label} {f g : Side → Tree}
    (h : (Tree.node id label g).proper = true) (same : ∀ side, (f side).isNil = (g side).isNil)
    (below : ∀ side, (g side).proper = true → (f side).proper = true) :
    (Tree.node id' label f).proper = true := by
  simp only [proper, Bool.and_eq_true] at h ⊢
  rw [childless_congr same, same, same]
  exact ⟨⟨h.1.1, below .left h.1.2⟩, below .right h.2⟩

theorem operands_of_proper {id : NodeId} {label : Label} {child : Side → Tree}
    (h : (Tree.node id label child).proper = true) (inner : childless child = false) :
    label.op.isSome ∧ ∀ side, (child side).isNil = false := by
  simp only [proper, inner, Bool.false_or, Bool.and_eq_true, Bool.not_eq_true'] at h
  refine ⟨h.1.1.1.1, fun side => ?_⟩
  cases side with
  | left => exact h.1.1.1.2
  | right => exact h.1.1.2

theorem tagged_child {id : NodeId} {label : Label} {child : Side → Tree}
    (h : (Tree.node id label child).tagged = true) (side : Side) : (child side).tagged = true := by
  simp only [tagged, Bool.and_eq_true] at h
  cases side with
  | left => exact h.1.2
  | right => exact h.2

theorem isSome_op_of_tagged {id : NodeId} {label : Label} {child : Side → Tree}
    (h : (Tree.node id label child).tagged = true) (inner : ¬ childless child = true) :
    label.op.isSome := by
  simp only [tagged, Bool.and_eq_true, Bool.or_eq_true] at h
  exact h.1.1.resolve_left inner

theorem tagged_of_proper {t : Tree} (h : t.proper = true) : t.tagged = true := by
  induction t with
  | nil | missing => rfl
  | node id label child ih =>
    have below (side : Side) := ih side (proper_child h side)
    have operator : (childless child || label.op.isSome) = true := by
      cases inner : childless child with
      | true => rfl
      | false => exact (operands_of_proper h inner).1
    simp [tagged, operator, below]

theorem childless_bare (child : Side → Tree) :
    childless (fun side => (child side).bare) = childless child := by
  simp [childless]

theorem eval_bare (t : Tree) : t.bare.eval I env other = t.eval I env other := by
  induction t with
  | nil | missing => rfl
  | node id label child ih =>
    simp only [bare, eval, childless_bare]
    split
    · simp [Label.eval, *]
    · simp [Label.opName, present, ih]

theorem leaves_bare (t : Tree) : t.bare.leaves = t.leaves := by
  induction t with
  | nil | missing => rfl
  | node id label child ih =>
    simp only [bare, leaves, childless_bare]
    split <;> simp [*]

theorem proper_bare (t : Tree) : t.bare.proper = t.proper := by
  induction t with
  | nil | missing => rfl
  | node id label child ih => simp [bare, proper, childless_bare, ih]

theorem eval_eq_of_bare {t u : Tree} (h : t.bare = u.bare) :
    t.eval I env other = u.eval I env other := by
  rw [← eval_bare, h, eval_bare]

theorem leaves_eq_of_bare {t u : Tree} (h : t.bare = u.bare) : t.leaves = u.leaves := by
  rw [← leaves_bare, h, leaves_bare]

theorem proper_eq_of_bare {t u : Tree} (h : t.bare = u.bare) : t.proper = u.proper := by
  rw [← proper_bare, h, proper_bare]

theorem andM_eq_some_true {x y : Option Bool} :
    (x <&&> y) = some true ↔ x = some true ∧ y = some true := by
  cases x with
  | none => simp [andM]
  | some b => cases b <;> simp [andM, toBool]

theorem orM_eq_some_true {x y : Option Bool} (h : (x <||> y) = some true) :
    x = some true ∨ y = some true := by
  cases x with
  | none => simp [orM] at h
  | some b => cases b <;> simp_all [orM, toBool]

/-- Trees that are found equal have both children or the same single one, and compute the same. -/
theorem eval_eq_of_same? (laws : I.Commutative) {t u : Tree} (h : t.same? u = some true)
    (ht : t.tagged = true) (hu : u.tagged = true) :
    t.isNil = u.isNil ∧ t.eval I env other = u.eval I env other := by
  induction t generalizing u with
  | nil => cases u <;> simp_all [same?]
  | missing => cases u <;> simp [same?] at h
  | node id a child ih =>
    cases u with
    | nil | missing => simp [same?] at h
    | node id' b child' =>
      refine ⟨rfl, ?_⟩
      have ht' := tagged_child ht
      have hu' := tagged_child hu
      simp only [same?] at h
      change (if childless child then _ else _) = _ at h
      split at h
      · rename_i leaf
        simp only [Option.some.injEq, Bool.and_eq_true] at h
        have leaf' : childless child' = true := by simp [childless, h.1.1, h.1.2]
        rw [eval_leaf leaf, eval_leaf leaf', Label.eval_eq_of_sameAtom laws h.2]
      · rename_i inner
        split at h
        · simp at h
        · rename_i agree
          simp only [Bool.or_eq_true, Bool.and_eq_true, Bool.not_eq_true', not_or] at agree
          have inner' : ¬ childless child' = true := by simpa [childless] using agree.1
          have operator := isSome_op_of_tagged ht inner
          have operator' := isSome_op_of_tagged hu inner'
          obtain ⟨x, hx⟩ := Option.isSome_iff_exists.mp operator
          obtain ⟨y, hy⟩ := Option.isSome_iff_exists.mp operator'
          have op : a.op = b.op := by
            have := agree.2
            simp only [Label.opsAgree, hx, hy, Bool.not_eq_false, beq_iff_eq] at this
            rw [hx, hy, this]
          have name : a.opName = b.opName := by simp [Label.opName, op]
          simp only [eval, if_neg inner, if_neg inner', name]
          rcases orM_eq_some_true h with straight | crossed
          · obtain ⟨left, right⟩ := andM_eq_some_true.mp straight
            obtain ⟨nilLeft, evalLeft⟩ := ih .left left (ht' .left) (hu' .left)
            obtain ⟨nilRight, evalRight⟩ := ih .right right (ht' .right) (hu' .right)
            simp only [present, nilLeft, nilRight, evalLeft, evalRight]
          · obtain ⟨commutes, both⟩ := andM_eq_some_true.mp crossed
            obtain ⟨left, right⟩ := andM_eq_some_true.mp both
            obtain ⟨nilLeft, evalLeft⟩ := ih .left left (ht' .left) (hu' .right)
            obtain ⟨nilRight, evalRight⟩ := ih .right right (ht' .right) (hu' .left)
            simp only [present, nilLeft, nilRight, evalLeft, evalRight]
            cases (child' .left).isNil <;> cases (child' .right).isNil <;> try rfl
            have commutes : b.op.any (·.commutes) = true := by
              simpa [Label.commutes, op] using commutes
            simp only [Label.opName, hy] at commutes ⊢
            cases y <;> simp [Operator.commutes] at commutes
            · exact laws.add_comm _ _
            · exact laws.mul_comm _ _

/-- The second tree computes what the first one does, from leaves that the first one has. -/
structure Refines (I : Interpretation R) (t u : Tree) : Prop where
  isNil : u.isNil = t.isNil
  eval : ∀ env other, u.eval I env other = t.eval I env other
  leaves : ∀ o ∈ u.leaves, o ∈ t.leaves
  proper : t.proper = true → u.proper = true

theorem Refines.refl (I : Interpretation R) (t : Tree) : t.Refines I t :=
  ⟨rfl, fun _ _ => rfl, fun _ mem => mem, fun h => h⟩

theorem Refines.trans {t u v : Tree} (h : t.Refines I u) (h' : u.Refines I v) : t.Refines I v :=
  ⟨h'.isNil.trans h.isNil, fun env other => (h'.eval env other).trans (h.eval env other),
    fun o mem => h.leaves o (h'.leaves o mem), fun proper => h'.proper (h.proper proper)⟩

theorem refines_of_bare {t u : Tree} (h : u.bare = t.bare) : t.Refines I u :=
  ⟨isNil_eq_of_bare h, fun _ _ => eval_eq_of_bare h, fun _ mem => leaves_eq_of_bare h ▸ mem,
    fun proper => (proper_eq_of_bare h).trans proper⟩

theorem Refines.node {l r l' r' : Tree} (left : l.Refines I l') (right : r.Refines I r')
    (id id' : NodeId) (label : Label) :
    (Tree.node id label (pair l r)).Refines I (.node id' label (pair l' r')) := by
  have same (side : Side) : (pair l' r' side).isNil = (pair l r side).isNil := by
    cases side with
    | left => exact left.isNil
    | right => exact right.isNil
  refine ⟨rfl, fun env other => ?_, fun o mem => ?_, fun h => ?_⟩
  · refine eval_node_congr same (fun side => ?_) id id' label
    cases side with
    | left => exact left.eval env other
    | right => exact right.eval env other
  · simp only [Tree.leaves, pair_left, pair_right] at mem ⊢
    rw [childless_congr same] at mem
    split at mem
    · rename_i leaf
      rw [if_pos leaf]
      exact mem
    · rename_i inner
      rw [if_neg inner]
      exact List.mem_append.mpr ((List.mem_append.mp mem).imp (left.leaves o) (right.leaves o))
  · refine proper_congr h same fun side => ?_
    cases side with
    | left => exact left.proper
    | right => exact right.proper

end Tree

end SecureArith
