import SecureArith.Proofs.Factoring.Normal

set_option autoImplicit false

/-!
# Equality up to the order of operands

`Tree.same?` compares the operands of two operations as they stand and, where the operator commutes,
crosswise. So comparisons can be turned around and put together, and a tree equals itself unless one
of its leaves equals nothing. `Tree.Equivalent` is the least congruence in which operands of sums
and products may be exchanged; on trees of operations that have an operator and a left operand, it
is what the comparison decides.
-/

namespace SecureArith

namespace Atom

/-- The same integer, floats that compare equal, or the same variable. -/
inductive Matches : Atom → Atom → Prop
  | int (n : Int) : Matches (.int n) (.int n)
  | float {x y : Double} (equal : x.equal y = true) : Matches (.float x) (.float y)
  | var (v : VarId) : Matches (.var v) (.var v)

def comparable : Atom → Bool
  | .int _ | .var _ => true
  | .float x => !x.isNaN
  | .other => false

variable {a b c : Atom}

theorem same_iff : a.same b = true ↔ a.Matches b := by
  constructor
  · intro same
    cases a <;> cases b <;> simp only [Atom.same, beq_iff_eq, Bool.false_eq_true] at same
    · exact same ▸ .int _
    · exact .float same
    · exact same ▸ .var _
  · rintro (n | equal | v)
    · exact beq_self_eq_true n
    · exact equal
    · exact beq_self_eq_true v

theorem equal_trans {x y z : Double} (h : x.equal y = true) (h' : y.equal z = true) :
    x.equal z = true := by
  simp only [Double.equal, Bool.and_eq_true, Bool.or_eq_true, beq_iff_eq] at h h' ⊢
  refine ⟨h.1, ?_⟩
  rcases h.2 with rfl | ⟨zero, zero'⟩
  · exact h'.2
  · rcases h'.2 with rfl | ⟨-, zero''⟩
    · exact .inr ⟨zero, zero'⟩
    · exact .inr ⟨zero, zero''⟩

theorem same_trans (h : a.same b = true) (h' : b.same c = true) : a.same c = true := by
  rw [same_iff] at h h' ⊢
  cases h with
  | int n => exact h'
  | float equal =>
    cases h' with
    | float equal' => exact .float (equal_trans equal equal')
  | var v => exact h'

theorem same_self (a : Atom) : a.same a = a.comparable := by
  cases a <;> simp [Atom.same, comparable, Double.equal]

end Atom

namespace Label

variable {a b c : Label}

theorem sameAtom_iff :
    a.sameAtom b = true ↔ ∃ x y, a.atom? = some x ∧ b.atom? = some y ∧ x.same y = true := by
  unfold sameAtom
  cases a.atom? <;> cases b.atom? <;> simp

theorem sameAtom_comm (a b : Label) : a.sameAtom b = b.sameAtom a := by
  unfold sameAtom
  cases a.atom? <;> cases b.atom? <;> simp only [Atom.same_comm]

theorem sameAtom_trans (h : a.sameAtom b = true) (h' : b.sameAtom c = true) :
    a.sameAtom c = true := by
  obtain ⟨x, y, isX, isY, same⟩ := sameAtom_iff.mp h
  obtain ⟨y', z, isY', isZ, same'⟩ := sameAtom_iff.mp h'
  cases isY.symm.trans isY'
  exact sameAtom_iff.mpr ⟨x, z, isX, isZ, Atom.same_trans same same'⟩

theorem sameAtom_self_iff : a.sameAtom a = true ↔ ∃ o ∈ a.origin, o.atom.comparable = true := by
  unfold sameAtom atom?
  cases a.origin <;> simp [Atom.same_self]

/-- The operands are compared as they stand or, where the operator commutes, crosswise. -/
def Pairs (l : Label) (σ : Side → Side) : Prop := σ = id ∨ σ = Side.flip ∧ l.commutes = true

namespace Pairs

variable {σ τ : Side → Side}

theorem involutive (h : a.Pairs σ) (side : Side) : σ (σ side) = side := by
  rcases h with rfl | ⟨rfl, -⟩
  · rfl
  · exact side.flip_flip

theorem comp (h : a.Pairs σ) (h' : a.Pairs τ) : a.Pairs (τ ∘ σ) := by
  rcases h with rfl | ⟨rfl, commutes⟩
  · exact h'
  · rcases h' with rfl | ⟨rfl, -⟩
    · exact .inr ⟨rfl, commutes⟩
    · exact .inl (funext Side.flip_flip)

theorem of_op (h : a.Pairs σ) (same : a.op = b.op) : b.Pairs σ := by
  unfold Pairs commutes at *
  rwa [← same]

end Pairs

end Label

namespace Tree

variable {t u v : Tree} {i j : NodeId} {a b : Label} {child child' : Side → Tree}

/-- All is there, and operations have an operator. -/
structure Comparable (t : Tree) : Prop where
  whole : t.complete = true
  tagged : t.tagged = true

theorem Comparable.below (h : (Tree.node i a child).Comparable) (side : Side) :
    (child side).Comparable :=
  ⟨(Sub.child side .refl).complete h.whole, tagged_child h.tagged side⟩

theorem Comparable.isSome_same? (ht : t.Comparable) (hu : u.Comparable) : (t.same? u).isSome :=
  isSome_same?_of_complete ht.whole hu.whole

theorem orM_eq_some_true_iff {x y : Option Bool} (defined : x.isSome) :
    (x <||> y) = some true ↔ x = some true ∨ y = some true := by
  obtain ⟨b, rfl⟩ := Option.isSome_iff_exists.mp defined
  cases b <;> simp [orM, toBool]

/-- Leaves are equal when their atoms are, and operations when they have one operator and their
operands are equal in some order that it allows for. -/
theorem same?_node_iff (ht : (Tree.node i a child).Comparable)
    (hu : (Tree.node j b child').Comparable) :
    (Tree.node i a child).same? (.node j b child') = some true ↔
      (childless child = true ∧ childless child' = true ∧ a.sameAtom b = true) ∨
      (childless child = false ∧ childless child' = false ∧ a.op = b.op ∧
        ∃ σ, a.Pairs σ ∧ ∀ side, (child side).same? (child' (σ side)) = some true) := by
  have split : (Tree.node i a child).same? (.node j b child') =
      if childless child then some (childless child' && a.sameAtom b)
      else if childless child' || !a.opsAgree b then some false
      else ((child .left).same? (child' .left) <&&> (child .right).same? (child' .right)) <||>
        (pure a.commutes <&&> (child .left).same? (child' .right) <&&>
          (child .right).same? (child' .left)) := rfl
  rw [split]
  cases leaf : childless child with
  | true => simp
  | false =>
    cases leaf' : childless child' with
    | true => simp
    | false =>
      have agree : a.opsAgree b = true ↔ a.op = b.op := by
        obtain ⟨x, isX⟩ := Option.isSome_iff_exists.mp
          (isSome_op_of_tagged ht.tagged (Bool.not_eq_true _ ▸ leaf))
        obtain ⟨y, isY⟩ := Option.isSome_iff_exists.mp
          (isSome_op_of_tagged hu.tagged (Bool.not_eq_true _ ▸ leaf'))
        simp [Label.opsAgree, isX, isY]
      have defined (side side' : Side) : ((child side).same? (child' side')).isSome :=
        (ht.below side).isSome_same? (hu.below side')
      have straight : ((child .left).same? (child' .left) <&&>
          (child .right).same? (child' .right)).isSome := by
        obtain ⟨x, isX⟩ := Option.isSome_iff_exists.mp (defined .left .left)
        obtain ⟨y, isY⟩ := Option.isSome_iff_exists.mp (defined .right .right)
        rw [isX, isY]
        cases x <;> rfl
      have sides {P : Side → Prop} : (∀ side, P side) ↔ P .left ∧ P .right :=
        ⟨fun h => ⟨h .left, h .right⟩, fun h side => by cases side; exacts [h.1, h.2]⟩
      by_cases same : a.op = b.op
      · simp only [agree.mpr same, Bool.not_true, Bool.or_self, Bool.false_eq_true, if_false,
          orM_eq_some_true_iff straight, andM_eq_some_true, same, true_and, false_and, false_or,
          sides, Label.Pairs]
        constructor
        · rintro (pairs | ⟨commutes, pairs⟩)
          · exact ⟨id, .inl rfl, pairs⟩
          · exact ⟨Side.flip, .inr ⟨rfl, Option.some.inj commutes⟩, pairs⟩
        · rintro ⟨σ, rfl | ⟨rfl, commutes⟩, pairs⟩
          · exact .inl pairs
          · exact .inr ⟨congrArg some commutes, pairs⟩
      · have differ : a.opsAgree b = false := Bool.eq_false_iff.mpr fun h => same (agree.mp h)
        simp [differ, same]

theorem same?_nil_left : Tree.nil.same? u = some true ↔ u = .nil := by
  cases u <;> simp [same?]

theorem same?_nil_right (h : t.same? .nil = some true) : t = .nil := by
  cases t <;> simp [same?] at h ⊢

theorem same?_symm (ht : t.Comparable) (hu : u.Comparable) (h : t.same? u = some true) :
    u.same? t = some true := by
  induction t generalizing u with
  | nil =>
    cases same?_nil_left.mp h
    rfl
  | missing => exact absurd ht.whole Bool.false_ne_true
  | node i a child ih =>
    cases u with
    | nil => cases same?_nil_right h
    | missing => exact absurd hu.whole Bool.false_ne_true
    | node j b child' =>
      rw [same?_node_iff hu ht]
      rcases (same?_node_iff ht hu).mp h with
        ⟨leaf, leaf', same⟩ | ⟨inner, inner', op, σ, pairs, same⟩
      · exact .inl ⟨leaf', leaf, (b.sameAtom_comm a).trans same⟩
      · refine .inr ⟨inner', inner, op.symm, σ, pairs.of_op op, fun side => ?_⟩
        have turned := ih (σ side) (ht.below _) (hu.below _) (same (σ side))
        rwa [pairs.involutive] at turned

theorem same?_comm (ht : t.Comparable) (hu : u.Comparable) : t.same? u = u.same? t := by
  obtain ⟨x, isX⟩ := Option.isSome_iff_exists.mp (ht.isSome_same? hu)
  obtain ⟨y, isY⟩ := Option.isSome_iff_exists.mp (hu.isSome_same? ht)
  have there := same?_symm ht hu
  have back := same?_symm hu ht
  rw [isX, isY] at *
  cases x <;> cases y <;> simp_all

/-- Comparisons can be put together: so can the orders in which operands are compared. -/
theorem same?_trans (ht : t.Comparable) (hu : u.Comparable) (hv : v.Comparable)
    (h : t.same? u = some true) (h' : u.same? v = some true) : t.same? v = some true := by
  induction t generalizing u v with
  | nil =>
    cases same?_nil_left.mp h
    exact h'
  | missing => exact absurd ht.whole Bool.false_ne_true
  | node i a child ih =>
    cases u with
    | nil => cases same?_nil_right h
    | missing => exact absurd hu.whole Bool.false_ne_true
    | node j b child' =>
      cases v with
      | nil => cases same?_nil_right h'
      | missing => exact absurd hv.whole Bool.false_ne_true
      | node k c child'' =>
        rw [same?_node_iff ht hv]
        rcases (same?_node_iff ht hu).mp h with
        ⟨leaf, leaf', same⟩ | ⟨inner, inner', op, σ, pairs, same⟩
        · rcases (same?_node_iff hu hv).mp h' with ⟨-, leaf'', same'⟩ | ⟨inner', -⟩
          · exact .inl ⟨leaf, leaf'', Label.sameAtom_trans same same'⟩
          · cases leaf'.symm.trans inner'
        · rcases (same?_node_iff hu hv).mp h' with ⟨leaf', -⟩ | ⟨-, inner'', op', τ, pairs', same'⟩
          · cases leaf'.symm.trans inner'
          · refine .inr ⟨inner, inner'', op.trans op', τ ∘ σ, pairs.comp (pairs'.of_op op.symm),
              fun side => ?_⟩
            exact ih side (ht.below _) (hu.below _) (hv.below _) (same side) (same' (σ side))

/-- A tree equals itself unless one of its leaves equals nothing. -/
theorem same?_self_iff (h : t.Comparable) :
    t.same? t = some true ↔ ∀ o ∈ t.leaves, ∃ x ∈ o, x.atom.comparable = true := by
  induction t with
  | nil => simp [same?, leaves]
  | missing => exact absurd h.whole Bool.false_ne_true
  | node i a child ih =>
    rw [same?_node_iff h h]
    cases leaf : childless child with
    | true => simp [leaves, leaf, Label.sameAtom_self_iff]
    | false =>
      rw [leaves_node leaf, List.forall_mem_append, ← ih .left (h.below _), ← ih .right (h.below _)]
      simp only [Bool.false_eq_true, false_and, true_and, false_or]
      constructor
      · rintro ⟨σ, pairs, same⟩
        have self (side : Side) : (child side).same? (child side) = some true :=
          same?_trans (h.below _) (h.below _) (h.below _) (same side)
            (same?_symm (h.below _) (h.below _) (same side))
        exact ⟨self .left, self .right⟩
      · rintro ⟨left, right⟩
        exact ⟨id, .inl rfl, fun side => by cases side; exacts [left, right]⟩

/-- Every node with children has an operator and a left child. -/
def operational : Tree → Bool
  | .nil | .missing _ => true
  | .node _ label child =>
    (childless child || label.op.isSome && !(child .left).isNil) &&
      (child .left).operational && (child .right).operational

/-- A tree that is all there, in which operations have an operator and one operand or two. -/
structure Formed (t : Tree) : Prop where
  there : t.isNil = false
  whole : t.complete = true
  operational : t.operational = true

/-- Equal leaves are equivalent, and so are operations of one operator on equivalent operands;
operands of sums and products may be exchanged. -/
inductive Equivalent : Tree → Tree → Prop
  | leaf {i j : NodeId} {a b : Label} {x y : Atom} (left : a.atom? = some x)
      (right : b.atom? = some y) (same : x.Matches y) :
      Equivalent (.node i a (pair .nil .nil)) (.node j b (pair .nil .nil))
  | unary {i j : NodeId} {a b : Label} {op : Operator} {x y : Tree} (left : a.op = some op)
      (right : b.op = some op) (operand : Equivalent x y) :
      Equivalent (.node i a (pair x .nil)) (.node j b (pair y .nil))
  | binary {i j : NodeId} {a b : Label} {op : Operator} {x x' y y' : Tree} (left : a.op = some op)
      (right : b.op = some op) (first : Equivalent x y) (second : Equivalent x' y') :
      Equivalent (.node i a (pair x x')) (.node j b (pair y y'))
  | swap {i j : NodeId} {a b : Label} {op : Operator} {t x y : Tree} (isOp : a.op = some op)
      (isOp' : b.op = some op) (commutes : op = .add ∨ op = .mul) (two : y.isNil = false)
      (same : Equivalent t (.node i a (pair x y))) : Equivalent t (.node j b (pair y x))
  | symm {t u : Tree} (same : Equivalent t u) : Equivalent u t
  | trans {t u v : Tree} (same : Equivalent t u) (same' : Equivalent u v) : Equivalent t v

theorem operational_child (h : (Tree.node i a child).operational = true) (side : Side) :
    (child side).operational = true := by
  simp only [operational, Bool.and_eq_true] at h
  cases side with
  | left => exact h.1.2
  | right => exact h.2

theorem operational_inner (h : (Tree.node i a child).operational = true)
    (inner : childless child = false) : (∃ op, a.op = some op) ∧ (child .left).isNil = false := by
  simp only [operational, inner, Bool.false_or, Bool.and_eq_true, Bool.not_eq_true'] at h
  exact ⟨Option.isSome_iff_exists.mp h.1.1.1, h.1.1.2⟩

theorem tagged_of_operational (h : t.operational = true) : t.tagged = true := by
  induction t with
  | nil | missing => rfl
  | node i a child ih =>
    have operator : (childless child || a.op.isSome) = true := by
      cases inner : childless child with
      | true => rfl
      | false =>
        obtain ⟨op, isOp⟩ := (operational_inner h inner).1
        simp [isOp]
    simp [tagged, operator, fun side => ih side (operational_child h side)]

theorem Formed.comparable (h : t.Formed) : t.Comparable :=
  ⟨h.whole, tagged_of_operational h.operational⟩

theorem comparable_pair {l r : Tree} (operator : a.op.isSome = true) (left : l.Comparable)
    (right : r.Comparable) : (Tree.node i a (pair l r)).Comparable :=
  ⟨by simp [complete, left.whole, right.whole],
    by simp [tagged, operator, left.tagged, right.tagged]⟩

theorem comparable_nil : Tree.nil.Comparable := ⟨rfl, rfl⟩

namespace Equivalent

theorem isNil_eq (h : t.Equivalent u) : t.isNil = false ∧ u.isNil = false := by
  induction h with
  | leaf | unary | binary => exact ⟨rfl, rfl⟩
  | swap _ _ _ _ _ ih => exact ⟨ih.1, rfl⟩
  | symm _ ih => exact ih.symm
  | trans _ _ ih ih' => exact ⟨ih.1, ih'.2⟩

theorem same? (h : t.Equivalent u) : t.Comparable ∧ u.Comparable ∧ t.same? u = some true := by
  have inner {l r : Tree} (there : l.isNil = false) : childless (pair l r) = false := by
    simp [childless, there]
  induction h with
  | @leaf i j a b x y left right same =>
    have comparable (k : NodeId) (label : Label) :
        (Tree.node k label (pair .nil .nil)).Comparable := ⟨rfl, rfl⟩
    refine ⟨comparable i a, comparable j b, (same?_node_iff (comparable i a) (comparable j b)).mpr ?_⟩
    exact .inl ⟨rfl, rfl, Label.sameAtom_iff.mpr ⟨x, y, left, right, Atom.same_iff.mpr same⟩⟩
  | @unary i j a b op x y left right operand ih =>
    have ht : (Tree.node i a (pair x .nil)).Comparable :=
      comparable_pair (by simp [left]) ih.1 comparable_nil
    have hu : (Tree.node j b (pair y .nil)).Comparable :=
      comparable_pair (by simp [right]) ih.2.1 comparable_nil
    refine ⟨ht, hu, (same?_node_iff ht hu).mpr (.inr ⟨inner operand.isNil_eq.1,
      inner operand.isNil_eq.2, left.trans right.symm, id, .inl rfl, fun side => ?_⟩)⟩
    cases side with
    | left => exact ih.2.2
    | right => rfl
  | @binary i j a b op x x' y y' left right first second ih ih' =>
    have ht : (Tree.node i a (pair x x')).Comparable := comparable_pair (by simp [left]) ih.1 ih'.1
    have hu : (Tree.node j b (pair y y')).Comparable :=
      comparable_pair (by simp [right]) ih.2.1 ih'.2.1
    refine ⟨ht, hu, (same?_node_iff ht hu).mpr (.inr ⟨inner first.isNil_eq.1,
      inner first.isNil_eq.2, left.trans right.symm, id, .inl rfl, fun side => ?_⟩)⟩
    cases side with
    | left => exact ih.2.2
    | right => exact ih'.2.2
  | @swap i j a b op t x y isOp isOp' commutes two same ih =>
    obtain ⟨ht, hu, equal⟩ := ih
    have hv : (Tree.node j b (pair y x)).Comparable :=
      comparable_pair (by simp [isOp']) (hu.below .right) (hu.below .left)
    have crossed : a.Pairs Side.flip := by
      refine .inr ⟨rfl, ?_⟩
      rcases commutes with rfl | rfl <;> simp [Label.commutes, isOp, Operator.commutes]
    cases t with
    | nil => cases same.isNil_eq.1
    | missing => exact absurd ht.whole Bool.false_ne_true
    | node k c child =>
      refine ⟨ht, hv, (same?_node_iff ht hv).mpr ?_⟩
      rcases (same?_node_iff ht hu).mp equal with ⟨-, leaf, -⟩ | ⟨inner', -, op', σ, pairs, equal⟩
      · simp [childless, two] at leaf
      · refine .inr ⟨inner', inner two, op'.trans (isOp.trans isOp'.symm), Side.flip ∘ σ,
          pairs.comp (crossed.of_op op'.symm), fun side => ?_⟩
        have turned (side : Side) : pair y x side.flip = pair x y side := by cases side <;> rfl
        rw [Function.comp_apply, turned]
        exact equal side
  | symm _ ih => exact ⟨ih.2.1, ih.1, same?_symm ih.1 ih.2.1 ih.2.2⟩
  | trans _ _ ih ih' => exact ⟨ih.1, ih'.2.1, same?_trans ih.1 ih.2.1 ih'.2.1 ih.2.2 ih'.2.2⟩

end Equivalent

theorem eq_pair_of_childless {child : Side → Tree} (leaf : childless child = true) :
    child = pair .nil .nil := by
  have leaf := Bool.and_eq_true_iff.mp leaf
  rw [← pair_eta child, eq_nil_of_isNil leaf.1, eq_nil_of_isNil leaf.2]

theorem equivalent_of_same? (ht : t.Formed) (hu : u.Formed) (h : t.same? u = some true) :
    t.Equivalent u := by
  induction t generalizing u with
  | nil => cases ht.there
  | missing => exact absurd ht.whole Bool.false_ne_true
  | node i a child ih =>
    cases u with
    | nil => cases hu.there
    | missing => exact absurd hu.whole Bool.false_ne_true
    | node j b child' =>
      have operand (side side' : Side) (there : (child side).isNil = false)
          (same : (child side).same? (child' side') = some true) :
          (child side).Equivalent (child' side') := by
        refine ih side ⟨there, (ht.comparable.below side).whole,
          operational_child ht.operational side⟩ ⟨?_, (hu.comparable.below side').whole,
          operational_child hu.operational side'⟩ same
        refine Bool.eq_false_iff.mpr fun nil => ?_
        rw [eq_nil_of_isNil nil] at same
        rw [same?_nil_right same] at there
        cases there
      rcases (same?_node_iff ht.comparable hu.comparable).mp h with
        ⟨leaf, leaf', same⟩ | ⟨inner, inner', op, σ, pairs, same⟩
      · obtain ⟨x, y, left, right, same⟩ := Label.sameAtom_iff.mp same
        rw [eq_pair_of_childless leaf, eq_pair_of_childless leaf']
        exact .leaf left right (Atom.same_iff.mp same)
      · obtain ⟨⟨f, isOp⟩, left⟩ := operational_inner ht.operational inner
        obtain ⟨-, left'⟩ := operational_inner hu.operational inner'
        have isOp' := op.symm.trans isOp
        rw [← pair_eta child, ← pair_eta child']
        rcases pairs with rfl | ⟨rfl, commutes⟩
        · have first := operand .left .left left (same .left)
          cases right : (child .right).isNil with
          | true =>
            have alone : (child .right).same? (child' .right) = some true := same .right
            rw [eq_nil_of_isNil right] at alone ⊢
            rw [same?_nil_left.mp alone]
            exact .unary isOp isOp' first
          | false => exact .binary isOp isOp' first (operand .right .right right (same .right))
        · have right : (child .right).isNil = false := by
            refine Bool.eq_false_iff.mpr fun nil => ?_
            have crossed : (child .right).same? (child' .left) = some true := same .right
            rw [eq_nil_of_isNil nil] at crossed
            rw [same?_nil_left.mp crossed] at left'
            cases left'
          have isCommutative : f = .add ∨ f = .mul := by
            cases f <;> simp_all [Label.commutes, Operator.commutes]
          have crossed : (Tree.node i a (pair (child .left) (child .right))).Equivalent
              (.node j b (pair (child' .right) (child' .left))) :=
            .binary isOp isOp' (operand .left .right left (same .left))
              (operand .right .left right (same .right))
          exact .swap isOp' isOp' isCommutative left' crossed

theorem same?_of_anonymous (alike : u.anonymous = t.anonymous) (self : t.same? t = some true) :
    u.same? t = some true := by
  have outline : u.outline = t.outline := outline_eq_of_bare (bare_eq_of_anonymous alike)
  rw [← same?_outline, outline, same?_outline, self]

end Tree

universe w

/-- The comparison of trees decides their equivalence. It can be turned around and put together, a
tree equals itself unless a leaf has no value, a float that is no number or a value that is not
looked into, a tree that equals itself equals its copy, and equal trees compute the same wherever
the operands of sums and products may be exchanged. -/
theorem same?_decides_equivalence {t u v : Tree} (ht : t.Formed) (hu : u.Formed) (hv : v.Formed) :
    (t.same? u).isSome ∧ (t.same? u = some true ↔ t.Equivalent u) ∧ t.same? u = u.same? t ∧
    (t.same? u = some true → u.same? v = some true → t.same? v = some true) ∧
    (t.same? t = some true ↔ ∀ o ∈ t.leaves, ∃ x ∈ o, x.atom.comparable = true) ∧
    (t.same? t = some true → ∀ (s : Store) (id : NodeId), s.Owned (some id) t →
      ∃ c s', Store.copy id s = .ok c s' ∧ s'.tree id = t ∧ (s'.tree c).same? t = some true) ∧
    (t.same? u = some true → ∀ (R : Type w) (I : Interpretation R), I.Commutative →
      ∀ (env : Env R) (other : Option ValueId → R), t.eval I env other = u.eval I env other) := by
  refine ⟨ht.comparable.isSome_same? hu.comparable,
    ⟨Tree.equivalent_of_same? ht hu, fun h => h.same?.2.2⟩,
    Tree.same?_comm ht.comparable hu.comparable,
    Tree.same?_trans ht.comparable hu.comparable hv.comparable, Tree.same?_self_iff ht.comparable,
    fun self s id owned => ?_, fun same R I laws env other => ?_⟩
  · obtain ⟨c, s', run, t', copied⟩ := (Store.ends_copy owned).exists_ok
    refine ⟨c, s', run, (copied.turns.keeps_old owned).tree_eq, ?_⟩
    rw [copied.owned.tree_eq]
    exact Tree.same?_of_anonymous copied.alike self
  · exact (Tree.eval_eq_of_same? laws same ht.comparable.tagged hu.comparable.tagged).2

/-- Three spellings of the sum of `$0 * $1` and the negated zero. -/
def Store.spellings : Store :=
  let op (op : Operator) (left : NodeId) (right : Option NodeId) : Node :=
    { op := some op, left := some left, right }
  let read (v : VarId) : Node := { origin := some ⟨v, none, .var v⟩ }
  let zero (negative : Bool) : Node := { origin := some ⟨2, none, .float (.zero negative)⟩ }
  ⟨#[op .add 1 (some 2), op .mul 3 (some 4), op (.other "__neg__") 5 none, read 0, read 1, zero false,
    op .add 7 (some 8), op (.other "__neg__") 9 none, op .mul 10 (some 11), zero true, read 0, read 1,
    op .add 13 (some 14), op .mul 15 (some 16), op (.other "__neg__") 17 none, read 1, read 0,
    zero true]⟩

theorem same?_decides_equivalence_spellings :
    ∃ (s : Store) (t u v : Tree), s = .spellings ∧ s.tree 0 = t ∧ s.tree 6 = u ∧ s.tree 12 = v ∧
      t.Formed ∧ u.Formed ∧ v.Formed ∧ t.Equivalent u ∧ u.Equivalent v ∧
      t.same? v = some true ∧ v.same? t = some true ∧
      (∃ c s', s.Owned (some 0) t ∧ Store.copy 0 s = .ok c s' ∧ (s'.tree c).same? t = some true) ∧
      ∀ I : Interpretation Int, I.Commutative → ∀ (env : Env Int) (other : Option ValueId → Int),
        t.eval I env other = u.eval I env other := by
  obtain ⟨s, isStore⟩ : ∃ s : Store, s = .spellings := ⟨_, rfl⟩
  have formed (id : NodeId) (checked : (!(s.tree id).isNil && (s.tree id).complete &&
      (s.tree id).operational) = true) : (s.tree id).Formed := by
    simp only [Bool.and_eq_true, Bool.not_eq_true'] at checked
    exact ⟨checked.1.1, checked.1.2, checked.2⟩
  have ht := formed 0 (by rw [isStore]; decide +kernel)
  have hu := formed 6 (by rw [isStore]; decide +kernel)
  have hv := formed 12 (by rw [isStore]; decide +kernel)
  have owned : s.Owned (some 0) (s.tree 0) :=
    Store.owned_tree ht.whole (by rw [isStore]; decide +kernel)
  have first : (s.tree 0).same? (s.tree 6) = some true := by rw [isStore]; decide +kernel
  have second : (s.tree 6).same? (s.tree 12) = some true := by rw [isStore]; decide +kernel
  have self : (s.tree 0).same? (s.tree 0) = some true := by rw [isStore]; decide +kernel
  obtain ⟨-, equivalent, -, trans, -, copies, eval⟩ := same?_decides_equivalence.{0} ht hu hv
  obtain ⟨-, equivalent', -⟩ := same?_decides_equivalence.{0} hu hv ht
  obtain ⟨-, -, comm, -⟩ := same?_decides_equivalence.{0} hv ht hu
  obtain ⟨c, s', run, -, copied⟩ := copies self s 0 owned
  have third := trans first second
  exact ⟨s, _, _, _, isStore, rfl, rfl, rfl, ht, hu, hv, equivalent.mp first, equivalent'.mp second,
    third, comm.trans third, ⟨c, s', owned, run, copied⟩, eval first Int⟩

end SecureArith
