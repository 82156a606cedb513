import Mathlib.Tactic.Ring
import SecureArith.Proofs.Graft

set_option autoImplicit false

/-!
# Terms of sums and factors of products

`Tree.Term op t u` says that `u` is reached from `t` through operations `op` of two operands. In a
commutative ring a sum changes by what its term changes by, and a product is one of its factors
times what is left when the factor is taken out.
-/

namespace SecureArith

namespace Tree

variable {op : Operator} {s t u v w : Tree} {id a : NodeId} {label : Label} {child : Side → Tree}

def isOp (op : Operator) : Tree → Bool
  | .node _ label _ => label.isOp op
  | _ => false

/-- The second tree is reached from the first through operations of two operands. -/
inductive Term (op : Operator) (u : Tree) : Tree → Prop
  | refl : Term op u u
  | step {id : NodeId} {label : Label} {child : Side → Tree} (side : Side)
      (isOp : label.isOp op = true) (beside : (child side.flip).isNil = false)
      (h : Term op u (child side)) : Term op u (.node id label child)

namespace Term

theorem sub (h : Term op u t) : u.Sub t := by
  induction h with
  | refl => exact .refl
  | step side _ _ _ ih => exact .child side ih

theorem isNil_eq (h : Term op u t) (there : u.isNil = false) : t.isNil = false := by
  cases h with
  | refl => exact there
  | step => rfl

theorem trans (h : Term op u v) (h' : Term op v t) : Term op u t := by
  induction h' with
  | refl => exact h
  | step side isOp beside _ ih => exact .step side isOp beside ih

theorem isOp_root {parent : NodeId} {times : Label} {factor : Side → Tree}
    (h : Term op (.node parent times factor) t) (isOp : times.isOp op = true) :
    t.isOp op = true := by
  cases h with
  | refl => exact isOp
  | step _ isOp' => exact isOp'

theorem eq_of_not_isOp (h : Term op u t) (other : t.isOp op = false) : u = t := by
  cases h with
  | refl => rfl
  | step _ isOp => simp [Tree.isOp, isOp] at other

theorem graft (h : Term op u t) (there : v.isNil = false)
    (ends : ∀ label child, Term op (.node a label child) t → label.isOp op = false) :
    Term op (u.graft a v) (t.graft a v) := by
  induction h with
  | refl => exact .refl
  | @step id label child side isOp beside h ih =>
    have ne : id ≠ a := by
      rintro rfl
      exact Bool.false_ne_true ((ends label child .refl).symm.trans isOp)
    rw [graft_node ne]
    refine .step side isOp ((isNil_graft there _).trans beside) (ih fun label' child' h' => ?_)
    exact ends label' child' (.step side isOp beside h')

/-- Two terms are the same or have nothing in common. -/
theorem apart (h : Term op u t) (h' : Term op v t) (other : u.isOp op = false)
    (other' : v.isOp op = false) (nodup : t.preorder.Nodup) :
    u = v ∨ ∀ i ∈ u.preorder, i ∉ v.preorder := by
  induction h with
  | refl => exact .inl (h'.eq_of_not_isOp other).symm
  | @step id label child side isOp beside h ih =>
    cases h' with
    | refl => simp [Tree.isOp, isOp] at other'
    | step side' _ _ h' =>
      have below (side : Side) : (child side).preorder.Nodup :=
        nodup.sublist (Sub.child (u := child side) side .refl).sublist
      by_cases eq : side' = side
      · subst eq
        exact ih h' (below side')
      · right
        intro i mem mem'
        have flip : side' = side.flip := by cases side <;> cases side' <;> simp_all [Side.flip]
        have count := List.nodup_iff_count_le_one.mp nodup i
        rw [count_preorder_node side] at count
        have := List.count_pos_iff.mpr (h.sub.mem mem)
        have := List.count_pos_iff.mpr (flip ▸ h'.sub.mem mem')
        omega

theorem notMem (h : Term op u t) (other : u.isOp op = false)
    (h' : Term op (.node a label child) t) (isOp : label.isOp op = true)
    (nodup : t.preorder.Nodup) : a ∉ u.preorder := by
  induction h with
  | refl =>
    have eq := h'.eq_of_not_isOp other
    rw [← eq] at other
    simp [Tree.isOp, isOp] at other
  | @step id label' child' side isOp' beside h ih =>
    intro mem
    have inside := List.count_pos_iff.mpr (h.sub.mem mem)
    have count := List.nodup_iff_count_le_one.mp nodup a
    rw [count_preorder_node side] at count
    cases h' with
    | refl =>
      rw [if_pos rfl] at count
      omega
    | step side' _ _ h' =>
      by_cases eq : side' = side
      · subst eq
        exact ih h' (nodup.sublist (Sub.child (u := child' side') side' .refl).sublist) mem
      · have flip : side' = side.flip := by cases side <;> cases side' <;> simp_all [Side.flip]
        have := List.count_pos_iff.mpr (flip ▸ h'.sub.mem List.mem_cons_self)
        omega

end Term

universe u

variable {R : Type u} [CommRing R] {I : Interpretation R} {env : Env R}
  {other : Option ValueId → R}

theorem eval_add (laws : I.Ringlike) (isOp : label.isOp .add = true) (side : Side)
    (there : (child side).isNil = false) (beside : (child side.flip).isNil = false) :
    (Tree.node id label child).eval I env other =
      (child side).eval I env other + (child side.flip).eval I env other := by
  cases side with
  | left =>
    rw [eval_binary there beside, Label.opName_of_isOp isOp, laws.add]
    rfl
  | right =>
    rw [eval_binary beside there, Label.opName_of_isOp isOp, laws.add, add_comm]
    rfl

theorem eval_mul (laws : I.Ringlike) (isOp : label.isOp .mul = true) (side : Side)
    (there : (child side).isNil = false) (beside : (child side.flip).isNil = false) :
    (Tree.node id label child).eval I env other =
      (child side).eval I env other * (child side.flip).eval I env other := by
  cases side with
  | left =>
    rw [eval_binary there beside, Label.opName_of_isOp isOp, laws.mul]
    rfl
  | right =>
    rw [eval_binary beside there, Label.opName_of_isOp isOp, laws.mul, mul_comm]
    rfl

theorem graft_step {side : Side} (mem : a ∈ (child side).preorder)
    (once : (Tree.node id label child).preorder.count a ≤ 1) :
    id ≠ a ∧ (child side).preorder.count a ≤ 1 ∧ (child side.flip).graft a v = child side.flip := by
  have inside := List.count_pos_iff.mpr mem
  rw [count_preorder_node side] at once
  refine ⟨?_, by omega, graft_of_notMem fun mem' => ?_⟩
  · rintro rfl
    rw [if_pos rfl] at once
    omega
  · have := List.count_pos_iff.mpr mem'
    omega

/-- A sum changes by what one of its terms changes by. -/
theorem eval_graft_term (laws : I.Ringlike) (h : Term .add u t) (there : u.isNil = false)
    (there' : v.isNil = false) (mem : a ∈ u.preorder) (once : t.preorder.count a ≤ 1)
    (env : Env R) (other : Option ValueId → R) :
    (t.graft a v).eval I env other =
      t.eval I env other - u.eval I env other + (u.graft a v).eval I env other := by
  induction h with
  | refl => ring
  | @step id label child side isOp beside h ih =>
    obtain ⟨ne, once', kept⟩ := graft_step (v := v) (h.sub.mem mem) once
    have here := h.isNil_eq there
    have here' : ((child side).graft a v).isNil = false := (isNil_graft there' _).trans here
    have beside' : ((child side.flip).graft a v).isNil = false := by rw [kept, beside]
    rw [graft_node ne, eval_add laws isOp side here beside,
      eval_add laws isOp side here' beside', kept, ih once']
    ring

/-- A product is a factor times what is left when the factor is taken out. -/
theorem eval_take (laws : I.Ringlike) {factor : Side → Tree}
    (h : Term .mul (.node a label factor) t) (isOp : label.isOp .mul = true) (side : Side)
    (there : (factor side).isNil = false) (beside : (factor side.flip).isNil = false)
    (once : t.preorder.count a ≤ 1) :
    t.eval I env other = (factor side).eval I env other *
      (t.graft a ((factor side.flip).withId a)).eval I env other := by
  induction h with
  | refl =>
    rw [graft_root, eval_mul laws isOp side there beside, eval_eq_of_bare (bare_withId a _)]
  | @step id label' child side' isOp' beside' h ih =>
    obtain ⟨ne, once', kept⟩ :=
      graft_step (v := (factor side.flip).withId a) (h.sub.mem List.mem_cons_self) once
    have here : (child side').isNil = false := h.isNil_eq rfl
    have there' : ((factor side.flip).withId a).isNil = false := by rw [isNil_withId, beside]
    have here' := (isNil_graft (a := a) there' (child side')).trans here
    have beside'' : ((child side'.flip).graft a ((factor side.flip).withId a)).isNil = false := by
      rw [kept, beside']
    rw [graft_node ne, eval_mul laws isOp' side' here beside',
      eval_mul laws isOp' side' here' beside'', kept, ih once']
    ring

end Tree

end SecureArith
