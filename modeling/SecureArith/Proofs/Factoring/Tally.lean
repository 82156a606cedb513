import Mathlib.Tactic.Abel
import SecureArith.Proofs.Factoring.Merge
import SecureArith.Proofs.Tally

set_option autoImplicit false

/-!
# What factoring saves

Merging two products saves a multiplication and one of the equal factors, whatever is added up over
the nodes of the trees. So it does for the number of nodes of an operator and for the leaves.
-/

namespace SecureArith

namespace Tree

variable {M : Type} [AddCancelCommMonoid M] {w : Tally M} {t u v : Tree} {id a : NodeId}
  {label : Label} {child : Side → Tree}

theorem tally_graft (sub : Sub (.node a label child) t) (once : t.preorder.count a ≤ 1)
    (there : v.isNil = false) :
    (t.graft a v).tally w + (Tree.node a label child).tally w = t.tally w + v.tally w := by
  induction sub with
  | refl => rw [graft_root, add_comm]
  | @child id label' child' side sub ih =>
    obtain ⟨ne, once', kept⟩ := graft_step (v := v) (sub.mem List.mem_cons_self) once
    have below := ih once'
    have here := sub.isNil_eq rfl
    have here' := (isNil_graft (a := a) there (child' side)).trans here
    have before : (Tree.node id label' child').tally w = _ :=
      tally_node (childless_eq_false side here) side
    rw [graft_node ne, tally_node (childless_eq_false side here') side, kept, before]
    calc w.inner label'.op + ((child' side).graft a v).tally w + (child' side.flip).tally w +
          (Tree.node a label child).tally w
      _ = w.inner label'.op + (child' side.flip).tally w +
          (((child' side).graft a v).tally w + (Tree.node a label child).tally w) := by abel
      _ = w.inner label'.op + (child' side).tally w + (child' side.flip).tally w + v.tally w := by
        rw [below]
        abel

end Tree

section Merge

variable {M : Type} [AddCancelCommMonoid M] {w : Tally M} {s rest : Tree} {f g : Factor}
  {m k : Spot}

theorem Factor.StandsAt.tally_rest (h : f.StandsAt s m) (nodup : s.preorder.Nodup) :
    (m.rest f.parent).tally w + (w.inner (some .mul) + f.tree.tally w) = m.product.tally w := by
  have once := h.once nodup f.parent
  have sibling := Tree.isNil_of_id? h.sibling
  have grafted := Tree.tally_graft (w := w) (v := m.sibling.withId f.parent) h.parent.sub once
    ((Tree.isNil_withId _ _).trans sibling)
  have there : m.tree.isNil = false := Tree.isNil_of_id? (h.tree ▸ h.id)
  have node : (Tree.node f.parent m.times m.factor).tally w =
      w.inner (some .mul) + m.tree.tally w + m.sibling.tally w :=
    Label.op_eq_of_isOp h.times ▸ Tree.tally_node (Tree.childless_eq_false m.place there) m.place
  rw [node, Tree.tally_withId, ← add_assoc] at grafted
  rw [← h.tree]
  exact add_right_cancel grafted

/-- Products are replaced by what is left of them and by the joint, and a sum by its other term. -/
theorem saved_of_replaced {whole taken rejoined merged times plus factor factor' left left' tail : M}
    (first : taken + (left' + (times + factor')) = whole + left')
    (second : rejoined + (left + (times + factor)) =
      taken + (times + factor + (plus + left + left')))
    (third : merged + (plus + left' + tail) = rejoined + tail) :
    merged + (times + factor') = whole := by
  have rejoin : rejoined = taken + (plus + left') :=
    add_right_cancel (second.trans (by abel : _ = taken + (plus + left') + (left + (times + factor))))
  have merge : merged = taken := by
    rw [rejoin] at third
    exact add_right_cancel (third.trans (by abel : _ = taken + (plus + left' + tail)))
  rw [merge]
  exact add_right_cancel ((by abel : _ = taken + (left' + (times + factor'))).trans first)

/-- Merging two products saves a multiplication and one of the equal factors. -/
theorem Twins.tally_merge (h : Twins s f g m k) {sum : NodeId} (fresh : Twins.Fresh s sum rest)
    (alike : rest.anonymous = (m.rest f.parent).anonymous) (expanded : Bool) :
    (s.merge f g k (f.joint expanded sum rest (k.rest g.parent))).tally w +
      (w.inner (some .mul) + g.tree.tally w) = s.tally w := by
  have restThere := h.earlier.isNil_rest
  obtain ⟨label, child, eq, -⟩ :=
    Tree.exists_node_of_isOp h.earlier.product_isOp h.earlier.product
  obtain ⟨label', child', eq', -⟩ := Tree.exists_node_of_isOp h.later.product_isOp h.later.product
  have joint : (f.joint expanded sum rest (k.rest g.parent)).tally w =
      w.inner (some .mul) + f.tree.tally w + (w.inner (some .add) +
        (m.rest f.parent).tally w + (k.rest g.parent).tally w) := by
    have there := Tree.isNil_of_id? h.later.id
    rw [← Tree.tally_eq_of_anonymous alike, Factor.joint,
      Tree.tally_node (Tree.childless_eq_false .left there) .left]
    congr 1
    exact Tree.tally_node (Tree.childless_eq_false .right restThere) .left
  -- The three replacements, one after the other.
  have first := Tree.tally_graft (w := w) (v := k.rest g.parent) (eq ▸ h.earlier.term.sub)
    (h.once g.product) restThere
  have second := Tree.tally_graft (w := w) (v := f.joint expanded sum rest (k.rest g.parent))
    (eq' ▸ h.term_taken.sub) (h.once_taken f.product) rfl
  rw [← eq] at first
  rw [← eq'] at second
  obtain ⟨child, term, product, tail⟩ :=
    h.term_rejoin (f.joint expanded sum rest (k.rest g.parent)) rfl
  have tailThere : (k.tail.graft f.product
      (f.joint expanded sum rest (k.rest g.parent))).isNil = false :=
    (Tree.isNil_graft rfl _).trans (Tree.isNil_of_id? h.earlier.tail)
  have third := Tree.tally_graft (w := w)
    (v := (k.tail.graft f.product (f.joint expanded sum rest (k.rest g.parent))).withId g.sum)
    term.sub (h.count_sum_rejoin fresh) ((Tree.isNil_withId _ _).trans tailThere)
  rw [Tree.tally_withId, Tree.tally_node (Tree.childless_eq_false k.side (product ▸ restThere)) k.side,
    Label.op_eq_of_isOp h.earlier.plus, product, tail] at third
  have later := h.later.tally_rest (w := w) h.nodup
  have earlier := h.earlier.tally_rest (w := w) h.nodup
  rw [← earlier] at first
  rw [joint, ← later] at second
  exact saved_of_replaced first second third

end Merge

namespace Tree

variable {t u twin l r l' r' : Tree}

/-- A tree becomes another one that has all that it has, but for a multiplication and a factor. -/
def Sheds (t twin u : Tree) : Prop :=
  ∀ (M : Type) [AddCancelCommMonoid M] (w : Tally M),
    u.tally w + (w.inner (some .mul) + twin.tally w) = t.tally w

theorem Sheds.child (child child' : Side → Tree) (side : Side)
    (h : (child side).Sheds twin (child' side)) (there : (child side).isNil = false)
    (there' : (child' side).isNil = false) (same : child' side.flip = child side.flip)
    (id : NodeId) (label : Label) :
    (Tree.node id label child).Sheds twin (.node id label child') := by
  intro M _ w
  rw [tally_node (childless_eq_false side there) side,
    tally_node (childless_eq_false side there') side, same, ← h M w]
  abel

theorem Sheds.count_eq (h : t.Sheds twin u) (op : Operator) :
    u.count op + (if op = .mul then 1 else 0) + twin.count op = t.count op := by
  have counted := h Nat (.ofOperator op)
  have times : (Tally.ofOperator op).inner (some .mul) = if op = .mul then 1 else 0 := by
    simp only [Tally.ofOperator, Option.some.injEq]
    exact if_congr eq_comm rfl rfl
  rw [tally_ofOperator, tally_ofOperator, tally_ofOperator, times] at counted
  omega

theorem Sheds.leaves_perm (h : t.Sheds twin u) : (u.leaves ++ twin.leaves).Perm t.leaves := by
  have counted := h _ .ofLeaves
  rw [tally_ofLeaves, tally_ofLeaves, tally_ofLeaves] at counted
  exact Multiset.coe_eq_coe.mp ((congrArg (_ + ·) (zero_add _)).symm.trans counted)

theorem Sheds.tagged (h : t.Sheds twin u) (tagged : t.tagged = true) : u.tagged = true := by
  rw [tagged_iff] at tagged ⊢
  have counted := h Nat .ofUntagged
  omega

theorem Factored.sheds (h : t.Factored u) : ∃ twin, t.Sheds twin u := by
  induction h with
  | @sum s rest f g m k sum expanded twins same fresh alike =>
    exact ⟨g.tree, fun M _ w => twins.tally_merge fresh alike expanded⟩
  | @left l l' id label r h ih =>
    obtain ⟨twin, sheds⟩ := ih
    exact ⟨twin, .child (pair l r) (pair l' r) .left sheds h.isNil_eq.1 h.isNil_eq.2 rfl id label⟩
  | @right r r' id label l h ih =>
    obtain ⟨twin, sheds⟩ := ih
    exact ⟨twin, .child (pair l r) (pair l r') .right sheds h.isNil_eq.1 h.isNil_eq.2 rfl id label⟩

universe u

variable {R : Type u} [CommRing R] {I : Interpretation R}

theorem Sub.tagged (h : u.Sub t) (whole : t.tagged = true) : u.tagged = true := by
  induction h with
  | refl => exact whole
  | child side _ ih => exact ih (tagged_child whole side)

theorem Factored.eval_eq (laws : I.Ringlike) (h : t.Factored u) (tagged : t.tagged = true)
    (env : Env R) (other : Option ValueId → R) : u.eval I env other = t.eval I env other := by
  induction h with
  | sum expanded twins same fresh alike =>
    have bare := bare_eq_of_anonymous alike
    have there := (isNil_eq_of_bare bare).trans twins.later.isNil_rest
    refine twins.eval_merge laws fresh env other there ?_ (eval_eq_of_bare bare)
    exact (eval_eq_of_same? laws.commutative same (twins.later.tree_sub.tagged tagged)
      (twins.earlier.tree_sub.tagged tagged)).2
  | @left l l' id label r h ih =>
    refine eval_node_congr (fun side => ?_) (fun side => ?_) id id label
    · cases side with
      | left => exact h.isNil_eq.2.trans h.isNil_eq.1.symm
      | right => rfl
    · cases side with
      | left => exact ih (tagged_child tagged .left)
      | right => rfl
  | @right r r' id label l h ih =>
    refine eval_node_congr (fun side => ?_) (fun side => ?_) id id label
    · cases side with
      | left => rfl
      | right => exact h.isNil_eq.2.trans h.isNil_eq.1.symm
    · cases side with
      | left => rfl
      | right => exact ih (tagged_child tagged .right)

end Tree

end SecureArith
