import SecureArith.Proofs.Factoring
import SecureArith.Proofs.Factoring.Normal

set_option autoImplicit false

/-!
# Factoring saves multiplications

`Interpretation.muls` counts the multiplications of an expression, where a read of a variable counts
as many as the environment gives it. Taking a common factor out of two products saves the
multiplication and whatever the factor takes to compute. So factoring comes to an end before its
bound does, and leaves a settled tree.
-/

namespace SecureArith

def Interpretation.muls : Interpretation Nat where
  int _ := 0
  float _ := 0
  call name args := (if name = Operator.mul.name then 1 else 0) + args.sum
  tuple args := args.sum

namespace Label

def muls (l : Label) : Nat := if l.opName = Operator.mul.name then 1 else 0

end Label

/-- Multiplications, where leaves take what they stand for. -/
def Tally.ofMuls (env : Env Nat) (other : Option ValueId → Nat) : Tally Nat :=
  ⟨fun label => label.eval .muls env other, fun tag => ({ op := tag } : Label).muls⟩

namespace Tree

variable {env : Env Nat} {other : Option ValueId → Nat} {t u : Tree} {id : NodeId}
  {label : Label} {child : Side → Tree}

/-- Where nothing counts as nothing, an operation takes what its operands take. -/
theorem eval_muls (nothing : other none = 0) (inner : childless child = false) (side : Side) :
    (Tree.node id label child).eval .muls env other =
      label.muls + (child side).eval .muls env other + (child side.flip).eval .muls env other := by
  have absent (t : Tree) (nil : t.isNil = true) : t.eval .muls env other = 0 := by
    rw [eq_nil_of_isNil nil]
    exact nothing
  have parts : (present child ((child .left).eval .muls env other)
      ((child .right).eval .muls env other)).sum =
      (child .left).eval .muls env other + (child .right).eval .muls env other := by
    unfold present
    split <;> split <;> simp_all
  rw [eval, inner, if_neg Bool.false_ne_true]
  change label.muls + _ = _
  rw [parts]
  cases side with
  | left => exact (Nat.add_assoc _ _ _).symm
  | right => change _ = label.muls + _ + (child .left).eval .muls env other; omega

theorem eval_muls_eq_tally (nothing : other none = 0) (env : Env Nat) (t : Tree) :
    t.eval .muls env other = t.tally (.ofMuls env other) := by
  induction t with
  | nil | missing => exact nothing
  | node id label child ih =>
    by_cases leaf : childless child = true
    · rw [eval_leaf leaf, tally, if_pos leaf, children_of_childless leaf .left,
        children_of_childless leaf .right]
      rfl
    · have inner := Bool.eq_false_iff.mpr leaf
      rw [eval_muls nothing inner .left, tally_node inner .left, ih, ih]
      rfl

theorem Sub.muls_le (nothing : other none = 0) (h : u.Sub t) (there : u.isNil = false)
    (env : Env Nat) : u.eval .muls env other ≤ t.eval .muls env other := by
  induction h with
  | refl => exact Nat.le_refl _
  | child side sub ih =>
    rw [eval_muls nothing (childless_eq_false side (sub.isNil_eq there)) side]
    omega

theorem inner_of_muls_pos (h : 0 < t.eval .muls (fun _ => 0) (fun _ => 0)) : t.inner = true := by
  cases t with
  | nil | missing => exact absurd h (Nat.lt_irrefl 0)
  | node id label child =>
    by_cases leaf : childless child = true
    · rw [eval_leaf leaf] at h
      unfold Label.eval at h
      split at h <;> exact absurd h (Nat.lt_irrefl 0)
    · simpa [inner] using leaf

end Tree

section Merge

variable {s rest : Tree} {f g : Factor} {m k : Spot} {other : Option ValueId → Nat}

theorem Twins.muls_merge_pos (nothing : other none = 0) (h : Twins s f g m k) {sum : NodeId}
    (fresh : Twins.Fresh s sum rest) (alike : rest.anonymous = (m.rest f.parent).anonymous)
    (expanded : Bool) (env : Env Nat) :
    0 < (s.merge f g k (f.joint expanded sum rest (k.rest g.parent))).eval .muls env other := by
  obtain ⟨label, child, eq, -⟩ :=
    Tree.exists_node_of_isOp h.earlier.product_isOp h.earlier.product
  have once := h.once g.product
  have taken := Tree.tally_graft (w := .ofMuls env other) (v := k.rest g.parent)
    (eq ▸ h.earlier.term.sub) once h.earlier.isNil_rest
  rw [← eq] at taken
  have merged := h.tally_merge (w := .ofMuls env other) fresh alike expanded
  have earlier := h.earlier.tally_rest (w := .ofMuls env other) h.nodup
  have later := h.later.tally_rest (w := .ofMuls env other) h.nodup
  have below := h.term_taken.sub.muls_le nothing (Tree.isNil_of_id? h.later.product) env
  rw [Tree.eval_muls_eq_tally nothing, Tree.eval_muls_eq_tally nothing] at below
  rw [Tree.eval_muls_eq_tally nothing]
  have one : (Tally.ofMuls env other).inner (some .mul) = 1 := rfl
  omega

end Merge

namespace Tree

variable {env : Env Nat} {other : Option ValueId → Nat} {t u : Tree}

theorem Factored.muls_lt (nothing : other none = 0) (h : t.Factored u) (env : Env Nat) :
    u.eval .muls env other < t.eval .muls env other := by
  obtain ⟨twin, sheds⟩ := h.sheds
  have saved := sheds Nat (.ofMuls env other)
  have one : (Tally.ofMuls env other).inner (some .mul) = 1 := rfl
  rw [eval_muls_eq_tally nothing, eval_muls_eq_tally nothing]
  omega

theorem Factored.muls_pos (nothing : other none = 0) (h : t.Factored u) (env : Env Nat) :
    0 < u.eval .muls env other := by
  induction h with
  | sum expanded twins same fresh alike =>
    exact twins.muls_merge_pos nothing fresh alike expanded env
  | @left l l' id label r h ih =>
    have sub : l'.Sub (.node id label (pair l' r)) := .child .left .refl
    exact Nat.lt_of_lt_of_le ih (sub.muls_le nothing h.isNil_eq.2 env)
  | @right r r' id label l h ih =>
    have sub : r'.Sub (.node id label (pair l r')) := .child .right .refl
    exact Nat.lt_of_lt_of_le ih (sub.muls_le nothing h.isNil_eq.2 env)

theorem muls_le_of_factored (nothing : other none = 0) (h : Relation.ReflTransGen Factored t u)
    (env : Env Nat) :
    u.eval .muls env other ≤ t.eval .muls env other := by
  induction h with
  | refl => exact Nat.le_refl _
  | tail _ step ih => exact Nat.le_trans (Nat.le_of_lt (step.muls_lt nothing env)) ih

end Tree

namespace Work

variable {b : Bench} {root : Nat} {t : Tree}

/-- Nothing is left to factor in the end, and what is not changed is left alone. -/
theorem ends_factorAll_settles {c : Classifier} (h : b.forest.store.Owned (some root) t) :
    Ends (factorAll c root) b
      (fun changed b' => ∃ u v, b.Reworked (some root) t b' v ∧
        Relation.ReflTransGen Tree.Factored t u ∧ v.untyped = u.untyped ∧
        v.Settled ∧ (changed = false → v = t))
      fun _ _ => True := by
  obtain ⟨n, b₁, u, made⟩ := exists_factorings h
  have owned := made.reworked.owned
  have settled := (Tree.factoring?_eq_none_iff owned.spans.complete owned.nodup).mp made.none
  refine (made.ends_factorAll c h).imp ?_ fun _ _ _ => trivial
  rintro changed b' ⟨-, v, reworked, same, kept⟩
  refine ⟨u, v, reworked, made.factored, same, ?_, kept⟩
  exact Tree.settled_of_outline
    (Tree.outline_eq_of_bare (Tree.bare_eq_of_untyped same)) settled

theorem ends_factorAll_settled {c : Classifier} (h : b.forest.store.Owned (some root) t)
    (settled : t.Settled) :
    Ends (factorAll c root) b (fun changed b' => changed = false ∧ b' = b) fun _ _ => False := by
  have none := (Tree.factoring?_eq_none_iff h.spans.complete h.nodup).mpr settled
  have once : Ends (factorOnce root) b (fun changed b' => changed = false ∧ b' = b)
      fun _ _ => False := by
    rw [factorOnce, Ends.bind_iff, ends_tree, h.tree_eq, none]
    exact ⟨rfl, rfl⟩
  have upTo (n : Nat) : Ends (factorUpTo root n false) b (fun changed b' => changed = false ∧ b' = b)
      fun _ _ => False := by
    cases n with
    | zero => exact ⟨rfl, rfl⟩
    | succ n =>
      rw [factorUpTo, Ends.bind_iff]
      refine once.imp ?_ fun _ _ h => h
      rintro _ _ ⟨rfl, rfl⟩
      exact ⟨rfl, rfl⟩
  rw [factorAll, Ends.bind_iff, Ends.get_iff, Ends.bind_iff]
  refine (upTo _).imp ?_ fun _ _ h => h
  rintro _ _ ⟨rfl, rfl⟩
  exact ⟨rfl, rfl⟩

end Work

end SecureArith
