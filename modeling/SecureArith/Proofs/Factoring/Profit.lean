import SecureArith.Proofs.Factoring

set_option autoImplicit false

/-!
# Factoring pays

A factoring takes a multiplication and one of two equal factors away and nothing else, and in no
commutative ring does the tree change its value. So a tree is factored no more often than it has
multiplications, and then nothing is left to factor.
-/

namespace SecureArith

universe v

namespace Tree

variable {t u u' : Tree} {f : Factoring}

/-- The trees have one value in every commutative ring, whatever stands for the variables, for the
other leaves and for calls of other operators. -/
def RingEq (t u : Tree) : Prop :=
  ∀ (R : Type v) [CommRing R] (I : Interpretation R), I.Ringlike →
    ∀ (env : Env R) (other : Option ValueId → R), u.eval I env other = t.eval I env other

theorem ringEq_of_factored (tagged : t.tagged = true)
    (h : Relation.ReflTransGen Factored t u) : RingEq.{v} t u := by
  intro R _ I laws env other
  suffices both : u.eval I env other = t.eval I env other ∧ u.tagged = true from both.1
  induction h with
  | refl => exact ⟨rfl, tagged⟩
  | tail _ step ih =>
    obtain ⟨twin, sheds⟩ := step.sheds
    exact ⟨(step.eval_eq laws ih.2 env other).trans ih.1, sheds.tagged ih.2⟩

theorem RingEq.of_untyped (h : RingEq.{v} t u) (same : u'.untyped = u.untyped) :
    RingEq.{v} t u' := by
  intro R _ I laws env other
  exact (eval_eq_of_bare (bare_eq_of_untyped same)).trans (h R I laws env other)

/-- The factors that are found are parts of the tree, and equal. -/
theorem Factorable.twins (h : t.Factorable f) :
    f.later.tree.Sub t ∧ f.earlier.tree.Sub t ∧ f.later.tree.same? f.earlier.tree = some true := by
  induction h with
  | sum _ twins same => exact ⟨twins.later.tree_sub, twins.earlier.tree_sub, same⟩
  | child side _ ih => exact ⟨.child side ih.1, .child side ih.2.1, ih.2.2⟩

/-- What a factoring with the factors `f` makes of a tree. -/
structure Saves (t : Tree) (f : Factoring) (u : Tree) : Prop where
  found : t.factoring? = some (some f)
  later : f.later.tree.Sub t
  earlier : f.earlier.tree.Sub t
  same : f.later.tree.same? f.earlier.tree = some true
  mul : u.count .mul + (1 + f.earlier.tree.count .mul) = t.count .mul
  other : ∀ op ≠ .mul, u.count op + f.earlier.tree.count op = t.count op
  leaves : (u.leaves ++ f.earlier.tree.leaves).Perm t.leaves

theorem Sheds.saves (h : t.Sheds f.earlier.tree u) (found : t.factoring? = some (some f))
    (factorable : t.Factorable f) : t.Saves f u := by
  obtain ⟨later, earlier, same⟩ := factorable.twins
  refine ⟨found, later, earlier, same, ?_, fun op ne => ?_, h.leaves_perm⟩
  · have counted := h.count_eq .mul
    rw [if_pos rfl] at counted
    omega
  · have counted := h.count_eq op
    rw [if_neg ne] at counted
    exact counted

end Tree

variable {b : Bench} {root : Nat} {t : Tree}

/-- One factoring keeps the value, takes a multiplication and one of two equal factors away and
nothing else; where there is none, nothing changes. Factoring until nothing is left to factor is a
number of them, which saves at least as many multiplications; what it leaves is their tree, up to
the types that are found again, and it fails only where a type is not found. -/
theorem factoring_profits (h : b.forest.store.Owned (some root) t) (c : Classifier) :
    (∃ changed b', Work.factorOnce root b = .ok changed b' ∧
      (changed = true → ∃ f u, b.Reworked (some root) t b' u ∧ t.Saves f u ∧
        (t.tagged = true → Tree.RingEq.{v} t u)) ∧
      (changed = false → b' = b)) ∧
    ∃ n b₁ u, u.count .mul + n ≤ t.count .mul ∧ Repeats (Work.factorOnce root) n b b₁ ∧
      Work.factorOnce root b₁ = .ok false b₁ ∧ b.Reworked (some root) t b₁ u ∧
      Ends (Work.factorAll c root) b
        (fun changed b' => changed = decide (0 < n) ∧
          ∃ v, b.Reworked (some root) t b' v ∧ v.untyped = u.untyped ∧ (changed = false → v = t) ∧
            (t.tagged = true → Tree.RingEq.{v} t v))
        fun e b' => e.kind = .type ∧ 0 < n ∧
          ∃ v, b.Reworked (some root) t b' v ∧ v.untyped = u.untyped ∧
            (t.tagged = true → Tree.RingEq.{v} t v) := by
  constructor
  · obtain ⟨changed, b', run, result⟩ := (Work.ends_factorOnce h).exists_ok
    refine ⟨changed, b', run, ?_, ?_⟩
    · rintro rfl
      obtain ⟨u, reworked, factored, f, found, sheds⟩ := result
      obtain none | ⟨f', found', factorable⟩ := Tree.factoring?_eq h.spans.complete h.nodup
      · cases found.symm.trans none
      · cases found.symm.trans found'
        exact ⟨f, u, reworked, sheds.saves found factorable,
          fun tagged => Tree.ringEq_of_factored tagged (.single factored)⟩
    · rintro rfl
      exact result.1
  · obtain ⟨n, b₁, u, made⟩ := Work.exists_factorings h
    have kept (v : Tree) (same : v.untyped = u.untyped) (tagged : t.tagged = true) :
        Tree.RingEq.{v} t v :=
      (Tree.ringEq_of_factored tagged made.factored).of_untyped same
    refine ⟨n, b₁, u, made.saved, made.repeats, made.last, made.reworked,
      (made.ends_factorAll c h).imp ?_ ?_⟩
    · rintro changed b' ⟨eq, v, reworked, same, unchanged⟩
      exact ⟨eq, v, reworked, same, unchanged, kept v same⟩
    · rintro e b' ⟨kind, some, v, reworked, same⟩
      exact ⟨kind, some, v, reworked, same, kept v same⟩

/-- The sum of `$0 * ($2 * $3 + $4)` and `($4 + $3 * $2) * $1`. -/
def Store.sumOfProducts : Store :=
  let op (op : Operator) (left right : NodeId) : Node :=
    { op := some op, left := some left, right := some right }
  let read (v : VarId) : Node := { origin := some ⟨v, none, .var v⟩ }
  ⟨#[op .add 1 2, op .mul 3 4, op .mul 5 6, read 0, op .add 7 8, op .add 9 10, read 1, op .mul 11 12,
    read 4, read 4, op .mul 13 14, read 2, read 3, read 3, read 2]⟩

theorem factoring_profits_sumOfProducts :
    ∃ (b b' b₁ : Bench) (t u : Tree) (f : Factoring) (n : Nat),
      b.forest.store = .sumOfProducts ∧ b.forest.store.Owned (some 0) t ∧
      Work.factorOnce 0 b = .ok true b' ∧ b.Reworked (some 0) t b' u ∧ t.Saves f u ∧
      t.count .mul = 4 ∧ f.earlier.tree.count .mul = 1 ∧ u.count .mul = 2 ∧
      t.tagged = true ∧ Tree.RingEq.{0} t u ∧ n ≤ 4 ∧ Repeats (Work.factorOnce 0) n b b₁ ∧
      Work.factorOnce 0 b₁ = .ok false b₁ := by
  let b : Bench := { forest := { store := .sumOfProducts } }
  let t := b.forest.store.tree 0
  have owned : b.forest.store.Owned (some 0) t :=
    Store.owned_tree (by decide +kernel) (by decide +kernel)
  have four : t.count .mul = 4 := by decide +kernel
  have tagged : t.tagged = true := by decide +kernel
  have checked : (t.factoring?.any fun found => found.any fun f =>
      decide (f.earlier.tree.count .mul = 1)) = true := by
    decide +kernel
  have changes : ((result? (Work.factorOnce 0) b).any (·.1)) = true := by decide +kernel
  obtain ⟨⟨changed, b'⟩, result, rfl⟩ := Option.any_eq_true _ _ |>.mp changes
  have run := eq_ok_of_result? result
  obtain ⟨⟨_, _, run', profit, -⟩, n, b₁, _, bound, repeats, last, -⟩ :=
    factoring_profits.{0} owned (.ofPrefixes [])
  cases run.symm.trans run'
  obtain ⟨f, u, reworked, saves, same⟩ := profit rfl
  have one : f.earlier.tree.count .mul = 1 := by
    simpa only [saves.found, Option.any_some, decide_eq_true_eq] using checked
  have mul := saves.mul
  exact ⟨b, b', b₁, t, u, f, n, rfl, owned, run, reworked, saves, four, one, by omega, tagged,
    same tagged, by omega, repeats, last⟩

end SecureArith
