import Mathlib.Tactic.Abel
import SecureArith.Proofs.Priority.Fixpoint
import SecureArith.Proofs.Tally

set_option autoImplicit false

/-!
# Reordering rearranges

A swap exchanges operands of operations of one operator and leaves all else as it is. So reordering
keeps the leaves and the operations of a tree, and its value wherever sums and products are
associative and commutative, also when it fails on the way. A swap that is not made turns no link.
-/

namespace SecureArith

universe v

namespace Tree

variable {M : Type} [AddCancelCommMonoid M] {w : Tally M} {op : Operator} {t u x y : Tree}

theorem tally_place {id : NodeId} {label : Label} {side : Side} (there : x.isNil = false) :
    (Tree.node id label (place side x y)).tally w =
      w.inner label.op + x.tally w + y.tally w := by
  rw [tally_node (childless_place there) side, place_same, place_flip]

theorem Exchanged.isNil_eq (h : t.Exchanged op u) : t.isNil = false ∧ u.isNil = false := by
  cases h <;> exact ⟨rfl, rfl⟩

theorem Exchanged.tally_eq (h : t.Exchanged op u) : u.tally w = t.tally w := by
  induction h with
  | here upper lower thereA thereB thereC =>
    rw [tally_place rfl, tally_place thereC, tally_place rfl, tally_place thereA]
    abel
  | @left l l' id label r h ih =>
    rw [tally_node (childless_eq_false .left h.isNil_eq.2) .left,
      tally_node (childless_eq_false .left h.isNil_eq.1) .left]
    simp only [Side.flip, pair_left, pair_right, ih]
  | @right r r' id label l h ih =>
    rw [tally_node (childless_eq_false .right h.isNil_eq.2) .right,
      tally_node (childless_eq_false .right h.isNil_eq.1) .right]
    simp only [Side.flip, pair_left, pair_right, ih]

theorem untyped_untyped (t : Tree) : t.untyped.untyped = t.untyped := by
  induction t with
  | nil | missing => rfl
  | node id label child ih => simp only [untyped, ih]

theorem count_untyped (op : Operator) (t : Tree) : t.untyped.count op = t.count op := by
  induction t with
  | nil | missing => rfl
  | node id label child ih =>
    simp only [untyped, count, ih]
    rfl

/-- The second tree has the leaves and the operations of the first one, and its value wherever sums
and products are associative and commutative, whatever stands for all else. -/
structure Rearranged (t u : Tree) : Prop where
  eval : ∀ (R : Type v) (I : Interpretation R), I.Reorders →
    ∀ (env : Env R) (other : Option ValueId → R), u.eval I env other = t.eval I env other
  leaves : u.leaves.Perm t.leaves
  count : ∀ op, u.count op = t.count op

namespace Rearranged

theorem refl (t : Tree) : Rearranged.{v} t t := ⟨fun _ _ _ _ _ => rfl, .refl _, fun _ => rfl⟩

theorem trans {s : Tree} (h : Rearranged.{v} s t) (h' : Rearranged.{v} t u) :
    Rearranged.{v} s u where
  eval R I laws env other := (h'.eval R I laws env other).trans (h.eval R I laws env other)
  leaves := h'.leaves.trans h.leaves
  count op := (h'.count op).trans (h.count op)

theorem of_untyped (h : u.untyped = t.untyped) : Rearranged.{v} t u where
  eval _ _ _ _ _ := eval_eq_of_bare (bare_eq_of_untyped h)
  leaves := by rw [leaves_eq_of_bare (bare_eq_of_untyped h)]
  count op := by rw [← count_untyped, h, count_untyped]

end Rearranged

theorem Exchanged.rearranged (h : t.Exchanged op u) (commutes : op.commutes = true) :
    Rearranged.{v} t u where
  eval _ _ laws env other := (h.refines laws commutes).eval env other
  leaves := by
    rw [← Multiset.coe_eq_coe, ← tally_ofLeaves, ← tally_ofLeaves]
    exact h.tally_eq
  count op := by
    rw [← tally_ofOperator, ← tally_ofOperator]
    exact h.tally_eq

theorem Reordered.rearranged (h : t.Reordered u) : Rearranged.{v} t u := by
  obtain ⟨op, commutes, exchanged⟩ := h
  have before : Rearranged.{v} t t.untyped := .of_untyped (untyped_untyped t)
  have after : Rearranged.{v} u.untyped u := .of_untyped (untyped_untyped u).symm
  exact (before.trans (exchanged.rearranged commutes)).trans after

theorem rearranged_of_steps (h : Relation.ReflTransGen Reordered t u) : Rearranged.{v} t u := by
  induction h with
  | refl => exact .refl t
  | tail _ step ih => exact ih.trans step.rearranged

theorem id?_eq_of_untyped (h : u.untyped = t.untyped) : u.id? = t.id? := by
  have go (t : Tree) : t.untyped.id? = t.id? := by cases t <;> rfl
  rw [← go u, h, go t]

end Tree

def Node.links (n : Node) : Option NodeId × Option NodeId := (n.left, n.right)

namespace Store

variable {s s' : Store} {p : Option NodeId} {t u : Tree}

def links? (s : Store) (id : NodeId) : Option (Option NodeId × Option NodeId) :=
  (s.get? id).map Node.links

theorem Spans.links?_eq (h : s.Spans p t) (h' : s'.Spans p u) (same : u.untyped = t.untyped) :
    ∀ i ∈ t.preorder, s'.links? i = s.links? i := by
  induction h generalizing u with
  | nil => simp [Tree.preorder]
  | @node id n child found children ih =>
    intro i mem
    cases h' with
    | @node _ n' child' found' children' =>
      injection same with _ _ below
      have place (side : Side) : n'.child side = n.child side := by
        rw [← (children' side).id?_eq, ← (children side).id?_eq]
        exact Tree.id?_eq_of_untyped (congrFun below side)
      rcases (Tree.mem_preorder_node .left).mp mem with rfl | mem | mem
      · have left : n'.left = n.left := place .left
        have right : n'.right = n.right := place .right
        simp [links?, found, found', Node.links, left, right]
      · exact ih .left (place .left ▸ children' .left) (congrFun below .left) i mem
      · exact ih .right (place .right ▸ children' .right) (congrFun below .right) i mem

end Store

namespace Bench

variable {b b' : Bench} {p : Option NodeId} {t u : Tree}

/-- No node that was there has other children. -/
def KeepsLinks (b b' : Bench) : Prop :=
  ∀ i < b.forest.store.size, b'.forest.store.links? i = b.forest.store.links? i

theorem Reworked.keepsLinks (h : b.Reworked p t b' u) (owned : b.forest.store.Owned p t)
    (same : u.untyped = t.untyped) : b.KeepsLinks b' := by
  intro i old
  by_cases mem : i ∈ t.preorder
  · exact owned.spans.links?_eq h.owned.spans same i mem
  · rw [Store.links?, h.turns.frame i old mem, Store.links?]

end Bench

namespace Work

variable {b : Bench} {c : Classifier} {root : Nat} {t : Tree}

/-- Whatever it is called with, a swap that is not made turns no link. -/
theorem ends_swap_links (h : b.forest.store.Owned (some root) t) (child : NodeId) :
    Ends (swap c root child) b (fun swapped b' => swapped = false → b.KeepsLinks b')
      fun e b' => e.kind ≠ .range ∧ b.KeepsLinks b' := by
  obtain ⟨n, l, r, rfl, split⟩ := h.split
  by_cases isChild : n.hasChild child = true
  · obtain ⟨side, isK⟩ := Node.hasChild_iff.mp isChild
    have lower := h.child split.found side
    rw [isK] at lower
    obtain ⟨m, x, y, eq, split'⟩ := lower.split
    have shape : Tree.pair l r = Tree.place side (.node child m.toLabel (Tree.pair x y))
        (Tree.pair l r side.flip) := by
      rw [← eq, Tree.place_eta]
    by_cases sameOp : (n.op.isNone || n.op != m.op) = true
    · -- The operators differ, and nothing has been touched.
      rw [swap, Ends.bind_iff]
      refine ends_node split.found ?_
      simp only [isChild, Bool.not_true, Bool.false_eq_true, if_false]
      rw [Ends.bind_iff]
      refine ends_node split'.found ?_
      simp only [sameOp, if_true]
      rw [Ends.bind_iff]
      refine ends_shown h.spans h.height_le ?_
      rw [Ends.bind_iff]
      refine ends_shown lower.spans lower.height_le ?_
      exact ⟨fun range => (by cases range), fun _ _ => rfl⟩
    · obtain ⟨op, upper, lower⟩ : ∃ op, n.op = some op ∧ m.op = some op := by
        cases isOp : n.op with
        | none => simp [isOp] at sameOp
        | some op =>
          simp only [isOp, Option.isNone_some, Bool.false_or, bne_iff_ne, ne_eq, not_not] at sameOp
          exact ⟨op, rfl, sameOp.symm⟩
      have owned := h
      rw [shape] at owned
      refine (ends_swap (c := c) owned upper lower).imp ?_ ?_
      · rintro _ b' tried rfl
        obtain ⟨-, u, reworked, learns⟩ := tried
        exact reworked.keepsLinks owned learns.untyped_eq
      · rintro e b' ⟨-, kind, -, u, reworked, same⟩
        exact ⟨fun range => (by cases kind.symm.trans range), reworked.keepsLinks owned same⟩
  · rw [swap, Ends.bind_iff]
    refine ends_node split.found ?_
    simp only [Bool.eq_false_iff.mpr isChild, Bool.not_false, if_true]
    exact ⟨fun range => (by cases range), fun _ _ => rfl⟩

end Work

variable {b : Bench} {root : Nat} {t : Tree}

/-- Whatever types are kept, and whether it ends well or fails, reordering leaves a tree in which no
node occurs twice, with the leaves and the operations of the old one and with its value wherever
sums and products are associative and commutative; it fails only where a type is not found. A swap
that fails or is not made turns no link, whatever it is called with. -/
theorem reorderAll_rearranges (c : Classifier) (h : b.forest.store.Owned (some root) t) :
    Ends (Work.reorderAll c root) b
      (fun _ b' => ∃ u, b.Reworked (some root) t b' u ∧ Tree.Rearranged.{v} t u)
      (fun e b' => e.kind = .type ∧
        ∃ u, b.Reworked (some root) t b' u ∧ Tree.Rearranged.{v} t u) ∧
    ∀ child : NodeId, Ends (Work.swap c root child) b
      (fun swapped b' => swapped = false → b.KeepsLinks b')
      fun e b' => e.kind ≠ .range ∧ b.KeepsLinks b' := by
  have rearranged (b' : Bench) (made : Work.Reorders b root t b') :
      ∃ u, b.Reworked (some root) t b' u ∧ Tree.Rearranged.{v} t u := by
    obtain ⟨u, u', reworked, steps, same⟩ := made
    exact ⟨u', reworked, (Tree.rearranged_of_steps steps).trans (.of_untyped same)⟩
  refine ⟨(Work.ends_reorderAll h).imp ?_ ?_, fun child => Work.ends_swap_links h child⟩
  · exact fun _ b' made => rearranged b' made
  · exact fun _ b' failed => ⟨failed.1, rearranged b' failed.2⟩

/-- The product of `($0 + $1) + $2`, with a secret and two integers, and of a sum without type. -/
def Store.untypedBeside : Store :=
  let op (op : Operator) (left right : NodeId) (memo : Option TypeName) : Node :=
    { op := some op, left := some left, right := some right, memo }
  let read (v : VarId) (type : Option TypeName) : Node := { origin := some ⟨v, type, .var v⟩ }
  ⟨#[op .mul 1 2 (some "secret"), op .add 3 4 none, op .add 7 8 none, op .add 5 6 none,
    read 2 (some .int), read 0 (some "secret"), read 1 (some .int), read 3 none, read 4 none]⟩

theorem reorderAll_rearranges_untypedBeside :
    ∃ (b b' b'' : Bench) (e e' : Failure) (t u : Tree), b.forest.store = .untypedBeside ∧
      b.forest.store.Owned (some 0) t ∧ Work.reorderAll .ofSecrets 0 b = .error e b' ∧
      e.kind = .type ∧ b.Reworked (some 0) t b' u ∧ u.preorder ≠ t.preorder ∧
      Tree.Rearranged.{0} t u ∧ Work.swap .ofSecrets 0 1 b = .error e' b'' ∧
      b.KeepsLinks b'' := by
  let b : Bench := { forest := { store := .untypedBeside } }
  let t := b.forest.store.tree 0
  have owned : b.forest.store.Owned (some 0) t :=
    Store.owned_tree (by decide +kernel) (by decide +kernel)
  have swapped : ((failed? (Work.reorderAll .ofSecrets 0) b).any fun left =>
      decide ((left.2.forest.store.tree 0).preorder ≠ t.preorder)) = true := by
    decide +kernel
  have refused : (failed? (Work.swap .ofSecrets 0 1) b).isSome = true := by decide +kernel
  obtain ⟨⟨e, b'⟩, failed, moved⟩ := Option.any_eq_true _ _ |>.mp swapped
  obtain ⟨⟨e', b''⟩, failed'⟩ := Option.isSome_iff_exists.mp refused
  have run := eq_error_of_failed? failed
  have run' := eq_error_of_failed? failed'
  obtain ⟨ends, swaps⟩ := reorderAll_rearranges.{0} .ofSecrets owned
  obtain ⟨kind, u, reworked, rearranged⟩ := ends.of_error run
  have isTree := reworked.owned.tree_eq
  exact ⟨b, b', b'', e, e', t, u, rfl, owned, run, kind, reworked,
    isTree ▸ of_decide_eq_true moved, rearranged, run', ((swaps 1).of_error run').2⟩

end SecureArith
