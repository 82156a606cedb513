import SecureArith.Proofs.Ownership

set_option autoImplicit false

/-!
# Indices with a tree

An index is grounded where all that is reached from it is in the store and nothing of it is below
itself. These are the indices with a finite tree, whose nodes may have several parents. An index is
arboreal where besides no node has two parents, so that none occurs in the tree twice.
-/

namespace SecureArith

namespace Store

variable {s : Store} {root j k : Nat} {t : Tree}

/-- The second node is the first one, or found below it. -/
abbrev Reaches (s : Store) : NodeId → NodeId → Prop := Relation.ReflTransGen s.Above

def Parent (s : Store) (slot : NodeId × Side) (j : NodeId) : Prop :=
  ∃ n, s.get? slot.1 = some n ∧ n.child slot.2 = some j

/-- What is reached is in the store, and nothing of it is below itself. -/
structure Grounded (s : Store) (root : NodeId) : Prop where
  inside : ∀ j : Nat, s.Reaches root j → j < s.size
  acyclic : ∀ j, s.Reaches root j → ¬ Relation.TransGen s.Above j j

/-- Besides, no node is the child of two of those that are reached, or of one of them twice. -/
structure Arboreal (s : Store) (root : NodeId) : Prop extends Grounded s root where
  parent_unique : ∀ slot slot' j, s.Reaches root slot.1 → s.Reaches root slot'.1 →
    s.Parent slot j → s.Parent slot' j → slot = slot'

theorem Parent.above {side : Side} (h : s.Parent (k, side) j) : s.Above k j := by
  obtain ⟨n, found, isChild⟩ := h
  exact ⟨n, side, found, isChild⟩

theorem Parent.lt_size {slot : Nat × Side} (h : s.Parent slot j) : slot.1 < s.size := by
  obtain ⟨n, found, -⟩ := h
  exact lt_size_of_get? found

theorem Above.exists_parent (h : s.Above k j) : ∃ side, s.Parent (k, side) j := by
  obtain ⟨n, side, found, isChild⟩ := h
  exact ⟨side, n, found, isChild⟩

theorem Reaches.exists_parent (h : s.Reaches root j) (ne : j ≠ root) :
    ∃ slot : NodeId × Side, s.Reaches root slot.1 ∧ s.Parent slot j := by
  rcases h.cases_tail with rfl | ⟨k, reached, above⟩
  · exact absurd rfl ne
  · obtain ⟨side, parent⟩ := above.exists_parent
    exact ⟨(k, side), reached, parent⟩

theorem Spans.tree_eq (h : s.Spans (some root) t) : s.tree root = t := h.unfold_eq h.height_le

namespace Grounded

theorem of_reaches (h : s.Grounded root) (reached : s.Reaches root k) : s.Grounded k :=
  ⟨fun j below => h.inside j (reached.trans below), fun j below => h.acyclic j (reached.trans below)⟩

theorem not_parent_root (h : s.Grounded root) {slot : NodeId × Side}
    (reached : s.Reaches root slot.1) : ¬ s.Parent slot root := fun parent =>
  h.acyclic root .refl (.tail' reached parent.above)

/-- What is below a grounded index is finite, so it has a tree. -/
theorem exists_spans (h : s.Grounded root) : ∃ t, s.Spans (some root) t := by
  classical
  -- By the number of nodes strictly below: a child is below its parent and not below itself.
  let below (k : Nat) : Finset Nat := (Finset.range s.size).filter (Relation.TransGen s.Above k)
  induction bound : (below root).card using Nat.strongRecOn generalizing root with
  | ind size ih =>
    have lt : root < s.size := h.inside root .refl
    obtain ⟨n, found⟩ : ∃ n, s.get? root = some n :=
      ⟨s.nodes[root], Array.getElem?_eq_getElem lt⟩
    have place (side : Side) : ∃ t, s.Spans (n.child side) t := by
      cases isChild : n.child side with
      | none => exact ⟨.nil, .nil⟩
      | some child =>
        have above : s.Above root child := ⟨n, side, found, isChild⟩
        have grounded : s.Grounded child := h.of_reaches (.single above)
        refine ih _ ?_ grounded rfl
        rw [← bound]
        refine Finset.card_lt_card ((Finset.ssubset_iff_of_subset fun j mem => ?_).mpr
          ⟨child, ?_, fun mem => ?_⟩)
        · obtain ⟨inside, path⟩ := Finset.mem_filter.mp mem
          exact Finset.mem_filter.mpr ⟨inside, .head above path⟩
        · exact Finset.mem_filter.mpr
            ⟨Finset.mem_range.mpr (grounded.inside child .refl), .single above⟩
        · exact grounded.acyclic child .refl (Finset.mem_filter.mp mem).2
    obtain ⟨l, left⟩ := place .left
    obtain ⟨r, right⟩ := place .right
    refine ⟨.node root n.toLabel (Tree.pair l r), .node found fun side => ?_⟩
    cases side with
    | left => exact left
    | right => exact right

theorem spans_tree (h : s.Grounded root) : s.Spans (some root) (s.tree root) := by
  obtain ⟨t, spans⟩ := h.exists_spans
  rwa [spans.tree_eq]

end Grounded

theorem Spans.exists_index {p : Option NodeId} (h : s.Spans p t) (mem : j ∈ t.preorder) :
    ∃ k, p = some k := by
  cases h with
  | nil => exact absurd mem List.not_mem_nil
  | node => exact ⟨_, rfl⟩

theorem Spans.reaches_of_mem (h : s.Spans (some root) t) (mem : j ∈ t.preorder) :
    s.Reaches root j := by
  induction t generalizing root with
  | nil | missing => cases h
  | node id label child ih =>
    cases h with
    | @node _ n _ found children =>
      have below (side : Side) (mem : j ∈ (child side).preorder) : s.Reaches id j := by
        obtain ⟨k, isChild⟩ := (children side).exists_index mem
        exact .head ⟨n, side, found, isChild⟩ (ih side (isChild ▸ children side) mem)
      simp only [Tree.preorder, List.mem_cons, List.mem_append] at mem
      rcases mem with rfl | mem | mem
      · exact .refl
      · exact below .left mem
      · exact below .right mem

theorem Spans.reaches_iff (h : s.Spans (some root) t) : s.Reaches root j ↔ j ∈ t.preorder :=
  ⟨h.mem_of_reached, h.reaches_of_mem⟩

theorem Spans.grounded (h : s.Spans (some root) t) : s.Grounded root where
  inside j reached := h.lt_size j (h.mem_of_reached reached)
  acyclic j reached := by
    obtain ⟨u, spans, -⟩ := h.exists_at (h.mem_of_reached reached)
    exact spans.not_transGen

theorem Owned.arboreal (h : s.Owned (some root) t) : s.Arboreal root where
  toGrounded := h.spans.grounded
  parent_unique slot slot' j reached reached' parent parent' := by
    obtain ⟨n, found, isChild⟩ := parent
    obtain ⟨n', found', isChild'⟩ := parent'
    obtain ⟨sameNode, sameSide⟩ := h.spans.parent_unique h.nodup (h.spans.mem_of_reached reached)
      found isChild (h.spans.mem_of_reached reached') found' isChild'
    exact Prod.ext sameNode sameSide

namespace Arboreal

theorem of_reaches (h : s.Arboreal root) (reached : s.Reaches root k) : s.Arboreal k where
  toGrounded := h.toGrounded.of_reaches reached
  parent_unique slot slot' j below below' :=
    h.parent_unique slot slot' j (reached.trans below) (reached.trans below')

theorem existsUnique_parent (h : s.Arboreal root) (reached : s.Reaches root j) (ne : j ≠ root) :
    ∃! slot : NodeId × Side, s.Reaches root slot.1 ∧ s.Parent slot j := by
  obtain ⟨slot, above, parent⟩ := Reaches.exists_parent reached ne
  exact ⟨slot, ⟨above, parent⟩, fun slot' h' =>
    h.parent_unique slot' slot j h'.1 above h'.2 parent⟩

theorem apart (h : s.Arboreal root) {l r : Nat} (left : s.Parent (root, .left) l)
    (right : s.Parent (root, .right) r) (fromLeft : s.Reaches l j) : ¬ s.Reaches r j := by
  have below {k : Nat} {side : Side} (parent : s.Parent (root, side) k) : s.Reaches root k :=
    .single parent.above
  -- A child of the root has no other parent, so nothing below the root leads to it.
  have top {k : Nat} {side : Side} (parent : s.Parent (root, side) k) {slot : Nat × Side}
      (parent' : s.Parent slot k) {l : Nat} {side' : Side} (start : s.Parent (root, side') l)
      (reached : s.Reaches l slot.1) : False := by
    cases h.parent_unique _ _ _ ((below start).trans reached) .refl parent' parent
    exact h.acyclic root .refl (.head' start.above reached)
  induction fromLeft with
  | refl =>
    intro reached
    by_cases same : l = r
    · subst same
      cases h.parent_unique _ _ _ .refl .refl left right
    · obtain ⟨slot, reached, parent⟩ := Reaches.exists_parent reached same
      exact top left parent right reached
  | @tail k j fromLeft above ih =>
    intro reached
    obtain ⟨side, parent⟩ := above.exists_parent
    by_cases same : j = r
    · subst same
      exact top right parent left fromLeft
    · obtain ⟨slot, reached, parent'⟩ := Reaches.exists_parent reached same
      cases h.parent_unique _ _ _ ((below left).trans fromLeft) ((below right).trans reached) parent
        parent'
      exact ih reached

/-- Where every node has one parent, none occurs twice. -/
theorem nodup (h : s.Arboreal root) (spans : s.Spans (some root) t) : t.preorder.Nodup := by
  induction t generalizing root with
  | nil | missing => cases spans
  | node id label child ih =>
    cases spans with
    | @node _ n _ found children =>
      have reached (side : Side) {j : Nat} (mem : j ∈ (child side).preorder) :
          ∃ c : Nat, s.Parent (id, side) c ∧ s.Reaches c j := by
        obtain ⟨c, isChild⟩ := (children side).exists_index mem
        have spans : s.Spans (some c) (child side) := isChild ▸ children side
        exact ⟨c, ⟨n, found, isChild⟩, spans.reaches_of_mem mem⟩
      have inner (side : Side) : (child side).preorder.Nodup := by
        have spans := children side
        cases isChild : n.child side with
        | none =>
          rw [isChild] at spans
          rw [Tree.eq_nil_of_isNil spans.isNil_eq]
          exact List.nodup_nil
        | some c =>
          have below : s.Reaches id c := .single ⟨n, side, found, isChild⟩
          exact ih side (h.of_reaches below) (isChild ▸ spans)
      have notBelow (side : Side) : id ∉ (child side).preorder := by
        intro mem
        obtain ⟨c, parent, below⟩ := reached side mem
        exact h.acyclic id .refl (.head' parent.above below)
      rw [Tree.preorder, List.nodup_cons, List.mem_append, not_or, List.nodup_append]
      refine ⟨⟨notBelow .left, notBelow .right⟩, inner .left, inner .right, ?_⟩
      rintro j memLeft _ memRight rfl
      obtain ⟨l, left, fromLeft⟩ := reached .left memLeft
      obtain ⟨r, right, fromRight⟩ := reached .right memRight
      exact h.apart left right fromLeft fromRight

theorem owned_tree (h : s.Arboreal root) : s.Owned (some root) (s.tree root) :=
  ⟨h.spans_tree, h.nodup h.spans_tree⟩

end Arboreal

end Store

/-- Every root has a tree. -/
def Forest.Grounded (f : Forest) : Prop := ∀ entry ∈ f.roots, f.store.Grounded entry.2

end SecureArith
