import SecureArith.Proofs.Arboreal

set_option autoImplicit false

/-!
# Copies have nodes of their own

A copy consists of the nodes that were appended for it, all of them. It is a tree, also where nodes
of what was copied have several parents: these are copied once for each way that leads to them.
-/

namespace SecureArith

theorem Tree.size_anonymous (t : Tree) : t.anonymous.size = t.size := by
  induction t with
  | nil | missing => rfl
  | node _ _ _ ih => simp only [anonymous, size, ih]

namespace Store

variable {s s' : Store} {c j : Nat} {p : Option NodeId} {t u : Tree}

/-- The nodes of a copy are those that were appended: they are new, and there are as many. -/
theorem Copied.mem_iff (h : s.Copied t s' p u) : j ∈ u.preorder ↔ s.size ≤ j ∧ j < s'.size := by
  have new (i : Nat) (mem : i ∈ u.preorder) : s.size ≤ i :=
    (h.turns.within i mem).resolve_left List.not_mem_nil
  have within : u.preorder ⊆ List.range' s.size t.size := fun i mem => by
    have lt := h.owned.spans.lt_size i mem
    rw [h.size] at lt
    exact List.mem_range'_1.mpr ⟨new i mem, lt⟩
  have length : u.preorder.length = t.size := by
    rw [Tree.length_preorder, ← Tree.size_anonymous u, h.alike, Tree.size_anonymous]
  have perm : u.preorder.Perm (List.range' s.size t.size) :=
    (h.owned.nodup.subperm within).perm_of_length_le (by rw [List.length_range', length])
  rw [perm.mem_iff, List.mem_range'_1, h.size]

theorem Copied.reaches_iff (h : s.Copied t s' (some c) u) :
    s'.Reaches c j ↔ s.size ≤ j ∧ j < s'.size :=
  h.owned.spans.reaches_iff.trans h.mem_iff

theorem Copied.parents (h : s.Copied t s' (some c) u) :
    (∀ j : Nat, s.size ≤ j → j < s'.size → j ≠ c →
      ∃! slot : Nat × Side, s.size ≤ slot.1 ∧ s'.Parent slot j) ∧
    ∀ slot : Nat × Side, s.size ≤ slot.1 → ¬ s'.Parent slot c := by
  have arboreal := h.owned.arboreal
  have inside (slot : Nat × Side) (j : Nat) (parent : s'.Parent slot j) :
      s'.Reaches c slot.1 ↔ s.size ≤ slot.1 :=
    h.reaches_iff.trans (and_iff_left parent.lt_size)
  refine ⟨fun j new there ne => ?_, fun slot new parent => ?_⟩
  · obtain ⟨slot, ⟨reached, parent⟩, unique⟩ :=
      arboreal.existsUnique_parent (h.reaches_iff.mpr ⟨new, there⟩) ne
    refine ⟨slot, ⟨(inside slot j parent).mp reached, parent⟩, fun slot' h' => ?_⟩
    exact unique slot' ⟨(inside slot' j h'.2).mpr h'.1, h'.2⟩
  · exact arboreal.not_parent_root ((inside slot c parent).mpr new) parent

end Store

/-- What a grounded index spans is copied: all that was there stays as it is, and as many nodes are
appended as its tree has, which is the number of nodes that it reaches where it is arboreal. What is
reached from the new index are the appended nodes, and they form a tree that differs from the old
one in its indices only. Each of them but the root has one parent among them, and has no other
parent unless a node named its index before it was there. -/
theorem copy_isomorphic {s : Store} {id : Nat} (h : s.Grounded id) :
    ∃ (c : Nat) (s' : Store), Store.copy id s = .ok c s' ∧
      (∀ i : Nat, i < s.size → s'.get? i = s.get? i) ∧
      s'.size = s.size + (s.tree id).size ∧
      (s.Arboreal id → ∃ nodes : List Nat, nodes.Nodup ∧ (∀ j : Nat, j ∈ nodes ↔ s.Reaches id j) ∧
        s'.size = s.size + nodes.length) ∧
      (∀ j : Nat, s'.Reaches c j ↔ s.size ≤ j ∧ j < s'.size) ∧
      s'.Arboreal c ∧ (s'.tree c).anonymous = (s.tree id).anonymous ∧
      (∀ j : Nat, s.size ≤ j → j < s'.size → j ≠ c →
        ∃! slot : Nat × Side, s.size ≤ slot.1 ∧ s'.Parent slot j) ∧
      (∀ slot : Nat × Side, s.size ≤ slot.1 → ¬ s'.Parent slot c) ∧
      ((∀ (slot : Nat × Side) (j : Nat), s.Parent slot j → j < s.size) →
        (∀ j : Nat, s.size ≤ j → j < s'.size → j ≠ c → ∃! slot : Nat × Side, s'.Parent slot j) ∧
        ∀ slot : Nat × Side, ¬ s'.Parent slot c) := by
  have spans := h.spans_tree
  obtain ⟨c, s', run, u, copied⟩ := spans.ends_copy.exists_ok
  obtain ⟨parents, noParent⟩ := copied.parents
  have frame (i : Nat) (lt : i < s.size) : s'.get? i = s.get? i :=
    copied.turns.frame i lt List.not_mem_nil
  have there : s.size ≤ c :=
    (copied.reaches_iff.mp (Relation.ReflTransGen.refl : s'.Reaches c c)).1
  refine ⟨c, s', run, frame, copied.size, fun arboreal => ⟨(s.tree id).preorder, ?_⟩,
    fun j => copied.reaches_iff, copied.owned.arboreal, ?_, parents, noParent, fun closed => ?_⟩
  · rw [Tree.length_preorder]
    exact ⟨arboreal.nodup spans, fun j => spans.reaches_iff.symm, copied.size⟩
  · rw [copied.owned.tree_eq]
    exact copied.alike
  · -- A node that was there before has no child among the new ones.
    have newParent (slot : Nat × Side) (j : Nat) (new : s.size ≤ j) (parent : s'.Parent slot j) :
        s.size ≤ slot.1 := by
      by_contra old
      obtain ⟨n, found, isChild⟩ := parent
      rw [frame slot.1 (by omega)] at found
      have := closed slot j ⟨n, found, isChild⟩
      omega
    refine ⟨fun j new lt ne => ?_, fun slot parent => ?_⟩
    · obtain ⟨slot, ⟨-, parent⟩, unique⟩ := parents j new lt ne
      exact ⟨slot, parent, fun slot' parent' => unique slot' ⟨newParent slot' j new parent', parent'⟩⟩
    · exact noParent slot (newParent slot c there parent) parent

/-- The square of `-$0`, where the factor is shared, with a kept type and an expanded leaf. -/
def Store.negatedSquare : Store :=
  ⟨#[{ op := some .mul, left := some 1, right := some 1, memo := some .int },
    { op := some (.other "__neg__"), left := some 2 },
    { origin := some ⟨0, some .int, .var 0⟩, expanded := true }]⟩

theorem copy_isomorphic_negatedSquare :
    ∃ s' : Store, Store.negatedSquare.Grounded 0 ∧ Store.copy 0 .negatedSquare = .ok 7 s' ∧
      (∀ i : Nat, i < 3 → s'.get? i = Store.negatedSquare.get? i) ∧ s'.size = 8 ∧
      (∀ j : Nat, s'.Reaches 7 j ↔ 3 ≤ j ∧ j < 8) ∧
      (s'.tree 7).anonymous = (Store.negatedSquare.tree 0).anonymous ∧
      (∃! slot : Nat × Side, s'.Parent slot 3) ∧ ∀ slot : Nat × Side, ¬ s'.Parent slot 7 := by
  have spans : Store.negatedSquare.Spans (some 0) (Store.negatedSquare.tree 0) :=
    Store.spans_unfold (by decide +kernel)
  have nodes : (Store.negatedSquare.tree 0).size = 5 := by decide +kernel
  have closed (slot : Nat × Side) (j : Nat) (parent : Store.negatedSquare.Parent slot j) : j < 3 := by
    obtain ⟨n, found, isChild⟩ := parent
    have within : ∀ n ∈ Store.negatedSquare.nodes, ∀ side ∈ [Side.left, .right],
        ∀ j ∈ n.child side, j < 3 := by
      decide
    exact within n (Array.mem_of_getElem? found) slot.2 (by cases slot.2 <;> decide) j isChild
  have answer : answer? (Store.copy 0) .negatedSquare = some 7 := by decide +kernel
  obtain ⟨c, s', run, frame, size, -, reaches, -, alike, -, -, whole⟩ := copy_isomorphic spans.grounded
  rw [answer?, result?, run] at answer
  cases Option.some.inj answer
  rw [nodes] at size
  obtain ⟨parents, noParent⟩ := whole closed
  have eight : s'.size = 8 := size
  refine ⟨s', spans.grounded, run, frame, eight, fun j => ?_, alike,
    parents 3 (Nat.le_refl 3) (by omega) (by decide), noParent⟩
  rw [reaches, eight]
  exact Iff.rfl

end SecureArith
