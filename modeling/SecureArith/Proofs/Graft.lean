import SecureArith.Proofs.Copy

set_option autoImplicit false

/-!
# Subtrees and their replacement

`Tree.graft` puts a tree in the place of the node of an index. Replacing one subtree changes the
indices, the leaves and what is stored by what the two subtrees differ in.
-/

namespace SecureArith

namespace Tree

variable {t u v w : Tree} {id a : NodeId} {label : Label} {child : Side → Tree}

/-- One tree is found in another, at its root or further down. -/
inductive Sub (u : Tree) : Tree → Prop
  | refl : Sub u u
  | child {id : NodeId} {label : Label} {child : Side → Tree} (side : Side)
      (h : Sub u (child side)) : Sub u (.node id label child)

/-- Puts a tree in the place of the node of an index. -/
def graft : Tree → NodeId → Tree → Tree
  | .node id label child, a, v =>
    if id = a then v else .node id label fun side => (child side).graft a v
  | t, _, _ => t

theorem count_preorder_node (side : Side) (i : NodeId) :
    (Tree.node id label child).preorder.count i =
      (if i = id then 1 else 0) + (child side).preorder.count i +
        (child side.flip).preorder.count i := by
  have head : (if (id == i) = true then 1 else 0) = if i = id then 1 else 0 := by
    by_cases eq : i = id
    · simp [eq]
    · simp [eq, Ne.symm eq]
  cases side with
  | left => simp only [preorder, List.count_cons, List.count_append, Side.flip, head]; omega
  | right => simp only [preorder, List.count_cons, List.count_append, Side.flip, head]; omega

theorem isNil_of_id? (h : t.id? = some a) : t.isNil = false := by
  cases t with
  | nil => cases h
  | missing | node => rfl

theorem isNil_of_id?_none (h : t.id? = none) : t.isNil = true := by
  cases t with
  | nil => rfl
  | missing | node => cases h

theorem mem_preorder_of_id? (h : t.id? = some a) : a ∈ t.preorder := by
  cases t <;> simp_all [id?, preorder]

namespace Sub

theorem trans (h : u.Sub v) (h' : v.Sub t) : u.Sub t := by
  induction h' with
  | refl => exact h
  | child side _ ih => exact .child side ih

theorem sublist (h : u.Sub t) : u.preorder.Sublist t.preorder := by
  induction h with
  | refl => exact List.Sublist.refl _
  | child side _ ih =>
    refine ih.trans (List.Sublist.cons _ ?_)
    cases side with
    | left => exact List.sublist_append_left _ _
    | right => exact List.sublist_append_right _ _

theorem mem (h : u.Sub t) {i : NodeId} (mem : i ∈ u.preorder) : i ∈ t.preorder :=
  h.sublist.subset mem

theorem notMem_child (h : Sub (.node a label child) t) (once : t.preorder.count a ≤ 1)
    (side : Side) : a ∉ (child side).preorder := by
  intro mem
  have inside := Nat.le_trans (h.sublist.count_le a) once
  have := List.count_pos_iff.mpr mem
  rw [count_preorder_node side, if_pos rfl] at inside
  omega

theorem complete (h : u.Sub t) (whole : t.complete = true) : u.complete = true := by
  induction h with
  | refl => exact whole
  | child side _ ih =>
    simp only [Tree.complete, Bool.and_eq_true] at whole
    cases side with
    | left => exact ih whole.1
    | right => exact ih whole.2

theorem proper (h : u.Sub t) (whole : t.proper = true) : u.proper = true := by
  induction h with
  | refl => exact whole
  | child side _ ih =>
    exact ih (proper_child whole side)

theorem leaves (h : u.Sub t) : ∀ o ∈ u.leaves, o ∈ t.leaves := by
  induction h with
  | refl => exact fun _ mem => mem
  | @child id label child side _ ih =>
    intro o mem
    have mem := ih o mem
    by_cases leaf : childless child = true
    · -- A subtree of nothing has no leaves.
      simp only [childless, Bool.and_eq_true] at leaf
      have empty (t : Tree) (nil : t.isNil = true) : o ∉ t.leaves := by
        cases t with
        | nil | missing => exact List.not_mem_nil
        | node => simp at nil
      cases side with
      | left => exact absurd mem (empty _ leaf.1)
      | right => exact absurd mem (empty _ leaf.2)
    · rw [leaves_node (Bool.eq_false_iff.mpr leaf)]
      cases side with
      | left => exact List.mem_append_left _ mem
      | right => exact List.mem_append_right _ mem

end Sub

theorem exists_sub_of_mem {t : Tree} {i : NodeId} (mem : i ∈ t.preorder) :
    ∃ u : Tree, u.Sub t ∧ u.id? = some i := by
  induction t with
  | nil => cases mem
  | missing j => exact ⟨_, .refl, congrArg some (List.mem_singleton.mp mem).symm⟩
  | node j label child ih =>
    have below (side : Side) (mem : i ∈ (child side).preorder) :
        ∃ u : Tree, u.Sub (.node j label child) ∧ u.id? = some i := by
      obtain ⟨u, sub, isRoot⟩ := ih side mem
      exact ⟨u, .child side sub, isRoot⟩
    rcases (mem_preorder_node .left).mp mem with rfl | mem | mem
    · exact ⟨_, .refl, rfl⟩
    · exact below .left mem
    · exact below .right mem

theorem graft_node (ne : id ≠ a) :
    (Tree.node id label child).graft a v = .node id label fun side => (child side).graft a v :=
  if_neg ne

theorem graft_root : (Tree.node a label child).graft a v = v := if_pos rfl

theorem graft_of_notMem (h : a ∉ t.preorder) : t.graft a v = t := by
  induction t with
  | nil | missing => rfl
  | node id label child ih =>
    have ne : id ≠ a := fun eq => h (eq ▸ List.mem_cons_self)
    have below (side : Side) : a ∉ (child side).preorder := fun mem =>
      h ((mem_preorder_node side).mpr (.inr (.inl mem)))
    rw [graft_node ne]
    congr 1
    funext side
    exact ih side (below side)

theorem isNil_graft (there : v.isNil = false) (t : Tree) :
    (t.graft a v).isNil = t.isNil := by
  cases t with
  | nil | missing => rfl
  | node id label child =>
    by_cases eq : id = a
    · rw [eq, graft_root, there]
      rfl
    · rw [graft_node eq]
      rfl

theorem id?_graft (root : v.id? = some a) (t : Tree) : (t.graft a v).id? = t.id? := by
  cases t with
  | nil | missing => rfl
  | node id label child =>
    by_cases eq : id = a
    · rw [eq, graft_root, root]
      rfl
    · rw [graft_node eq]
      rfl

theorem complete_graft (ht : t.complete = true) (hv : v.complete = true) :
    (t.graft a v).complete = true := by
  induction t with
  | nil | missing => exact ht
  | node id label child ih =>
    by_cases eq : id = a
    · rwa [eq, graft_root]
    · simp only [complete, Bool.and_eq_true] at ht
      rw [graft_node eq]
      simp [complete, ih .left ht.1, ih .right ht.2]

theorem graft_graft (h : u.complete = true) (root : u.id? = some a) (t : Tree) :
    (t.graft a u).graft a v = t.graft a v := by
  induction t with
  | nil | missing => rfl
  | node id label child ih =>
    by_cases eq : id = a
    · rw [eq, graft_root, graft_root]
      cases u with
      | nil => cases root
      | missing => simp [complete] at h
      | node =>
        cases root
        exact graft_root
    · rw [graft_node eq, graft_node eq, graft_node eq]
      simp only [ih]

theorem count_graft (sub : Sub (.node a label child) t) (once : t.preorder.count a ≤ 1)
    (i : NodeId) :
    (t.graft a v).preorder.count i + (Tree.node a label child).preorder.count i =
      t.preorder.count i + v.preorder.count i := by
  induction sub with
  | refl => rw [graft_root, Nat.add_comm]
  | @child id label' child' side sub ih =>
    have mem : 0 < (child' side).preorder.count a :=
      List.count_pos_iff.mpr (sub.mem List.mem_cons_self)
    rw [count_preorder_node side] at once
    have ne : id ≠ a := by
      rintro rfl
      rw [if_pos rfl] at once
      omega
    have apart : a ∉ (child' side.flip).preorder := by
      intro mem'
      have := List.count_pos_iff.mpr mem'
      omega
    have below := ih (by omega)
    have whole : (Tree.node id label' child').preorder.count i = _ := count_preorder_node side i
    rw [graft_node ne, count_preorder_node side, graft_of_notMem apart, whole]
    omega

theorem mem_of_mem_graft_nil {i : NodeId} (mem : i ∈ (t.graft a .nil).preorder) :
    i ∈ t.preorder := by
  induction t with
  | nil | missing => exact mem
  | node id label child ih =>
    by_cases eq : id = a
    · rw [eq, graft_root] at mem
      exact absurd mem List.not_mem_nil
    · rw [graft_node eq, mem_preorder_node .left] at mem
      rw [mem_preorder_node .left]
      exact mem.imp_right (Or.imp (ih .left) (ih .right))

theorem notMem_graft_nil (sub : Sub (.node a label child) t) (once : t.preorder.count a ≤ 1)
    {i : NodeId} (single : t.preorder.count i ≤ 1) (mem : i ∈ (Tree.node a label child).preorder) :
    i ∉ (t.graft a .nil).preorder := by
  intro mem'
  have grafted := count_graft (v := .nil) sub once i
  have := List.count_pos_iff.mpr mem
  have := List.count_pos_iff.mpr mem'
  have none : Tree.nil.preorder.count i = 0 := rfl
  omega

theorem leaves_graft (there : v.isNil = false) :
    ∀ o ∈ (t.graft a v).leaves, o ∈ t.leaves ∨ o ∈ v.leaves := by
  induction t with
  | nil | missing => exact fun _ mem => .inl mem
  | node id label child ih =>
    intro o mem
    by_cases eq : id = a
    · rw [eq, graft_root] at mem
      exact .inr mem
    · rw [graft_node eq] at mem
      have same := childless_congr fun side => isNil_graft (a := a) there (child side)
      by_cases leaf : childless child = true
      · rw [Tree.leaves, same, if_pos leaf] at mem
        rw [Tree.leaves, if_pos leaf]
        exact .inl mem
      · rw [leaves_node (same.trans (Bool.eq_false_iff.mpr leaf))] at mem
        rw [leaves_node (Bool.eq_false_iff.mpr leaf), List.mem_append]
        rcases List.mem_append.mp mem with mem | mem
        · exact (ih .left o mem).imp_left .inl
        · exact (ih .right o mem).imp_left .inr

theorem proper_graft (there : v.isNil = false) (ht : t.proper = true) (hv : v.proper = true) :
    (t.graft a v).proper = true := by
  induction t with
  | nil | missing => exact ht
  | node id label child ih =>
    by_cases eq : id = a
    · rwa [eq, graft_root]
    · rw [graft_node eq]
      exact proper_congr ht (fun side => isNil_graft there (child side)) fun side => ih side

end Tree

namespace Store

variable {s s' : Store} {p : Option NodeId} {t u v : Tree} {a : NodeId}

theorem get?_update_of_ne {i : NodeId} {f : Node → Node} (ne : i ≠ a) :
    (s.update a f).get? i = s.get? i := by
  rw [get?_update, if_neg ne.symm]

theorem Spans.exists_get? (h : s.Spans (some a) t) : ∃ n, s.get? a = some n := by
  cases h with
  | node found _ => exact ⟨_, found⟩

theorem Spans.sub (h : s.Spans p t) (sub : u.Sub t) : s.Spans u.id? u := by
  induction sub generalizing p with
  | refl => rw [h.id?_eq]; exact h
  | child side _ ih =>
    cases h with
    | node _ children => exact ih (children side)

theorem Owned.sub (h : s.Owned p t) (sub : u.Sub t) : s.Owned u.id? u :=
  ⟨h.spans.sub sub, h.nodup.sublist sub.sublist⟩

/-- A tree is no higher than the store is large: a node is not found below itself. -/
theorem Spans.height_le (h : s.Spans p t) : t.height ≤ s.size := by
  have distinct : t.height ≤ t.preorder.toFinset.card := by
    induction h with
    | nil => exact Nat.zero_le _
    | @node id n child found children ih =>
      have fresh (side : Side) : id ∉ (child side).preorder := by
        intro mem
        obtain ⟨u, sub, isRoot⟩ := Tree.exists_sub_of_mem mem
        have spans := (children side).sub sub
        rw [isRoot] at spans
        have smaller := sub.sublist.length_le
        rw [spans.unique (.node found children), Tree.length_preorder, Tree.length_preorder,
          Tree.size] at smaller
        cases side <;> omega
      have bound (side : Side) :
          (child side).height + 1 ≤ (Tree.node id n.toLabel child).preorder.toFinset.card := by
        have below : insert id (child side).preorder.toFinset ⊆
            (Tree.node id n.toLabel child).preorder.toFinset := by
          refine Finset.insert_subset ?_ fun i mem => ?_
          · exact List.mem_toFinset.mpr List.mem_cons_self
          · exact List.mem_toFinset.mpr ((Tree.Sub.child side .refl).mem (List.mem_toFinset.mp mem))
        have card := Finset.card_le_card below
        rw [Finset.card_insert_of_notMem fun mem => fresh side (List.mem_toFinset.mp mem)] at card
        exact (Nat.succ_le_succ (ih side)).trans card
      rw [Tree.height]
      have left := bound .left
      have right := bound .right
      omega
  have within : t.preorder.toFinset ⊆ Finset.range s.size := fun i mem =>
    Finset.mem_range.mpr (h.lt_size i (List.mem_toFinset.mp mem))
  exact distinct.trans ((Finset.card_le_card within).trans_eq (Finset.card_range _))

theorem Spans.ends_copy (h : s.Spans (some a) t) :
    Ends (copy a) s (fun c s' => ∃ u, s.Copied t s' (some c) u) fun _ _ => False := by
  rw [copy, Ends.bind_iff, Ends.get_iff]
  exact ends_copyTo h h.height_le

/-- A store that has another tree at an index, and the same nodes everywhere above it. -/
theorem Spans.graft (h : s.Spans p t) (new : s'.Spans (some a) v)
    (same : ∀ i ∈ (t.graft a .nil).preorder, s'.get? i = s.get? i) :
    s'.Spans p (t.graft a v) := by
  induction h with
  | nil => exact .nil
  | @node id n child found children ih =>
    by_cases eq : id = a
    · rw [eq, Tree.graft_root]
      exact new
    · rw [Tree.graft_node eq] at same ⊢
      refine .node ((same id List.mem_cons_self).trans found) fun side => ih side fun i mem => ?_
      exact same i ((Tree.mem_preorder_node side).mpr (.inr (.inl mem)))

end Store

end SecureArith
