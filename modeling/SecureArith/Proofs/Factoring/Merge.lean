import SecureArith.Proofs.Factoring.Search

set_option autoImplicit false

/-!
# Merging two products

Two products of a sum with equal factors are merged: the later product becomes the factor times the
sum of what is left of both, and the earlier one is dropped. The sum computes what it did before,
and no index occurs more often than before, but for the new ones.
-/

namespace SecureArith

namespace Tree

variable {op : Operator} {t u : Tree} {a : NodeId} {label label' : Label}
  {child child' : Side → Tree}

theorem Sub.unique (h : Sub (.node a label child) t) (h' : Sub (.node a label' child') t)
    (once : t.preorder.count a ≤ 1) : Tree.node a label child = .node a label' child' := by
  induction h with
  | refl =>
    cases h' with
    | refl => rfl
    | child side h' =>
      rw [count_preorder_node side, if_pos rfl] at once
      have := List.count_pos_iff.mpr (h'.mem List.mem_cons_self)
      omega
  | @child id _ below side h ih =>
    have inside := List.count_pos_iff.mpr (h.mem List.mem_cons_self)
    have counted := once
    rw [count_preorder_node side] at counted
    cases h' with
    | refl =>
      rw [if_pos rfl] at counted
      omega
    | child side' h' =>
      by_cases eq : side' = side
      · subst eq
        exact ih h' (by omega)
      · have flip : side' = side.flip := by cases side <;> cases side' <;> simp_all [Side.flip]
        have := List.count_pos_iff.mpr (flip ▸ h'.mem List.mem_cons_self)
        omega

theorem count_withId (h : t.complete = true) {b : NodeId} (root : t.id? = some b) (i : NodeId) :
    (t.withId a).preorder.count i + (if i = b then 1 else 0) =
      t.preorder.count i + if i = a then 1 else 0 := by
  cases t with
  | nil => cases root
  | missing => simp [complete] at h
  | node id label child =>
    cases root
    rw [withId, count_preorder_node .left, count_preorder_node .left]
    omega

theorem Term.count_lt {r : NodeId} (h : Term op (.node a label child) t) (root : t.id? = some r)
    (side : Side) (i : NodeId) :
    (if i = r then 1 else 0) + (child side).preorder.count i ≤ t.preorder.count i := by
  cases h with
  | refl =>
    cases root
    rw [count_preorder_node side]
    omega
  | step side' _ _ h =>
    cases root
    have below := List.Sublist.count_le i h.sub.sublist
    rw [count_preorder_node side] at below
    rw [count_preorder_node side']
    omega

theorem isOp_add_of_mul (h : t.isOp .mul = true) : t.isOp .add = false := by
  cases t with
  | nil | missing => rfl
  | node id label child =>
    simp only [Tree.isOp, Label.isOp, beq_iff_eq] at h ⊢
    rw [h]
    rfl

theorem exists_node_of_isOp (h : t.isOp op = true) (root : t.id? = some a) :
    ∃ label child, t = .node a label child ∧ label.isOp op = true := by
  cases t with
  | nil | missing => simp [Tree.isOp] at h
  | node id label child =>
    cases root
    exact ⟨label, child, rfl, h⟩

end Tree

namespace Spot

def rest (m : Spot) (parent : NodeId) : Tree := m.product.graft parent (m.sibling.withId parent)

end Spot

namespace Factor

variable {f : Factor} {s : Tree} {m : Spot}

theorem StandsAt.sibling_sub (h : f.StandsAt s m) : m.sibling.Sub s :=
  Tree.Sub.trans (.child m.place.flip .refl) (h.parent.sub.trans h.term.sub)

theorem StandsAt.once (h : f.StandsAt s m) (nodup : s.preorder.Nodup) (i : NodeId) :
    m.product.preorder.count i ≤ 1 :=
  List.nodup_iff_count_le_one.mp (nodup.sublist h.term.sub.sublist) i

theorem StandsAt.count_rest (h : f.StandsAt s m) (whole : s.complete = true)
    (nodup : s.preorder.Nodup) (i : NodeId) :
    (m.rest f.parent).preorder.count i + f.tree.preorder.count i +
      (if i = f.sibling then 1 else 0) = m.product.preorder.count i := by
  have once := h.once nodup f.parent
  have grafted := Tree.count_graft (v := m.sibling.withId f.parent) h.parent.sub once i
  have moved := Tree.count_withId (a := f.parent) (h.sibling_sub.complete whole) h.sibling i
  have node : (Tree.node f.parent m.times m.factor).preorder.count i = _ :=
    Tree.count_preorder_node m.place i
  rw [← h.tree]
  unfold Spot.rest Spot.tree Spot.sibling at *
  omega

theorem StandsAt.nodup_rest (h : f.StandsAt s m) (whole : s.complete = true)
    (nodup : s.preorder.Nodup) : (m.rest f.parent).preorder.Nodup := by
  refine List.nodup_iff_count_le_one.mpr fun i => ?_
  have := h.count_rest whole nodup i
  have := h.once nodup i
  omega

theorem StandsAt.parent_notMem (h : f.StandsAt s m) (nodup : s.preorder.Nodup) (side : Side) :
    f.parent ∉ (m.factor side).preorder :=
  h.parent.sub.notMem_child (h.once nodup f.parent) side

theorem StandsAt.product_notMem_tree (h : f.StandsAt s m) (nodup : s.preorder.Nodup) :
    f.product ∉ f.tree.preorder := by
  intro mem
  have inside := h.parent.count_lt h.product m.place f.product
  have := List.count_pos_iff.mpr mem
  have := h.once nodup f.product
  rw [if_pos rfl, show m.factor m.place = f.tree from h.tree] at inside
  omega

theorem StandsAt.notMem_graft_nil {t : Tree} (h : f.StandsAt s m) (sub : m.product.Sub t)
    (once : ∀ i, t.preorder.count i ≤ 1) {i : NodeId} (mem : i ∈ m.product.preorder) :
    i ∉ (t.graft f.product .nil).preorder := by
  obtain ⟨label, child, eq, -⟩ := Tree.exists_node_of_isOp h.product_isOp h.product
  exact Tree.notMem_graft_nil (eq ▸ sub) (once f.product) (once i) (eq ▸ mem)

theorem StandsAt.isNil_rest (h : f.StandsAt s m) : (m.rest f.parent).isNil = false := by
  have there : (m.sibling.withId f.parent).isNil = false := by
    rw [Tree.isNil_withId]
    exact Tree.isNil_of_id? h.sibling
  exact (Tree.isNil_graft there _).trans (Tree.isNil_of_id? h.product)

theorem StandsAt.complete_rest (h : f.StandsAt s m) (whole : s.complete = true) :
    (m.rest f.parent).complete = true := by
  refine Tree.complete_graft (h.term.sub.complete whole) ?_
  have node := h.sibling_sub.complete whole
  cases found : m.sibling with
  | nil => rfl
  | missing => simp [found, Tree.complete] at node
  | node =>
    rw [found] at node
    exact node

theorem StandsAt.id?_rest (h : f.StandsAt s m) (whole : s.complete = true) :
    (m.rest f.parent).id? = some f.product := by
  have node := h.sibling_sub.complete whole
  have root := h.sibling
  refine (Tree.id?_graft ?_ _).trans h.product
  cases found : m.sibling with
  | nil => simp [found, Tree.id?] at root
  | missing => simp [found, Tree.complete] at node
  | node => rfl

theorem StandsAt.proper_rest (h : f.StandsAt s m) (proper : s.proper = true) :
    (m.rest f.parent).proper = true := by
  refine Tree.proper_graft ?_ (h.term.sub.proper proper) ?_
  · rw [Tree.isNil_withId]
    exact Tree.isNil_of_id? h.sibling
  · rw [Tree.proper_eq_of_bare (Tree.bare_withId _ _)]
    exact h.sibling_sub.proper proper

theorem StandsAt.leaves_rest (h : f.StandsAt s m) :
    ∀ o ∈ (m.rest f.parent).leaves, o ∈ s.leaves := by
  have there : (m.sibling.withId f.parent).isNil = false := by
    rw [Tree.isNil_withId]
    exact Tree.isNil_of_id? h.sibling
  intro o mem
  rcases Tree.leaves_graft there o mem with mem | mem
  · exact h.term.sub.leaves o mem
  · rw [Tree.leaves_eq_of_bare (Tree.bare_withId _ _)] at mem
    exact h.sibling_sub.leaves o mem

universe u

variable {R : Type u} [CommRing R] {I : Interpretation R} {env : Env R}
  {other : Option ValueId → R}

theorem StandsAt.eval_product (laws : I.Ringlike) (h : f.StandsAt s m)
    (nodup : s.preorder.Nodup) :
    m.product.eval I env other =
      f.tree.eval I env other * (m.rest f.parent).eval I env other := by
  have once := h.once nodup f.parent
  have there : m.tree.isNil = false := Tree.isNil_of_id? (h.tree ▸ h.id)
  rw [← h.tree]
  exact Tree.eval_take laws h.parent h.times m.place there (Tree.isNil_of_id? h.sibling) once

end Factor

/-- Two factors that stand in different products of a sum. -/
structure Twins (s : Tree) (f g : Factor) (m k : Spot) : Prop where
  complete : s.complete = true
  nodup : s.preorder.Nodup
  later : f.StandsAt s m
  earlier : g.StandsAt s k
  differ : g.product ≠ f.product

def Factor.joint (f : Factor) (expanded : Bool) (sum : NodeId) (rest rest' : Tree) : Tree :=
  .node f.product { op := some .mul, expanded }
    (Tree.pair f.tree (.node sum { op := some .add } (Tree.pair rest rest')))

/-- The sum without the earlier factor, with another tree in the place of the later product. -/
def Tree.rejoin (s : Tree) (f g : Factor) (k : Spot) (joint : Tree) : Tree :=
  (s.graft g.product (k.rest g.parent)).graft f.product joint

/-- Then the earlier product is dropped from its addition. -/
def Tree.merge (s : Tree) (f g : Factor) (k : Spot) (joint : Tree) : Tree :=
  (s.rejoin f g k joint).graft g.sum ((k.tail.graft f.product joint).withId g.sum)

namespace Twins

variable {s rest : Tree} {f g : Factor} {m k : Spot} {expanded : Bool} {sum : NodeId}

theorem once (h : Twins s f g m k) (i : NodeId) : s.preorder.count i ≤ 1 :=
  List.nodup_iff_count_le_one.mp h.nodup i

theorem apart (h : Twins s f g m k) : ∀ i ∈ m.product.preorder, i ∉ k.product.preorder := by
  refine (Tree.Term.apart h.later.term h.earlier.term
    (Tree.isOp_add_of_mul h.later.product_isOp) (Tree.isOp_add_of_mul h.earlier.product_isOp)
    h.nodup).resolve_left fun eq => h.differ ?_
  exact Option.some.inj (h.earlier.product.symm.trans (eq ▸ h.later.product))

theorem earlier_notMem (h : Twins s f g m k) : g.product ∉ m.product.preorder := fun mem =>
  h.apart _ mem (Tree.mem_preorder_of_id? h.earlier.product)

theorem later_notMem (h : Twins s f g m k) : f.product ∉ k.product.preorder :=
  h.apart _ (Tree.mem_preorder_of_id? h.later.product)

theorem sum_notMem_later (h : Twins s f g m k) : g.sum ∉ m.product.preorder :=
  h.later.term.notMem (Tree.isOp_add_of_mul h.later.product_isOp) h.earlier.sum h.earlier.plus
    h.nodup

theorem sum_notMem_earlier (h : Twins s f g m k) : g.sum ∉ k.product.preorder :=
  h.earlier.term.notMem (Tree.isOp_add_of_mul h.earlier.product_isOp) h.earlier.sum
    h.earlier.plus h.nodup

theorem count_sum (h : Twins s f g m k) (i : NodeId) :
    (if i = g.sum then 1 else 0) + k.product.preorder.count i + k.tail.preorder.count i ≤ 1 := by
  have once := List.nodup_iff_count_le_one.mp (h.nodup.sublist h.earlier.sum.sub.sublist) i
  rwa [Tree.count_preorder_node k.side] at once

theorem earlier_notMem_tail (h : Twins s f g m k) : g.product ∉ k.tail.preorder := fun mem => by
  have once := h.count_sum g.product
  have := List.count_pos_iff.mpr mem
  have := List.count_pos_iff.mpr (Tree.mem_preorder_of_id? h.earlier.product)
  omega

theorem rest_subset (h : Twins s f g m k) {i : NodeId}
    (mem : i ∈ (k.rest g.parent).preorder) : i ∈ k.product.preorder := by
  have counted := h.earlier.count_rest h.complete h.nodup i
  have := List.count_pos_iff.mpr mem
  exact List.count_pos_iff.mp (by omega)

theorem count_taken (h : Twins s f g m k) (i : NodeId) :
    (s.graft g.product (k.rest g.parent)).preorder.count i + k.product.preorder.count i =
      s.preorder.count i + (k.rest g.parent).preorder.count i := by
  obtain ⟨label, child, eq, -⟩ :=
    Tree.exists_node_of_isOp h.earlier.product_isOp h.earlier.product
  have once := h.once g.product
  have grafted := Tree.count_graft (v := k.rest g.parent) (eq ▸ h.earlier.term.sub) once i
  rwa [← eq] at grafted

theorem count_taken_le (h : Twins s f g m k) (i : NodeId) :
    (s.graft g.product (k.rest g.parent)).preorder.count i ≤ s.preorder.count i := by
  have taken := h.count_taken i
  have left := h.earlier.count_rest h.complete h.nodup i
  omega

theorem once_taken (h : Twins s f g m k) (i : NodeId) :
    (s.graft g.product (k.rest g.parent)).preorder.count i ≤ 1 :=
  Nat.le_trans (h.count_taken_le i) (h.once i)

theorem term_taken (h : Twins s f g m k) :
    Tree.Term .add m.product (s.graft g.product (k.rest g.parent)) := by
  obtain ⟨label, child, eq, isMul⟩ :=
    Tree.exists_node_of_isOp h.earlier.product_isOp h.earlier.product
  have kept := Tree.graft_of_notMem (v := k.rest g.parent) h.earlier_notMem
  rw [← kept]
  refine h.later.term.graft h.earlier.isNil_rest fun label' child' found => ?_
  have once := h.once g.product
  cases Tree.Sub.unique found.sub (eq ▸ h.earlier.term.sub) once
  exact Tree.isOp_add_of_mul (t := .node g.product label child) isMul

theorem count_rejoin (h : Twins s f g m k) (joint : Tree) (i : NodeId) :
    (s.rejoin f g k joint).preorder.count i + m.product.preorder.count i =
      (s.graft g.product (k.rest g.parent)).preorder.count i + joint.preorder.count i := by
  obtain ⟨label, child, eq, -⟩ := Tree.exists_node_of_isOp h.later.product_isOp h.later.product
  have grafted := Tree.count_graft (v := joint) (eq ▸ h.term_taken.sub) (h.once_taken f.product) i
  rwa [← eq] at grafted

theorem term_rejoin (h : Twins s f g m k) (joint : Tree) (there : joint.isNil = false) :
    ∃ child, Tree.Term .add (.node g.sum k.plus child) (s.rejoin f g k joint) ∧
      child k.side = k.rest g.parent ∧ child k.side.flip = k.tail.graft f.product joint := by
  obtain ⟨label, child, eq, isMul⟩ :=
    Tree.exists_node_of_isOp h.earlier.product_isOp h.earlier.product
  obtain ⟨label', child', eq', isMul'⟩ :=
    Tree.exists_node_of_isOp h.later.product_isOp h.later.product
  have first := h.earlier.sum.graft h.earlier.isNil_rest fun _ _ found => by
    cases Tree.Sub.unique found.sub (eq ▸ h.earlier.term.sub) (h.once g.product)
    exact Tree.isOp_add_of_mul (t := .node g.product label child) isMul
  have second := first.graft there fun _ _ found => by
    cases Tree.Sub.unique found.sub (eq' ▸ h.term_taken.sub) (h.once_taken f.product)
    exact Tree.isOp_add_of_mul (t := .node f.product label' child') isMul'
  have ne : g.sum ≠ g.product := fun same =>
    h.sum_notMem_earlier (same ▸ Tree.mem_preorder_of_id? h.earlier.product)
  have ne' : g.sum ≠ f.product := fun same =>
    h.sum_notMem_later (same ▸ Tree.mem_preorder_of_id? h.later.product)
  rw [Tree.graft_node ne, Tree.graft_node ne'] at second
  refine ⟨_, second, ?_, ?_⟩
  · change (k.product.graft g.product (k.rest g.parent)).graft f.product joint = _
    rw [eq, Tree.graft_root]
    exact Tree.graft_of_notMem fun mem => h.later_notMem (h.rest_subset mem)
  · change (k.tail.graft g.product (k.rest g.parent)).graft f.product joint = _
    rw [Tree.graft_of_notMem h.earlier_notMem_tail]

theorem count_joint (f : Factor) (expanded : Bool) (sum : NodeId) (rest rest' : Tree)
    (i : NodeId) :
    (f.joint expanded sum rest rest').preorder.count i =
      (if i = f.product then 1 else 0) + f.tree.preorder.count i +
        ((if i = sum then 1 else 0) + rest.preorder.count i + rest'.preorder.count i) := by
  rw [Factor.joint, Tree.count_preorder_node .left]
  change _ + f.tree.preorder.count i + (Tree.node sum _ _).preorder.count i = _
  rw [Tree.count_preorder_node .left]
  rfl

/-- The joint has indices of the later product, what is left of the earlier one, and new indices. -/
theorem count_rejoin_le (h : Twins s f g m k) (expanded : Bool) (sum : NodeId) (rest : Tree)
    (i : NodeId) :
    (s.rejoin f g k (f.joint expanded sum rest (k.rest g.parent))).preorder.count i ≤
      s.preorder.count i + ((if i = sum then 1 else 0) + rest.preorder.count i) +
        (k.rest g.parent).preorder.count i := by
  have rejoined := h.count_rejoin (f.joint expanded sum rest (k.rest g.parent)) i
  have joined := count_joint f expanded sum rest (k.rest g.parent) i
  have taken := h.count_taken_le i
  have inside := h.later.parent.count_lt h.later.product m.place i
  rw [show m.factor m.place = f.tree from h.later.tree] at inside
  omega

/-- Nothing of the sum is among the new indices. -/
structure Fresh (s : Tree) (sum : NodeId) (rest : Tree) : Prop where
  sum : sum ∉ s.preorder
  rest : ∀ i ∈ s.preorder, i ∉ rest.preorder

theorem Fresh.notMem (h : Fresh s sum rest) {i : NodeId} (mem : i ∈ s.preorder) :
    i ∉ sum :: rest.preorder := by
  rw [List.mem_cons, not_or]
  exact ⟨fun eq => h.sum (eq ▸ mem), h.rest i mem⟩

theorem count_sum_rejoin (h : Twins s f g m k) (fresh : Fresh s sum rest) :
    (s.rejoin f g k (f.joint expanded sum rest (k.rest g.parent))).preorder.count g.sum ≤ 1 := by
  have bound := h.count_rejoin_le expanded sum rest g.sum
  have once := h.once g.sum
  have mem : g.sum ∈ s.preorder := h.earlier.sum.sub.mem List.mem_cons_self
  have other : g.sum ≠ sum := fun eq => fresh.sum (eq ▸ mem)
  have notRest := List.count_eq_zero.mpr (fresh.rest g.sum mem)
  have notLeft : (k.rest g.parent).preorder.count g.sum = 0 :=
    List.count_eq_zero.mpr fun mem => h.sum_notMem_earlier (h.rest_subset mem)
  rw [if_neg other] at bound
  omega

theorem complete_joint (h : Twins s f g m k) (whole : rest.complete = true) (expanded : Bool)
    (sum : NodeId) :
    (f.joint expanded sum rest (k.rest g.parent)).complete = true := by
  simp [Factor.joint, Tree.complete, h.later.tree_sub.complete h.complete, whole,
    h.earlier.complete_rest h.complete]

theorem count_merge_le (h : Twins s f g m k) (fresh : Fresh s sum rest)
    (whole : rest.complete = true) (i : NodeId) :
    (s.merge f g k (f.joint expanded sum rest (k.rest g.parent))).preorder.count i ≤
      s.preorder.count i + (sum :: rest.preorder).count i := by
  have new : (sum :: rest.preorder).count i =
      (if i = sum then 1 else 0) + rest.preorder.count i := by
    rw [List.count_cons, Nat.add_comm]
    simp only [beq_iff_eq, eq_comm (a := sum)]
  obtain ⟨child, term, left, tail⟩ :=
    h.term_rejoin (f.joint expanded sum rest (k.rest g.parent)) rfl
  have merged := Tree.count_graft (v := (k.tail.graft f.product
    (f.joint expanded sum rest (k.rest g.parent))).withId g.sum) term.sub
    (h.count_sum_rejoin fresh) i
  have dropped : (Tree.node g.sum k.plus child).preorder.count i = _ :=
    Tree.count_preorder_node k.side i
  rw [left, tail] at dropped
  have bound := h.count_rejoin_le expanded sum rest i
  have tailSub : k.tail.Sub s := Tree.Sub.trans (.child k.side.flip .refl) h.earlier.sum.sub
  have moved := Tree.count_withId (a := g.sum) (b := g.tail)
    (Tree.complete_graft (a := f.product) (tailSub.complete h.complete)
      (h.complete_joint whole expanded sum))
    ((Tree.id?_graft rfl k.tail).trans h.earlier.tail) i
  unfold Tree.merge
  omega

theorem nodup_merge (h : Twins s f g m k) (fresh : Fresh s sum rest)
    (whole : rest.complete = true) (nodup : (sum :: rest.preorder).Nodup) :
    (s.merge f g k (f.joint expanded sum rest (k.rest g.parent))).preorder.Nodup := by
  refine List.nodup_iff_count_le_one.mpr fun i => ?_
  have bound : (s.merge f g k (f.joint expanded sum rest (k.rest g.parent))).preorder.count i ≤ _ :=
    h.count_merge_le fresh whole i
  -- An index is an old one or a new one, and occurs once as such.
  by_cases mem : i ∈ s.preorder
  · have old := h.once i
    have none := List.count_eq_zero.mpr (fresh.notMem mem)
    omega
  · have none := List.count_eq_zero.mpr mem
    have new := List.nodup_iff_count_le_one.mp nodup i
    omega

theorem mem_merge (h : Twins s f g m k) (fresh : Fresh s sum rest) (whole : rest.complete = true)
    {i : NodeId}
    (mem : i ∈ (s.merge f g k (f.joint expanded sum rest (k.rest g.parent))).preorder) :
    i ∈ s.preorder ∨ i ∈ sum :: rest.preorder := by
  have bound : (s.merge f g k (f.joint expanded sum rest (k.rest g.parent))).preorder.count i ≤ _ :=
    h.count_merge_le fresh whole i
  have := List.count_pos_iff.mpr mem
  rw [← List.count_pos_iff, ← List.count_pos_iff]
  omega

theorem leaves_joint (h : Twins s f g m k) (left : ∀ o ∈ rest.leaves, o ∈ s.leaves)
    (expanded : Bool) (sum : NodeId) :
    ∀ o ∈ (f.joint expanded sum rest (k.rest g.parent)).leaves, o ∈ s.leaves := by
  intro o mem
  have inner : Tree.childless (Tree.pair f.tree (.node sum { op := some .add }
      (Tree.pair rest (k.rest g.parent)))) = false := by simp [Tree.childless]
  have inner' : Tree.childless (Tree.pair rest (k.rest g.parent)) = false := by
    simp [Tree.childless, h.earlier.isNil_rest]
  rw [Factor.joint, Tree.leaves_node inner, Tree.pair_right, Tree.leaves_node inner'] at mem
  simp only [Tree.pair_left, Tree.pair_right, List.mem_append] at mem
  rcases mem with mem | mem | mem
  · exact h.later.tree_sub.leaves o mem
  · exact left o mem
  · exact h.earlier.leaves_rest o mem

theorem proper_joint (h : Twins s f g m k) (proper : s.proper = true)
    (there : rest.isNil = false) (left : rest.proper = true) (expanded : Bool) (sum : NodeId) :
    (f.joint expanded sum rest (k.rest g.parent)).proper = true := by
  have tree := Tree.isNil_of_id? h.later.id
  simp [Factor.joint, Tree.proper, h.later.tree_sub.proper proper, left, tree, there,
    h.earlier.proper_rest proper, h.earlier.isNil_rest]

theorem isNil_merge (h : Twins s f g m k) (expanded : Bool) (sum : NodeId) (rest : Tree) :
    (s.merge f g k (f.joint expanded sum rest (k.rest g.parent))).isNil = s.isNil := by
  have tailThere : ((k.tail.graft f.product
      (f.joint expanded sum rest (k.rest g.parent))).withId g.sum).isNil = false := by
    rw [Tree.isNil_withId, Tree.isNil_graft rfl]
    exact Tree.isNil_of_id? h.earlier.tail
  rw [Tree.merge, Tree.isNil_graft tailThere, Tree.rejoin, Tree.isNil_graft rfl,
    Tree.isNil_graft h.earlier.isNil_rest]

universe u

variable {R : Type u} [CommRing R] {I : Interpretation R}

theorem eval_merge (laws : I.Ringlike) (h : Twins s f g m k) (fresh : Fresh s sum rest)
    (env : Env R) (other : Option ValueId → R) (there : rest.isNil = false)
    (equal : f.tree.eval I env other = g.tree.eval I env other)
    (left : rest.eval I env other = (m.rest f.parent).eval I env other) :
    (s.merge f g k (f.joint expanded sum rest (k.rest g.parent))).eval I env other =
      s.eval I env other := by
  have later := Tree.isNil_of_id? h.later.product
  have earlier := Tree.isNil_of_id? h.earlier.product
  have tree := Tree.isNil_of_id? h.later.id
  have restThere := h.earlier.isNil_rest
  obtain ⟨label, child, eq, -⟩ :=
    Tree.exists_node_of_isOp h.earlier.product_isOp h.earlier.product
  obtain ⟨label', child', eq', -⟩ := Tree.exists_node_of_isOp h.later.product_isOp h.later.product
  -- The value of the joint.
  have joint : (f.joint expanded sum rest (k.rest g.parent)).eval I env other =
      f.tree.eval I env other *
        ((m.rest f.parent).eval I env other + (k.rest g.parent).eval I env other) := by
    rw [Factor.joint, Tree.eval_mul laws rfl .left tree rfl, ← left]
    congr 1
    exact Tree.eval_add laws rfl .left there restThere
  -- The three replacements, one after the other.
  have first := Tree.eval_graft_term laws h.earlier.term earlier restThere
    (Tree.mem_preorder_of_id? h.earlier.product) (h.once g.product) env other
  have second := Tree.eval_graft_term laws h.term_taken later
    (v := f.joint expanded sum rest (k.rest g.parent)) rfl
    (Tree.mem_preorder_of_id? h.later.product)
    (h.once_taken f.product) env other
  rw [show k.product.graft g.product (k.rest g.parent) = k.rest g.parent by
    rw [eq, Tree.graft_root]] at first
  rw [show m.product.graft f.product (f.joint expanded sum rest (k.rest g.parent)) =
    f.joint expanded sum rest (k.rest g.parent) by rw [eq', Tree.graft_root]] at second
  obtain ⟨child, term, product, tail⟩ :=
    h.term_rejoin (f.joint expanded sum rest (k.rest g.parent)) rfl
  have tailThere : (k.tail.graft f.product
      (f.joint expanded sum rest (k.rest g.parent))).isNil = false :=
    (Tree.isNil_graft rfl _).trans (Tree.isNil_of_id? h.earlier.tail)
  have third := Tree.eval_graft_term laws term rfl
    (v := (k.tail.graft f.product (f.joint expanded sum rest (k.rest g.parent))).withId g.sum)
    ((Tree.isNil_withId _ _).trans tailThere) List.mem_cons_self (h.count_sum_rejoin fresh)
    env other
  rw [Tree.graft_root, Tree.eval_eq_of_bare (Tree.bare_withId g.sum _),
    Tree.eval_add laws h.earlier.plus k.side (product ▸ restThere) (tail ▸ tailThere), product,
    tail] at third
  have productLater : m.product.eval I env other = _ := h.later.eval_product laws h.nodup
  have productEarlier : k.product.eval I env other = _ := h.earlier.eval_product laws h.nodup
  rw [← equal] at productEarlier
  unfold Tree.merge
  unfold Tree.rejoin at third ⊢
  rw [third, second, first, joint, productLater, productEarlier]
  ring

/-- Merging products with equal factors changes no meaning. -/
theorem refines_merge (laws : I.Ringlike) (h : Twins s f g m k) (fresh : Fresh s sum rest)
    (proper : s.proper = true) (same : f.tree.same? g.tree = some true)
    (alike : rest.bare = (m.rest f.parent).bare) (expanded : Bool) :
    s.Refines I (s.merge f g k (f.joint expanded sum rest (k.rest g.parent))) := by
  have tailSub : k.tail.Sub s := Tree.Sub.trans (.child k.side.flip .refl) h.earlier.sum.sub
  have tailThere : ((k.tail.graft f.product
      (f.joint expanded sum rest (k.rest g.parent))).withId g.sum).isNil = false := by
    rw [Tree.isNil_withId, Tree.isNil_graft rfl]
    exact Tree.isNil_of_id? h.earlier.tail
  have restProper : rest.proper = true :=
    (Tree.proper_eq_of_bare alike).trans (h.later.proper_rest proper)
  have there := (Tree.isNil_eq_of_bare alike).trans h.later.isNil_rest
  have jointProper := h.proper_joint proper there restProper expanded sum
  refine ⟨?_, fun env other => ?_, fun o mem => ?_, fun _ => ?_⟩
  · exact h.isNil_merge expanded sum rest
  · refine h.eval_merge laws fresh env other there ?_ (Tree.eval_eq_of_bare alike)
    exact (Tree.eval_eq_of_same? laws.commutative same
      (Tree.tagged_of_proper (h.later.tree_sub.proper proper))
      (Tree.tagged_of_proper (h.earlier.tree_sub.proper proper))).2
  · have joint := h.leaves_joint (fun o mem =>
      h.later.leaves_rest o (Tree.leaves_eq_of_bare alike ▸ mem)) expanded sum
    rcases Tree.leaves_graft tailThere o mem with mem | mem
    · rcases Tree.leaves_graft rfl o mem with mem | mem
      · exact (Tree.leaves_graft h.earlier.isNil_rest o mem).elim (fun mem => mem)
          (h.earlier.leaves_rest o)
      · exact joint o mem
    · rw [Tree.leaves_eq_of_bare (Tree.bare_withId _ _)] at mem
      exact (Tree.leaves_graft rfl o mem).elim (tailSub.leaves o) (joint o)
  · refine Tree.proper_graft tailThere (Tree.proper_graft rfl
      (Tree.proper_graft h.earlier.isNil_rest proper (h.earlier.proper_rest proper)) jointProper) ?_
    rw [Tree.proper_eq_of_bare (Tree.bare_withId _ _)]
    exact Tree.proper_graft rfl (tailSub.proper proper) jointProper

end Twins

namespace Tree

/-- Two products with equal factors are merged somewhere in the tree. -/
inductive Factored : Tree → Tree → Prop
  | sum {s rest : Tree} {f g : Factor} {m k : Spot} {sum : NodeId} (expanded : Bool)
      (twins : Twins s f g m k) (same : f.tree.same? g.tree = some true)
      (fresh : Twins.Fresh s sum rest) (alike : rest.anonymous = (m.rest f.parent).anonymous) :
      Factored s (s.merge f g k (f.joint expanded sum rest (k.rest g.parent)))
  | left {l l' : Tree} (id : NodeId) (label : Label) (r : Tree) (h : Factored l l') :
      Factored (.node id label (pair l r)) (.node id label (pair l' r))
  | right {r r' : Tree} (id : NodeId) (label : Label) (l : Tree) (h : Factored r r') :
      Factored (.node id label (pair l r)) (.node id label (pair l r'))

theorem Factored.isNil_eq {t u : Tree} (h : t.Factored u) : t.isNil = false ∧ u.isNil = false := by
  cases h with
  | sum expanded twins =>
    have there := twins.earlier.sum.isNil_eq rfl
    exact ⟨there, (twins.isNil_merge expanded _ _).trans there⟩
  | left | right => exact ⟨rfl, rfl⟩

universe u

variable {R : Type u} [CommRing R] {I : Interpretation R}

theorem Factored.refines (laws : I.Arithmetic) {t u : Tree} (h : t.Factored u)
    (proper : t.proper = true) : t.Refines I u := by
  induction h with
  | sum expanded twins same fresh alike =>
    exact twins.refines_merge laws.ringlike fresh proper same (bare_eq_of_anonymous alike) expanded
  | left id label r h ih =>
    exact (ih (proper_child proper .left)).node (.refl I r) id id label
  | right id label l h ih =>
    exact Refines.node (.refl I l) (ih (proper_child proper .right)) id id label

end Tree

end SecureArith
