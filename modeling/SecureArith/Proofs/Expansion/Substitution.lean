import SecureArith.Proofs.Arboreal

set_option autoImplicit false

/-!
# Expansion substitutes once

Expanding a tree is told by what stands at the end of each path before and after. Below a node that
is expanded already nothing changes. Elsewhere a read of a variable with a tree becomes a copy of
that tree, and all other nodes stay where they are and are marked. The copies are taken from the
trees as they were, also where those read variables with trees, and are not looked into.
-/

namespace SecureArith

namespace Tree

variable {trees : VarId → Option Tree} {start : Nat} {t u : Tree} {id : NodeId} {label : Label}
  {child : Side → Tree} {side : Side} {path : List Side}

def descend? : List Side → Tree → Option Tree
  | [], t => some t
  | side :: path, .node _ _ child => (child side).descend? path
  | _ :: _, _ => none

/-- A node on the way is expanded already, or the one at the end. -/
def SealedAt (t : Tree) (path : List Side) : Prop :=
  ∃ (above : List Side) (id : NodeId) (label : Label) (child : Side → Tree),
    above <+: path ∧ t.descend? above = some (.node id label child) ∧ label.expanded = true

/-- A tree before and after the reads of variables that are not expanded, and have nothing expanded
above them, are replaced by copies of the trees of the variables. Below its root, which stands where
the read was, a copy has indices from a number on. -/
structure Substitutes (trees : VarId → Option Tree) (start : Nat) (t u : Tree) : Prop where
  kept : ∀ path part, t.descend? path = some part → t.SealedAt path → u.descend? path = some part
  replaced : ∀ path id label child v w, t.descend? path = some (.node id label child) →
    ¬ t.SealedAt path → childless child = true → label.var? = some v → trees v = some w →
    ∃ copy : Tree, u.descend? path = some copy ∧ copy.id? = some id ∧
      copy.anonymous = w.marked.anonymous ∧ ∀ i : Nat, i ∈ copy.preorder.tail → start ≤ i
  passed : ∀ path id label child, t.descend? path = some (.node id label child) →
    ¬ t.SealedAt path → (childless child = true → label.var?.bind trees = none) →
    ∃ child', u.descend? path = some (.node id { label with expanded := true } child') ∧
      ∀ side, (child' side).isNil = (child side).isNil

theorem sealedAt_of_expanded (done : label.expanded = true) (path : List Side) :
    (Tree.node id label child).SealedAt path :=
  ⟨[], id, label, child, List.nil_prefix, rfl, done⟩

theorem not_sealedAt_nil (todo : label.expanded = false) :
    ¬ (Tree.node id label child).SealedAt [] := by
  rintro ⟨above, _, label', _, isPrefix, here, done⟩
  rw [List.prefix_nil.mp isPrefix] at here
  cases here
  exact Bool.false_ne_true (todo.symm.trans done)

theorem sealedAt_cons_iff (todo : label.expanded = false) :
    (Tree.node id label child).SealedAt (side :: path) ↔ (child side).SealedAt path := by
  constructor
  · rintro ⟨above, i, l, c, isPrefix, here, done⟩
    cases above with
    | nil => exact absurd ⟨[], i, l, c, List.nil_prefix, here, done⟩ (not_sealedAt_nil todo)
    | cons side' above =>
      obtain ⟨rfl, within⟩ := List.cons_prefix_cons.mp isPrefix
      exact ⟨above, i, l, c, within, here, done⟩
  · rintro ⟨above, i, l, c, isPrefix, here, done⟩
    exact ⟨side :: above, i, l, c, List.cons_prefix_cons.mpr ⟨rfl, isPrefix⟩, here, done⟩

theorem descend?_nil_ne (path : List Side) : Tree.nil.descend? path ≠ some (.node id label child) := by
  intro here
  cases path <;> cases here

theorem not_nil_sealedAt (path : List Side) : ¬ Tree.nil.SealedAt path := by
  rintro ⟨above, _, _, _, -, here, -⟩
  exact descend?_nil_ne above here

def Rooted (t : Tree) : Prop := ∃ id label child, t = .node id label child

theorem Inlines.isNil_eq (h : Inlines trees start t u) (rooted : ∀ v w, trees v = some w → w.Rooted) :
    u.isNil = t.isNil := by
  cases h with
  | nil | done | passed => rfl
  | copied _ _ _ tree alike =>
    obtain ⟨_, _, _, rfl⟩ := rooted _ _ tree
    rw [isNil_marked, isNil_withId, ← isNil_anonymous, alike]
    rfl

theorem copy_marked {w : Tree} (rooted : w.Rooted) (alike : u.anonymous = w.anonymous)
    (new : ∀ i : Nat, i ∈ u.preorder → start ≤ i) (id : NodeId) :
    (u.withId id).marked.id? = some id ∧ (u.withId id).marked.anonymous = w.marked.anonymous ∧
      ∀ i : Nat, i ∈ (u.withId id).marked.preorder.tail → start ≤ i := by
  obtain ⟨_, _, _, rfl⟩ := rooted
  cases u with
  | nil | missing => cases alike
  | node i label child =>
    refine ⟨rfl, anonymous_marked ?_, fun i mem => new i (List.mem_cons_of_mem _ ?_)⟩
    · rw [anonymous_withId, alike]
    · rwa [preorder_marked] at mem

/-- Replacing the variables of a tree is substitution. -/
theorem Inlines.substitutes (h : Inlines trees start t u)
    (rooted : ∀ v w, trees v = some w → w.Rooted) : Substitutes trees start t u := by
  induction h with
  | nil =>
    exact ⟨fun _ _ here _ => here, fun path _ _ _ _ _ here => absurd here (descend?_nil_ne path),
      fun path _ _ _ here => absurd here (descend?_nil_ne path)⟩
  | done done =>
    exact ⟨fun _ _ here _ => here,
      fun path _ _ _ _ _ _ unsealed => absurd (sealedAt_of_expanded done path) unsealed,
      fun path _ _ _ _ unsealed => absurd (sealedAt_of_expanded done path) unsealed⟩
  | @copied id label child v w u todo leaf read tree alike new =>
    have below := children_of_childless leaf
    refine ⟨fun path part here sealed => ?_, fun path i l c x y here unsealed isLeaf isRead isTree => ?_,
      fun path i l c here unsealed unread => ?_⟩
    · cases path with
      | nil => exact absurd sealed (not_sealedAt_nil todo)
      | cons side path =>
        rw [sealedAt_cons_iff todo, below] at sealed
        exact absurd sealed (not_nil_sealedAt path)
    · cases path with
      | nil =>
        cases here
        cases read.symm.trans isRead
        cases tree.symm.trans isTree
        exact ⟨_, rfl, copy_marked (rooted v w tree) alike new id⟩
      | cons side path =>
        rw [descend?, below] at here
        exact absurd here (descend?_nil_ne path)
    · cases path with
      | nil =>
        cases here
        have none := unread leaf
        rw [read, Option.bind_some, tree] at none
        cases none
      | cons side path =>
        rw [descend?, below] at here
        exact absurd here (descend?_nil_ne path)
  | @passed id label child child' todo unread below ih =>
    refine ⟨fun path part here sealed => ?_, fun path i l c v w here unsealed leaf read tree => ?_,
      fun path i l c here unsealed noRead => ?_⟩
    · cases path with
      | nil => exact absurd sealed (not_sealedAt_nil todo)
      | cons side path => exact (ih side).kept path part here ((sealedAt_cons_iff todo).mp sealed)
    · cases path with
      | nil =>
        cases here
        have none := unread leaf
        rw [read, Option.bind_some, tree] at none
        cases none
      | cons side path =>
        rw [sealedAt_cons_iff todo] at unsealed
        exact (ih side).replaced path i l c v w here unsealed leaf read tree
    · cases path with
      | nil =>
        cases here
        exact ⟨child', rfl, fun side => (below side).isNil_eq rooted⟩
      | cons side path =>
        rw [sealedAt_cons_iff todo] at unsealed
        exact (ih side).passed path i l c here unsealed noRead

theorem Inlines.expanded_root (h : Inlines trees start t (.node id label child)) :
    label.expanded = true := by
  generalize isRoot : Tree.node id label child = u at h
  cases h with
  | nil => cases isRoot
  | done done =>
    cases isRoot
    exact done
  | @copied i _ _ _ _ u =>
    cases u with
    | nil | missing => cases isRoot
    | node =>
      cases isRoot
      rfl
  | passed =>
    cases isRoot
    rfl

end Tree

theorem Store.expand_of_expanded {s : Store} {id : Nat} {n : Node} (roots : List (TreeKey × NodeId))
    (found : s.get? id = some n) (done : n.expanded = true) : expand roots id s = .ok () s := by
  obtain ⟨size, eq⟩ := Nat.exists_eq_succ_of_ne_zero (Nat.ne_zero_of_lt (lt_size_of_get? found))
  have answer : Ends (expand roots id) s (fun _ s' => s' = s) fun _ _ => False := by
    rw [expand, Ends.bind_iff, Ends.get_iff, eq, expandTo, Ends.bind_iff]
    refine ends_read found ?_
    rw [if_pos done]
    exact rfl
  obtain ⟨_, _, run, rfl⟩ := answer.exists_ok
  exact run

namespace Forest

variable {f : Forest} {t : Tree}

def treeOf? (f : Forest) (v : VarId) : Option Tree := (f.root? (.var v)).map f.store.tree

theorem Grounded.registered (h : f.Grounded)
    (apart : ∀ entry ∈ f.roots, ∀ i ∈ (f.store.tree entry.2).preorder, i ∉ t.preorder) :
    f.store.Registered f.roots f.treeOf? t := by
  intro v
  rw [treeOf?, Registry.root?]
  cases found : f.roots.lookup (.var v) with
  | none => rfl
  | some root =>
    have mem := mem_of_lookup found
    exact ⟨_, rfl, (h _ mem).spans_tree, apart _ mem⟩

theorem Grounded.rooted (h : f.Grounded) (v : VarId) (w : Tree) (tree : f.treeOf? v = some w) :
    w.Rooted := by
  obtain ⟨root, found, rfl⟩ := Option.map_eq_some_iff.mp tree
  have spans := (h _ (mem_of_lookup found)).spans_tree
  dsimp only at spans
  generalize f.store.tree root = w at spans
  cases spans
  exact ⟨_, _, _, rfl⟩

end Forest

/-- A tree that shares no node with the registered ones is expanded by one simultaneous substitution
of their copies for the reads of their variables, also where registered trees read variables that
have a tree. Registered trees, and all that is not reached from the root, are as they were, no node
of a registered tree is reached from the root, and the root is marked, so that expanding the tree
again changes nothing. -/
theorem expand_substitutes {f : Forest} {id : Nat} (h : f.store.Arboreal id) (grounded : f.Grounded)
    (apart : ∀ entry ∈ f.roots, ∀ j : Nat, f.store.Reaches entry.2 j → ¬ f.store.Reaches id j) :
    ∃ s' : Store, Store.expand f.roots id f.store = .ok () s' ∧ s'.Arboreal id ∧
      Tree.Substitutes f.treeOf? f.store.size (f.store.tree id) (s'.tree id) ∧
      (∀ i : Nat, i < f.store.size → ¬ f.store.Reaches id i → s'.get? i = f.store.get? i) ∧
      (∀ entry ∈ f.roots, s'.Grounded entry.2 ∧ s'.tree entry.2 = f.store.tree entry.2 ∧
        ∀ j : Nat, s'.Reaches entry.2 j → ¬ s'.Reaches id j) ∧
      (∃ n, s'.get? id = some n ∧ n.expanded = true) ∧
      Store.expand f.roots id s' = .ok () s' := by
  have owned := h.owned_tree
  have apartNodes (entry : TreeKey × NodeId) (mem : entry ∈ f.roots) (i : Nat)
      (inside : i ∈ (f.store.tree entry.2).preorder) : i ∉ (f.store.tree id).preorder := by
    rw [← owned.spans.reaches_iff]
    exact apart entry mem i ((grounded entry mem).spans_tree.reaches_of_mem inside)
  have registered := grounded.registered apartNodes
  obtain ⟨_, s', run, u, owned', turns, inlines⟩ :=
    (Store.ends_expand_inlines owned registered).exists_ok
  obtain ⟨n, l, r, rfl, split⟩ := owned'.split
  have done : n.expanded = true := inlines.expanded_root
  refine ⟨s', run, owned'.arboreal, ?_, fun i lt other => ?_, fun entry mem => ?_,
    ⟨n, split.found, done⟩, Store.expand_of_expanded f.roots split.found done⟩
  · rw [owned'.tree_eq]
    exact inlines.substitutes grounded.rooted
  · exact turns.frame i lt fun inside => other (owned.spans.reaches_of_mem inside)
  · have spans := (grounded entry mem).spans_tree
    have kept := turns.keeps_spans spans (apartNodes entry mem)
    refine ⟨kept.grounded, kept.tree_eq, fun j reached reached' => ?_⟩
    have inside := kept.mem_of_reached reached
    rcases turns.within j (owned'.spans.mem_of_reached reached') with old | new
    · exact apartNodes entry mem j inside old
    · exact absurd (spans.lt_size j inside) (Nat.not_lt.mpr new)

/-- The sum `$0 + $1` is the tree of `$0`, which it reads. In `$0 * -$0 + $2` the negation is
expanded already. -/
def Forest.selfReading : Forest where
  store :=
    let read (v : VarId) : Node := { origin := some ⟨v, some .int, .var v⟩ }
    let op (op : Operator) (left right : NodeId) : Node :=
      { op := some op, left := some left, right := some right }
    ⟨#[read 0, read 1, op .add 0 1, read 0, read 0,
      { op := some (.other "__neg__"), left := some 4, expanded := true }, op .mul 3 5, read 2,
      op .add 6 7]⟩
  roots := [(.var 0, 2)]
  order := [.var 0]

theorem expand_substitutes_selfReading :
    ∃ s' : Store, Forest.selfReading.store.Arboreal 8 ∧ Forest.selfReading.Grounded ∧
      (∀ entry ∈ Forest.selfReading.roots, ∀ j : Nat,
        Forest.selfReading.store.Reaches entry.2 j → ¬ Forest.selfReading.store.Reaches 8 j) ∧
      Store.expand Forest.selfReading.roots 8 Forest.selfReading.store = .ok () s' ∧
      (∃ copy : Tree, (s'.tree 8).descend? [.left, .left] = some copy ∧ copy.id? = some 3 ∧
        copy.anonymous = (Forest.selfReading.store.tree 2).marked.anonymous) ∧
      (s'.tree 8).descend? [.left, .right] =
        (Forest.selfReading.store.tree 8).descend? [.left, .right] ∧
      (∃ child, (s'.tree 8).descend? [.right] = some (.node 7
        { origin := some ⟨2, some .int, .var 2⟩, expanded := true } child)) ∧
      s'.tree 2 = Forest.selfReading.store.tree 2 ∧
      Store.expand Forest.selfReading.roots 8 s' = .ok () s' := by
  have spans (id : Nat) (whole : (Forest.selfReading.store.tree id).complete = true) :
      Forest.selfReading.store.Spans (some id) (Forest.selfReading.store.tree id) :=
    Store.spans_unfold whole
  have sum := spans 8 (by decide +kernel)
  have tree := spans 2 (by decide +kernel)
  have arboreal : Forest.selfReading.store.Arboreal 8 :=
    Store.Owned.arboreal ⟨sum, by decide +kernel⟩
  have grounded : Forest.selfReading.Grounded := by
    intro entry mem
    rw [List.mem_singleton.mp mem]
    exact tree.grounded
  have disjoint : ∀ j ∈ (Forest.selfReading.store.tree 2).preorder,
      j ∉ (Forest.selfReading.store.tree 8).preorder := by
    decide +kernel
  have apart : ∀ entry ∈ Forest.selfReading.roots, ∀ j : Nat,
      Forest.selfReading.store.Reaches entry.2 j → ¬ Forest.selfReading.store.Reaches 8 j := by
    intro entry mem j reached reached'
    rw [List.mem_singleton.mp mem] at reached
    exact disjoint j (tree.mem_of_reached reached) (sum.mem_of_reached reached')
  obtain ⟨s', run, -, substitutes, -, registered, -, again⟩ :=
    expand_substitutes arboreal grounded apart
  have unsealedLeft : ¬ (Forest.selfReading.store.tree 8).SealedAt [.left, .left] := fun sealed =>
    Tree.not_sealedAt_nil rfl
      ((Tree.sealedAt_cons_iff rfl).mp ((Tree.sealedAt_cons_iff rfl).mp sealed))
  have unsealedRight : ¬ (Forest.selfReading.store.tree 8).SealedAt [.right] := fun sealed =>
    Tree.not_sealedAt_nil rfl ((Tree.sealedAt_cons_iff rfl).mp sealed)
  have isSealed : (Forest.selfReading.store.tree 8).SealedAt [.left, .right] :=
    ⟨[.left, .right], _, _, _, List.prefix_rfl, rfl, rfl⟩
  obtain ⟨copy, here, root, alike, -⟩ := substitutes.replaced [.left, .left] _ _ _ 0 _ rfl
    unsealedLeft rfl rfl rfl
  obtain ⟨child, passed, -⟩ := substitutes.passed [.right] _ _ _ rfl unsealedRight fun _ => rfl
  exact ⟨s', arboreal, grounded, apart, run, ⟨copy, here, root, alike⟩,
    substitutes.kept [.left, .right] _ rfl isSealed, ⟨child, passed⟩,
    (registered _ (List.mem_singleton.mpr rfl)).2.1, again⟩

end SecureArith
