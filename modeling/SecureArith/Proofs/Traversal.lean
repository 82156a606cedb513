import SecureArith.Proofs.Arboreal

set_option autoImplicit false

/-!
# The order of registration and the order of nodes

The registered trees are kept in the order of their latest registrations, whatever was registered
before. A walk with a stack, which starts from their roots and puts the children of each node that
it visits on top, left above right, visits the nodes tree by tree, each tree from its root down and
from left to right. It passes one edge for each node that is not a root.
-/

namespace SecureArith

namespace Forest

variable {history : List (TreeKey × NodeId)} {roots : List (TreeKey × NodeId)} {f : Forest}
  {entry new : TreeKey × NodeId} {k : Nat}

/-- Trees were registered one after the other, and the store was changed in between in any way. -/
inductive Records : List (TreeKey × NodeId) → Forest → Prop
  | empty (s : Store) : Records [] { store := s }
  | edit {history : List (TreeKey × NodeId)} {f : Forest} (h : Records history f) (s : Store) :
      Records history { f with store := s }
  | add {history : List (TreeKey × NodeId)} {f : Forest} (h : Records history f) (key : TreeKey)
      (root : NodeId) : Records (history ++ [(key, root)]) (f.add key root)

/-- An entry was registered at a place, and its key was not registered again after it. -/
def Latest (history : List (TreeKey × NodeId)) (k : Nat) (entry : TreeKey × NodeId) : Prop :=
  history[k]? = some entry ∧
    ∀ (j : Nat) (later : TreeKey × NodeId), k < j → history[j]? = some later → later.1 ≠ entry.1

/-- Each key that was ever registered is listed once, with its latest root, and one key stands
before another where it was registered later. -/
structure Lists (history roots : List (TreeKey × NodeId)) : Prop where
  keys : (roots.map (·.1)).Nodup
  known : ∀ key, key ∈ roots.map (·.1) ↔ key ∈ history.map (·.1)
  latest : ∀ entry, entry ∈ roots ↔ ∃ k, Latest history k entry
  order : roots.Pairwise fun a b => ∃ j k, k < j ∧ Latest history j a ∧ Latest history k b

theorem latest_concat : Latest (history ++ [new]) k entry ↔
    k = history.length ∧ entry = new ∨ Latest history k entry ∧ entry.1 ≠ new.1 := by
  have get (j : Nat) : (history ++ [new])[j]? =
      if j = history.length then some new else history[j]? := by
    split
    · rename_i eq
      rw [eq, List.getElem?_concat_length]
    · rename_i ne
      by_cases lt : j < history.length
      · rw [List.getElem?_append_left lt]
      · rw [List.getElem?_eq_none (by rw [List.length_append, List.length_singleton]; omega),
          List.getElem?_eq_none (by omega)]
  simp only [Latest, get]
  constructor
  · rintro ⟨here, later⟩
    by_cases last : k = history.length
    · rw [if_pos last] at here
      exact .inl ⟨last, (Option.some.inj here).symm⟩
    · rw [if_neg last] at here
      have lt : k < history.length := (List.getElem?_eq_some_iff.mp here).1
      refine .inr ⟨⟨here, fun j other after isOther => ?_⟩, ?_⟩
      · have inside : j ≠ history.length :=
          Nat.ne_of_lt (List.getElem?_eq_some_iff.mp isOther).1
        exact later j other after (by rw [if_neg inside]; exact isOther)
      · exact (later history.length new lt (if_pos rfl)).symm
  · rintro (⟨rfl, rfl⟩ | ⟨⟨here, later⟩, ne⟩)
    · refine ⟨if_pos rfl, fun j other after isOther => ?_⟩
      rw [if_neg (Nat.ne_of_gt after)] at isOther
      have := (List.getElem?_eq_some_iff.mp isOther).1
      omega
    · have lt : k < history.length := (List.getElem?_eq_some_iff.mp here).1
      refine ⟨by rw [if_neg (Nat.ne_of_lt lt)]; exact here, fun j other after isOther => ?_⟩
      split at isOther
      · rw [← Option.some.inj isOther]
        exact ne.symm
      · exact later j other after isOther

theorem Latest.lt_length (h : Latest history k entry) : k < history.length :=
  (List.getElem?_eq_some_iff.mp h.1).1

theorem Lists.add (h : Lists history roots) (new : TreeKey × NodeId) :
    Lists (history ++ [new]) (new :: roots.filter (·.1 != new.1)) := by
  have kept (entry : TreeKey × NodeId) :
      entry ∈ roots.filter (·.1 != new.1) ↔ entry ∈ roots ∧ entry.1 ≠ new.1 := by
    rw [List.mem_filter, bne_iff_ne]
  have fewer : (roots.filter (·.1 != new.1)).Sublist roots := List.filter_sublist
  refine ⟨?_, fun key => ?_, fun entry => ?_, ?_⟩
  · rw [List.map_cons, List.nodup_cons]
    refine ⟨fun mem => ?_, h.keys.sublist (fewer.map _)⟩
    obtain ⟨entry, inside, same⟩ := List.mem_map.mp mem
    exact ((kept entry).mp inside).2 same
  · rw [List.map_append, List.mem_append, ← h.known, List.map_cons, List.mem_cons, List.map_cons,
      List.map_nil, List.mem_singleton]
    by_cases same : key = new.1
    · simp only [same, true_or, or_true]
    · simp only [same, false_or, or_false, List.mem_map, kept]
      constructor
      · rintro ⟨entry, ⟨inside, -⟩, rfl⟩
        exact ⟨entry, inside, rfl⟩
      · rintro ⟨entry, inside, rfl⟩
        exact ⟨entry, ⟨inside, same⟩, rfl⟩
  · rw [List.mem_cons, kept, h.latest]
    simp only [latest_concat]
    constructor
    · rintro (rfl | ⟨⟨k, latest⟩, other⟩)
      · exact ⟨history.length, .inl ⟨rfl, rfl⟩⟩
      · exact ⟨k, .inr ⟨latest, other⟩⟩
    · rintro ⟨k, ⟨-, rfl⟩ | ⟨latest, other⟩⟩
      · exact .inl rfl
      · exact .inr ⟨⟨k, latest⟩, other⟩
  · rw [List.pairwise_cons]
    refine ⟨fun entry mem => ?_, (h.order.sublist fewer).imp_of_mem fun inside inside' ordered => ?_⟩
    · obtain ⟨inside, other⟩ := (kept entry).mp mem
      obtain ⟨k, latest⟩ := (h.latest entry).mp inside
      exact ⟨history.length, k, latest.lt_length, latest_concat.mpr (.inl ⟨rfl, rfl⟩),
        latest_concat.mpr (.inr ⟨latest, other⟩)⟩
    · obtain ⟨j, k, before, latest, latest'⟩ := ordered
      exact ⟨j, k, before, latest_concat.mpr (.inr ⟨latest, ((kept _).mp inside).2⟩),
        latest_concat.mpr (.inr ⟨latest', ((kept _).mp inside').2⟩)⟩

theorem Records.lists (h : Records history f) : Lists history f.roots := by
  induction h with
  | empty => exact ⟨List.nodup_nil, fun _ => Iff.rfl, fun _ => by simp [Latest], .nil⟩
  | edit _ _ ih => exact ih
  | add _ key root ih => exact ih.add (key, root)

end Forest

namespace Store

variable {s : Store} {p : Option NodeId} {t : Tree} {root : Nat} {stack order order' : List NodeId}

/-- What a walk visits that takes nodes from a stack and puts their children on it. -/
inductive Walks (s : Store) : List NodeId → List NodeId → Prop
  | done : Walks s [] []
  | visit {id : NodeId} {n : Node} {stack order : List NodeId} (found : s.get? id = some n)
      (rest : Walks s (n.children ++ stack) order) : Walks s (id :: stack) (id :: order)

def childrenAt (s : Store) (id : NodeId) : List NodeId := ((s.get? id).map Node.children).getD []

theorem Walks.unique (h : s.Walks stack order) (h' : s.Walks stack order') : order = order' := by
  induction h generalizing order' with
  | done =>
    cases h'
    rfl
  | visit found _ ih =>
    cases h' with
    | visit found' rest =>
      cases found.symm.trans found'
      rw [ih rest]

/-- A tree on top of the stack is visited before the rest. -/
theorem Spans.walks (h : s.Spans p t) (rest : s.Walks stack order) :
    s.Walks (p.toList ++ stack) (t.preorder ++ order) := by
  induction h generalizing stack order with
  | nil => exact rest
  | @node id n child found children ih =>
    have below : s.Walks (n.children ++ stack)
        ((child .left).preorder ++ ((child .right).preorder ++ order)) := by
      rw [Node.children, List.append_assoc]
      exact ih .left (ih .right rest)
    rw [Tree.preorder, List.cons_append, List.append_assoc]
    exact .visit found below

theorem Spans.edges_eq (h : s.Spans p t) : (t.preorder.flatMap s.childrenAt).length = t.edges := by
  induction h with
  | nil => rfl
  | @node id n child found children ih =>
    have here : (s.childrenAt id).length = (if (child .left).isNil then 0 else 1) +
        if (child .right).isNil then 0 else 1 := by
      rw [childrenAt, found, (children .left).isNil_eq, (children .right).isNil_eq]
      change (n.left.toList ++ n.right.toList).length =
        (if n.left.isNone then 0 else 1) + if n.right.isNone then 0 else 1
      cases n.left <;> cases n.right <;> rfl
    rw [Tree.preorder, List.flatMap_cons, List.flatMap_append, List.length_append,
      List.length_append, ih .left, ih .right, here, Tree.edges]
    omega

/-- All nodes but the root have an edge to them. -/
theorem Spans.edges_add (h : s.Spans p t) : t.edges + p.toList.length = t.size := by
  induction h with
  | nil => rfl
  | @node id n child found children ih =>
    have edge (side : Side) : (if (child side).isNil then 0 else 1) =
        (n.child side).toList.length := by
      rw [(children side).isNil_eq]
      cases n.child side <;> rfl
    rw [Tree.edges, Tree.size, edge .left, edge .right, ← ih .left, ← ih .right]
    change _ + 1 = _
    omega

end Store

namespace Forest

variable {f : Forest}

theorem Grounded.complete (h : f.Grounded) : f.complete = true := by
  rw [Forest.complete, List.all_eq_true]
  intro entry mem
  obtain ⟨root, isRoot, rfl⟩ := List.mem_map.mp mem
  exact (h root isRoot).spans_tree.complete

theorem Grounded.walks (h : f.Grounded) : f.store.Walks (f.roots.map (·.2)) f.nodes := by
  rw [nodes_eq]
  unfold Grounded at h
  generalize f.roots = roots at h ⊢
  induction roots with
  | nil => exact .done
  | cons entry rest ih =>
    rw [List.forall_mem_cons] at h
    exact h.1.spans_tree.walks (ih h.2)

theorem total_eq (f : Forest) (count : Tree → Nat) :
    total f.trees count = f.roots.foldr (fun entry n => count (f.store.tree entry.2) + n) 0 := by
  rw [total, trees, List.foldr_map]

theorem length_nodes (f : Forest) : f.nodes.length = total f.trees Tree.size := by
  rw [nodes_eq, total_eq]
  induction f.roots with
  | nil => rfl
  | cons entry rest ih =>
    rw [List.flatMap_cons, List.length_append, ih, Tree.length_preorder]
    rfl

theorem Grounded.edges_eq (h : f.Grounded) :
    (f.nodes.flatMap f.store.childrenAt).length = total f.trees Tree.edges := by
  rw [nodes_eq, total_eq]
  unfold Grounded at h
  generalize f.roots = roots at h ⊢
  induction roots with
  | nil => rfl
  | cons entry rest ih =>
    rw [List.forall_mem_cons] at h
    rw [List.flatMap_cons, List.flatMap_append, List.length_append, ih h.2, h.1.spans_tree.edges_eq]
    rfl

theorem Grounded.edges_add (h : f.Grounded) :
    total f.trees Tree.edges + f.roots.length = total f.trees Tree.size := by
  rw [total_eq, total_eq]
  unfold Grounded at h
  generalize f.roots = roots at h ⊢
  induction roots with
  | nil => rfl
  | cons entry rest ih =>
    rw [List.forall_mem_cons] at h
    have below := ih h.2
    have here : _ + 1 = _ := h.1.spans_tree.edges_add
    rw [List.foldr_cons, List.foldr_cons, List.length_cons]
    omega

end Forest

/-- However trees are registered one after the other, the registry lists each key once, with its
latest root, from the latest registration to the earliest, and has a root for each key when it is
read in that order. Where every root has a tree, the nodes are those of the trees in that order,
each tree from its root down and from left to right, and a walk with a stack that starts from the
roots visits the same. The edges are the children of these nodes, one for each of them but the
roots. A tree whose nodes have one parent each is visited without repetition, and a walk that starts
from its root visits all that is reached from there. -/
theorem registrations_order_nodes {history : List (TreeKey × NodeId)} {f : Forest}
    (h : Forest.Records history f) :
    Forest.Lists history f.roots ∧ f.entries? = some f.roots ∧
    (f.Grounded →
      (∃ trees : List Tree,
        List.Forall₂ (fun entry t => f.store.Spans (some entry.2) t) f.roots trees ∧
        f.nodes = trees.flatMap Tree.preorder) ∧
      (∀ order, f.store.Walks (f.roots.map (·.2)) order ↔ order = f.nodes) ∧
      f.complete = true ∧ f.nodes? = some f.nodes ∧ f.counts? = some f.counts ∧
      f.counts = (f.nodes.length, (f.nodes.flatMap f.store.childrenAt).length) ∧
      f.counts.2 + f.roots.length = f.counts.1) ∧
    ∀ root : Nat, f.store.Arboreal root →
      (f.store.tree root).preorder.Nodup ∧
      (∀ j : Nat, j ∈ (f.store.tree root).preorder ↔ f.store.Reaches root j) ∧
      ∀ order, f.store.Walks [root] order ↔ order = (f.store.tree root).preorder := by
  have only {stack nodes : List NodeId} (walks : f.store.Walks stack nodes) (order : List NodeId) :
      f.store.Walks stack order ↔ order = nodes := by
    constructor
    · exact fun walks' => walks'.unique walks
    · rintro rfl
      exact walks
  refine ⟨h.lists, f.entries?_eq, fun grounded =>
    ⟨⟨f.roots.map fun entry => f.store.tree entry.2, ?_, ?_⟩, only grounded.walks,
      grounded.complete, ?_, ?_, ?_, grounded.edges_add⟩, fun root arboreal => ?_⟩
  · rw [List.forall₂_map_right_iff, List.forall₂_same]
    exact fun entry mem => (grounded entry mem).spans_tree
  · rw [Forest.nodes_eq, List.flatMap_map]
  · rw [f.nodes?_eq, if_pos grounded.complete]
  · rw [f.counts?_eq, if_pos grounded.complete]
  · rw [f.length_nodes, grounded.edges_eq]
    rfl
  · have spans := arboreal.spans_tree
    refine ⟨arboreal.nodup spans, fun j => spans.reaches_iff.symm, only ?_⟩
    simpa using spans.walks .done

/-- Reads of two variables and a sum of such reads. One of the reads has two keys. -/
def Forest.readsAndSum : Forest where
  store :=
    let read (v : VarId) : Node := { origin := some ⟨v, some .int, .var v⟩ }
    ⟨#[read 0, read 1, read 0, read 1, { op := some .add, left := some 2, right := some 3 }]⟩
  roots := [(.var 0, 1), (.ret, 4), (.none, 1)]
  order := [.none, .ret, .var 0]

theorem registrations_order_nodes_readsAndSum :
    Forest.Records [(.var 0, 0), (.none, 1), (.ret, 4), (.var 0, 1)] .readsAndSum ∧
      Forest.Lists [(.var 0, 0), (.none, 1), (.ret, 4), (.var 0, 1)] Forest.readsAndSum.roots ∧
      Forest.readsAndSum.Grounded ∧ Forest.readsAndSum.store.Walks [1, 4, 1] [1, 4, 2, 3, 1] ∧
      Forest.readsAndSum.counts? = some (5, 2) ∧ Forest.readsAndSum.store.Arboreal 4 ∧
      Forest.readsAndSum.store.Walks [4] [4, 2, 3] := by
  have records : Forest.Records [(.var 0, 0), (.none, 1), (.ret, 4), (.var 0, 1)] .readsAndSum :=
    ((((Forest.Records.empty _).add (.var 0) 0).add .none 1).add .ret 4).add (.var 0) 1
  obtain ⟨lists, -, nodes, preorder⟩ := registrations_order_nodes records
  have spans (id : Nat) (whole : (Forest.readsAndSum.store.tree id).complete = true) :
      Forest.readsAndSum.store.Spans (some id) (Forest.readsAndSum.store.tree id) :=
    Store.spans_unfold whole
  have whole : ∀ entry ∈ Forest.readsAndSum.roots,
      (Forest.readsAndSum.store.tree entry.2).complete = true := by
    decide +kernel
  have grounded : Forest.readsAndSum.Grounded := fun entry mem =>
    (spans entry.2 (whole entry mem)).grounded
  have arboreal : Forest.readsAndSum.store.Arboreal 4 :=
    Store.Owned.arboreal ⟨spans 4 (by decide +kernel), by decide +kernel⟩
  obtain ⟨-, walk, -, -, known, counts, -⟩ := nodes grounded
  refine ⟨records, lists, grounded, (walk _).mpr (by decide +kernel), ?_, arboreal,
    ((preorder 4 arboreal).2.2 _).mpr (by decide +kernel)⟩
  rw [known, counts]
  decide +kernel

end SecureArith
