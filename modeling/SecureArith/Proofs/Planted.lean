import Mathlib.Data.List.Flatten
import SecureArith.Proofs.Copy
import SecureArith.Proofs.Forest

set_option autoImplicit false

/-!
# Planted forests

A forest is planted where each key has one tree, no node occurs in a tree twice, and no two trees
have a node in common. Registering a new tree keeps a forest planted.
-/

namespace SecureArith

namespace Store

variable {s : Store} {p : Option NodeId} {t : Tree} {n : Node} {i j k : NodeId} {side : Side}

theorem Spans.preorder_eq (h : s.Spans p t) : t.preorder = p.toList ++ t.preorder.tail := by
  cases h <;> rfl

theorem Spans.exists_at (h : s.Spans p t) (mem : i ∈ t.preorder) :
    ∃ u, s.Spans (some i) u ∧ u.preorder.Sublist t.preorder := by
  induction h with
  | nil => exact absurd mem List.not_mem_nil
  | @node id n child found children ih =>
    have below (side : Side) (mem : i ∈ (child side).preorder) :
        ∃ u, s.Spans (some i) u ∧ u.preorder.Sublist (Tree.node id n.toLabel child).preorder := by
      obtain ⟨u, spans, part⟩ := ih side mem
      refine ⟨u, spans, .cons _ (part.trans ?_)⟩
      cases side with
      | left => exact List.sublist_append_left _ _
      | right => exact List.sublist_append_right _ _
    simp only [Tree.preorder, List.mem_cons, List.mem_append] at mem
    rcases mem with rfl | mem | mem
    · exact ⟨_, .node found children, List.Sublist.refl _⟩
    · exact below .left mem
    · exact below .right mem

theorem Owned.exists_at (h : s.Owned p t) (mem : i ∈ t.preorder) : ∃ u, s.Owned (some i) u := by
  obtain ⟨u, spans, part⟩ := h.spans.exists_at mem
  exact ⟨u, spans, h.nodup.sublist part⟩

theorem mem_preorder_child {id : NodeId} {label : Label} {child : Side → Tree}
    (mem : i ∈ (child side).preorder) : i ∈ (Tree.node id label child).preorder.tail := by
  rw [Tree.preorder, List.tail_cons]
  cases side with
  | left => exact List.mem_append_left _ mem
  | right => exact List.mem_append_right _ mem

theorem Spans.mem_below (h : s.Spans p t) (mem : k ∈ t.preorder) (found : s.get? k = some n)
    (isChild : n.child side = some j) : j ∈ t.preorder.tail := by
  induction h with
  | nil => exact absurd mem List.not_mem_nil
  | @node id n' child found' children ih =>
    simp only [Tree.preorder, List.mem_cons, List.mem_append] at mem
    rcases mem with rfl | mem | mem
    · cases found.symm.trans found'
      have inside : j ∈ (child side).preorder := by
        rw [(children side).preorder_eq, isChild]
        exact List.mem_cons_self
      exact mem_preorder_child inside
    · exact mem_preorder_child (List.mem_of_mem_tail (ih .left mem))
    · exact mem_preorder_child (List.mem_of_mem_tail (ih .right mem))

end Store

namespace Forest

variable {good : Tree → Prop} {f : Forest} {s : Store} {root j k id : NodeId} {t : Tree} {n : Node}
  {side : Side}

/-- The trees are good and have no nodes in common. -/
structure Planted (good : Tree → Prop) (f : Forest) : Prop where
  trees : ∀ entry ∈ f.roots, ∃ t, f.store.Owned (some entry.2) t ∧ good t
  nodup : f.nodes.Nodup
  keys : (f.roots.map (·.1)).Nodup

theorem nodes_eq (f : Forest) :
    f.nodes = f.roots.flatMap fun entry => (f.store.tree entry.2).preorder := by
  simp [nodes, Forest.trees, List.flatMap_map]

theorem Planted.complete (h : f.Planted good) : f.complete = true := by
  rw [Forest.complete, List.all_eq_true]
  intro entry mem
  obtain ⟨root, isRoot, rfl⟩ := List.mem_map.mp mem
  obtain ⟨t, owned, -⟩ := h.trees root isRoot
  dsimp only
  rw [owned.tree_eq]
  exact owned.spans.complete

theorem planted_empty (good : Tree → Prop) : Planted good {} :=
  ⟨nofun, List.nodup_nil, List.nodup_nil⟩

theorem Planted.mono (h : f.Planted good) (turns : f.store.Turns .nil s t) :
    Planted good { f with store := s } := by
  have kept (entry : TreeKey × NodeId) (mem : entry ∈ f.roots) :
      ∃ u, f.store.Owned (some entry.2) u ∧ s.Owned (some entry.2) u ∧ good u := by
    obtain ⟨u, old, isGood⟩ := h.trees entry mem
    exact ⟨u, old, turns.keeps_old old, isGood⟩
  refine ⟨fun entry mem => ?_, ?_, h.keys⟩
  · obtain ⟨u, -, new, isGood⟩ := kept entry mem
    exact ⟨u, new, isGood⟩
  · have same : f.roots.flatMap (fun entry => (s.tree entry.2).preorder) =
        f.roots.flatMap fun entry => (f.store.tree entry.2).preorder := by
      refine List.flatMap_congr fun entry mem => ?_
      obtain ⟨u, old, new, -⟩ := kept entry mem
      rw [old.tree_eq, new.tree_eq]
    rw [nodes_eq, same, ← nodes_eq]
    exact h.nodup

theorem Planted.add (h : f.Planted good) (isGood : good t) (owned : s.Owned (some root) t)
    (turns : f.store.Turns .nil s t) (key : TreeKey) :
    Planted good (Forest.add { f with store := s } key root) := by
  have kept := h.mono turns
  have fewer : (f.roots.filter (·.1 != key)).Sublist f.roots := List.filter_sublist
  refine ⟨fun entry mem => ?_, ?_, ?_⟩
  · rcases List.mem_cons.mp mem with rfl | mem
    · exact ⟨t, owned, isGood⟩
    · exact kept.trees entry (List.mem_of_mem_filter mem)
  · have part := fewer.flatMap fun entry => (s.tree entry.2).preorder
    rw [nodes_eq, roots_add, store_add, List.flatMap_cons]
    dsimp only
    rw [owned.tree_eq]
    refine List.nodup_append.mpr ⟨owned.nodup, (nodes_eq _ ▸ kept.nodup).sublist part, ?_⟩
    rintro i new j old rfl
    obtain ⟨entry, mem, inside⟩ := List.mem_flatMap.mp old
    obtain ⟨u, before, -⟩ := h.trees entry (List.mem_of_mem_filter mem)
    rw [(turns.keeps_old before).tree_eq] at inside
    exact turns.apart_of_new before.spans i inside new
  · exact (Forest.add _ key root).nodup_keys

theorem Planted.mem_nodes (h : f.Planted good) :
    id ∈ f.nodes ↔ ∃ entry ∈ f.roots, ∃ t, f.store.Owned (some entry.2) t ∧ good t ∧
      id ∈ t.preorder := by
  rw [nodes_eq, List.mem_flatMap]
  constructor
  · rintro ⟨entry, mem, inside⟩
    obtain ⟨t, owned, isGood⟩ := h.trees entry mem
    rw [owned.tree_eq] at inside
    exact ⟨entry, mem, t, owned, isGood, inside⟩
  · rintro ⟨entry, mem, t, owned, -, inside⟩
    exact ⟨entry, mem, by rwa [owned.tree_eq]⟩

theorem Planted.child_mem (h : f.Planted good) (mem : k ∈ f.nodes)
    (found : f.store.get? k = some n) (isChild : n.child side = some j) : j ∈ f.nodes := by
  obtain ⟨entry, isRoot, t, owned, isGood, inside⟩ := h.mem_nodes.mp mem
  refine h.mem_nodes.mpr ⟨entry, isRoot, t, owned, isGood, ?_⟩
  exact List.mem_of_mem_tail (owned.spans.mem_below inside found isChild)

end Forest

end SecureArith
