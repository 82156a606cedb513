import Mathlib.Data.List.Perm.Subperm
import Mathlib.Logic.Relation
import SecureArith.Encoding.Decode
import SecureArith.Proofs.Copy
import SecureArith.Proofs.WellFormed

set_option autoImplicit false

/-!
# Unfolding records

Any records make a graph, with an edge from an identity to the children that its first record names.
Decoding unfolds it from its roots into trees of their own. It fails exactly where it reaches a
fault: an identity without a record, one that is no index, or one on a cycle. A path without a cycle
is no longer than the encoding, so that the bound on the depth stops nothing else.
-/

namespace SecureArith

def Record.child (r : Record) : Side → Int
  | .left => r.left
  | .right => r.right

namespace Encoding

def Names (e : Encoding) (id c : Int) : Prop :=
  c ≠ Record.absent ∧ ∃ r side, e.record? id = some r ∧ r.child side = c

/-- The identities that are come upon from one. -/
def Reaches (e : Encoding) : Int → Int → Prop := Relation.ReflTransGen e.Names

/-- Why an identity has no tree, and what is said about it. -/
inductive Fault (e : Encoding) (id : Int) : Failure → Prop
  | unknown (h : e.record? id = none) : Fault e id (.unknownRecord id)
  | index (h : id < 0 ∨ Record.indexLimit ≤ id) : Fault e id (.invalidIdentity id)
  | cycle (h : Relation.TransGen e.Names id id) : Fault e id (.cyclicRecord id)

/-- A tree with a node for each way down from an identity. -/
inductive Unfolds (e : Encoding) (values : Array Value) : Int → Tree → Prop
  | node {id : Int} {r : Record} {index k : Nat} {child : Side → Tree}
      (found : e.record? id = some r) (isIndex : Record.toIndex? id = some index)
      (absent : ∀ side, r.child side = Record.absent → child side = .nil)
      (present : ∀ side, r.child side ≠ Record.absent →
        Unfolds e values (r.child side) (child side)) :
      Unfolds e values id
        (.node k (r.node values index (child .left).id? (child .right).id?).toLabel child)

/-- The same where the child may be absent. -/
def UnfoldsChild (e : Encoding) (values : Array Value) (c : Int) (u : Tree) : Prop :=
  (c = Record.absent → u = .nil) ∧ (c ≠ Record.absent → e.Unfolds values c u)

variable {e : Encoding} {values : Array Value} {id x : Int} {u : Tree} {f : Failure}

theorem mem_childIds : x ∈ e.childIds ↔ (∃ r ∈ e, ∃ side, r.child side = x) ∧ x ≠ Record.absent := by
  have sides (r : Record) : x ∈ [r.left, r.right] ↔ ∃ side, r.child side = x := by
    constructor
    · intro mem
      rcases List.mem_cons.mp mem with rfl | mem
      · exact ⟨.left, rfl⟩
      · exact ⟨.right, (List.mem_singleton.mp mem).symm⟩
    · rintro ⟨side, rfl⟩
      cases side <;> simp [Record.child]
  rw [childIds, List.mem_filter, List.mem_flatMap, bne_iff_ne]
  simp only [sides]

theorem toIndex?_eq_none : Record.toIndex? id = none ↔ id < 0 ∨ Record.indexLimit ≤ id := by
  rw [Record.toIndex?]
  split <;> simp <;> omega

namespace Unfolds

theorem of_children {r : Record} {index : Nat} {left right : Tree}
    (found : e.record? id = some r) (isIndex : Record.toIndex? id = some index)
    (isLeft : e.UnfoldsChild values r.left left) (isRight : e.UnfoldsChild values r.right right)
    (k : NodeId) :
    e.Unfolds values id
      (.node k (r.node values index left.id? right.id?).toLabel (Tree.pair left right)) := by
  have isChild (side : Side) : e.UnfoldsChild values (r.child side) (Tree.pair left right side) := by
    cases side with
    | left => exact isLeft
    | right => exact isRight
  exact .node found isIndex (fun side => (isChild side).1) fun side => (isChild side).2

theorem exists_of_names (h : e.Unfolds values id u) (names : e.Names id x) :
    ∃ v, e.Unfolds values x v ∧ v.size < u.size := by
  obtain ⟨there, r, side, found, rfl⟩ := names
  cases h with
  | @node _ r' _ _ child found' _ _ present =>
    cases found.symm.trans found'
    refine ⟨child side, present side there, ?_⟩
    rw [Tree.size]
    cases side <;> omega

theorem exists_of_reaches (h : e.Unfolds values id u) (reaches : e.Reaches id x) :
    ∃ v, e.Unfolds values x v := by
  induction reaches with
  | refl => exact ⟨u, h⟩
  | tail _ names ih =>
    obtain ⟨v, unfolds⟩ := ih
    obtain ⟨w, unfolds', -⟩ := unfolds.exists_of_names names
    exact ⟨w, unfolds'⟩

theorem exists_of_transGen (h : e.Unfolds values id u) (below : Relation.TransGen e.Names id x) :
    ∃ v, e.Unfolds values x v ∧ v.size < u.size := by
  induction below with
  | single names => exact h.exists_of_names names
  | tail _ names ih =>
    obtain ⟨v, unfolds, less⟩ := ih
    obtain ⟨w, unfolds', less'⟩ := unfolds.exists_of_names names
    exact ⟨w, unfolds', Nat.lt_trans less' less⟩

/-- On a cycle trees would become smaller and smaller. -/
theorem acyclic (h : e.Unfolds values id u) : ¬ Relation.TransGen e.Names id id := by
  intro cycle
  induction n : u.size using Nat.strongRecOn generalizing u with
  | ind n ih =>
    obtain ⟨v, unfolds, less⟩ := h.exists_of_transGen cycle
    exact ih v.size (n ▸ less) unfolds rfl

theorem not_fault (h : e.Unfolds values id u) (reaches : e.Reaches id x) : ¬ e.Fault x f := by
  obtain ⟨v, unfolds⟩ := h.exists_of_reaches reaches
  intro fault
  cases fault with
  | cycle cycle => exact unfolds.acyclic cycle
  | unknown none =>
    cases unfolds with
    | node found => cases found.symm.trans none
  | index outside =>
    cases unfolds with
    | node _ isIndex => cases isIndex.symm.trans (toIndex?_eq_none.mpr outside)

end Unfolds

/-- The path to an identity: no identity stands on it twice, and there is a way down from each. -/
structure Path (e : Encoding) (path : List Int) (id : Int) : Prop where
  nodup : path.Nodup
  recorded : ∀ x ∈ path, (e.record? x).isSome
  below : ∀ x ∈ path, Relation.TransGen e.Names x id

namespace Path

variable {path : List Int} {r : Record} {side : Side}

theorem nil (e : Encoding) (id : Int) : e.Path [] id :=
  ⟨.nil, fun _ mem => absurd mem List.not_mem_nil, fun _ mem => absurd mem List.not_mem_nil⟩

/-- Every identity on a path has a record. -/
theorem length_le (h : e.Path path id) : path.length ≤ e.length := by
  have part : path ⊆ e.map (·.id) := by
    intro x mem
    obtain ⟨r, found⟩ := Option.isSome_iff_exists.mp (h.recorded x mem)
    have isId := List.find?_some found
    exact List.mem_map.mpr ⟨r, List.mem_of_find?_eq_some found, by simpa using isId⟩
  simpa using (h.nodup.subperm part).length_le

theorem cons (h : e.Path path id) (found : e.record? id = some r) (new : id ∉ path)
    (names : e.Names id x) : e.Path (id :: path) x := by
  refine ⟨List.nodup_cons.mpr ⟨new, h.nodup⟩, ?_, ?_⟩
  · rw [List.forall_mem_cons]
    exact ⟨found ▸ rfl, h.recorded⟩
  · rw [List.forall_mem_cons]
    exact ⟨.single names, fun y mem => (h.below y mem).tail names⟩

end Path

variable {path : List Int} {depth : Nat} {s : Store}

theorem ends_child {c : Int} {x : StoreM NodeId} {failed : Failure → Store → Prop}
    (built : c ≠ Record.absent → Ends x s
      (fun k s' => ∃ u, e.Unfolds values c u ∧ s'.Owned (some k) u ∧ s.Turns .nil s' u) failed) :
    Ends (if c = Record.absent then return none else some <$> x) s
      (fun q s' => ∃ u, e.UnfoldsChild values c u ∧ s'.Owned q u ∧ s.Turns .nil s' u) failed := by
  rw [Ends.ite_iff]
  refine ⟨fun none => ?_, fun there => ?_⟩
  · exact ⟨.nil, ⟨fun _ => rfl, absurd none⟩, Store.owned_nil s, .refl s .nil⟩
  · rw [Ends.map_iff]
    refine (built there).imp ?_ fun _ _ h => h
    rintro k s' ⟨u, unfolds, owned, turns⟩
    exact ⟨u, ⟨fun none => absurd none there, fun _ => unfolds⟩, owned, turns⟩

/-- Building unfolds an identity into a new tree, or comes upon a fault. -/
theorem ends_build (h : e.Path path id) (deep : e.length < path.length + depth) :
    Ends (e.build values depth path id) s
      (fun k s' => ∃ u, e.Unfolds values id u ∧ s'.Owned (some k) u ∧ s.Turns .nil s' u)
      fun f _ => ∃ x, e.Reaches id x ∧ e.Fault x f := by
  induction depth generalizing s id path with
  | zero =>
    have short := h.length_le
    omega
  | succ depth ih =>
    rw [build]
    cases found : e.record? id with
    | none => exact ⟨id, .refl, .unknown found⟩
    | some r =>
      dsimp only
      by_cases again : id ∈ path
      · rw [List.contains_iff_mem.mpr again, if_pos rfl]
        exact ⟨id, .refl, .cycle (h.below id again)⟩
      have new : path.contains id = false := by simpa using again
      rw [new, if_neg Bool.false_ne_true]
      -- What is come upon below a child is come upon from here.
      have below {s : Store} (side : Side) (there : r.child side ≠ Record.absent) :
          Ends (e.build values depth (id :: path) (r.child side)) s
            (fun k s' => ∃ u, e.Unfolds values (r.child side) u ∧ s'.Owned (some k) u ∧
              s.Turns .nil s' u)
            fun f _ => ∃ x, e.Reaches id x ∧ e.Fault x f := by
        have names : e.Names id (r.child side) := ⟨there, r, side, found, rfl⟩
        refine (ih (h.cons found again names) (by rw [List.length_cons]; omega)).imp
          (fun _ _ h => h) ?_
        rintro f s' ⟨x, reaches, fault⟩
        exact ⟨x, .head names reaches, fault⟩
      rw [Ends.bind_iff]
      refine (ends_child (below .left)).imp ?_ fun _ _ h => h
      rintro _ s₁ ⟨left, isLeft, ownedLeft, turnsLeft⟩
      rw [Ends.bind_iff]
      refine (ends_child (below .right)).imp ?_ fun _ _ h => h
      rintro _ s₂ ⟨right, isRight, ownedRight, turnsRight⟩
      obtain ⟨turnsLeft', turnsRight'⟩ := turnsLeft.nil_trans turnsRight
      cases isIndex : Record.toIndex? id with
      | none => exact ⟨id, .refl, .index (toIndex?_eq_none.mp isIndex)⟩
      | some index =>
        refine Store.ends_append_new (turnsRight.keeps_old ownedLeft) ownedRight turnsLeft'
          turnsRight' (turnsRight.apart_of_new ownedLeft.spans)
          fun k s' owned turns _ => ⟨_, ?_, owned, turns⟩
        cases ownedLeft.spans.id?_eq
        cases ownedRight.spans.id?_eq
        exact .of_children found isIndex isLeft isRight k

/-- New trees of the identities, with no node in common. -/
structure Built (e : Encoding) (values : Array Value) (s : Store) (ids : List Int)
    (roots : List NodeId) (s' : Store) : Prop where
  turns : s.Turns .nil s' .nil
  trees : List.Forall₂ (fun id k => s'.Owned (some k) (s'.tree k) ∧ e.Unfolds values id (s'.tree k))
    ids roots
  nodup : (roots.flatMap fun k => (s'.tree k).preorder).Nodup
  new : ∀ k ∈ roots, ∀ i ∈ (s'.tree k).preorder, s.size ≤ i

theorem ends_builds (e : Encoding) (values : Array Value) (ids : List Int) (s : Store) :
    Ends (ids.mapM (e.build values (e.length + 1) [])) s (e.Built values s ids)
      fun f _ => ∃ id ∈ ids, ∃ x, e.Reaches id x ∧ e.Fault x f := by
  induction ids generalizing s with
  | nil => exact ⟨.refl s .nil, .nil, .nil, fun _ mem => absurd mem List.not_mem_nil⟩
  | cons id ids ih =>
    rw [List.mapM_cons, Ends.bind_iff]
    refine (ends_build (.nil e id) (by simp)).imp ?_ ?_
    · rintro k s₁ ⟨u, unfolds, owned, turns⟩
      rw [Ends.bind_iff]
      refine (ih s₁).imp ?_ ?_
      · rintro roots s₂ built
        have kept := built.turns.keeps_old owned
        have isTree := kept.tree_eq
        refine ⟨(turns.nil_trans built.turns).2, .cons ?_ built.trees, ?_, ?_⟩
        · rw [isTree]
          exact ⟨kept, unfolds⟩
        · rw [List.flatMap_cons, List.nodup_append, isTree]
          refine ⟨owned.nodup, built.nodup, ?_⟩
          rintro i mem j mem' rfl
          obtain ⟨k', isRoot, inside⟩ := List.mem_flatMap.mp mem'
          exact absurd (owned.spans.lt_size i mem) (Nat.not_lt.mpr (built.new k' isRoot i inside))
        · rw [List.forall_mem_cons, isTree]
          refine ⟨fun i mem => (turns.within i mem).resolve_left List.not_mem_nil, ?_⟩
          exact fun k' isRoot i mem => Nat.le_trans turns.grows (built.new k' isRoot i mem)
      · rintro f s₂ ⟨id', mem, fault⟩
        exact ⟨id', List.mem_cons_of_mem id mem, fault⟩
    · rintro f s₁ fault
      exact ⟨id, List.mem_cons_self, fault⟩

end Encoding

end SecureArith
