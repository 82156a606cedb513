import Mathlib.Data.List.Perm.Subperm
import SecureArith.Expr.Tree

set_option autoImplicit false

/-!
# Trees in a store

`Spans` relates an index to the finite tree that is found there, and `Owned` says besides that no
node occurs in the tree twice. `Turns` relates the tree before a change to the tree after it: the
change keeps to the nodes of the tree and to new nodes.
-/

namespace SecureArith

def Side.flip : Side → Side
  | .left => .right
  | .right => .left

@[simp] theorem Side.flip_flip (side : Side) : side.flip.flip = side := by
  cases side <;> rfl

theorem Side.eq_or_flip (side other : Side) : other = side ∨ other = side.flip := by
  cases side <;> cases other <;> decide

theorem Side.ne_flip (side : Side) : side ≠ side.flip := by
  cases side <;> decide

namespace Tree

def pair (left right : Tree) : Side → Tree
  | .left => left
  | .right => right

@[simp] theorem pair_left (l r : Tree) : pair l r .left = l := rfl

@[simp] theorem pair_right (l r : Tree) : pair l r .right = r := rfl

@[simp] theorem pair_eta (child : Side → Tree) : pair (child .left) (child .right) = child := by
  funext side
  cases side <;> rfl

theorem mem_preorder_node (side : Side) {id i : NodeId} {label : Label} {child : Side → Tree} :
    i ∈ (Tree.node id label child).preorder ↔
      i = id ∨ i ∈ (child side).preorder ∨ i ∈ (child side.flip).preorder := by
  cases side with
  | left => simp [preorder, Side.flip]
  | right => simp [preorder, Side.flip, or_comm]

def height : Tree → Nat
  | .nil => 0
  | .missing _ => 1
  | .node _ _ child => max (child .left).height (child .right).height + 1

theorem height_le_size (t : Tree) : t.height ≤ t.size := by
  induction t with
  | nil | missing => simp [height, size]
  | node _ _ child ih =>
    have left := ih .left
    have right := ih .right
    simp only [height, size]
    omega

end Tree

theorem Node.mem_children {n : Node} {a : NodeId} (mem : a ∈ n.children) :
    ∃ side, n.child side = some a := by
  rcases List.mem_append.mp mem with mem | mem
  · exact ⟨.left, Option.mem_toList.mp mem⟩
  · exact ⟨.right, Option.mem_toList.mp mem⟩

namespace Store

variable {s s' s'' : Store} {id : Nat} {p : Option NodeId} {n : Node} {t u l r l' r' : Tree}

theorem lt_size_of_get? (found : s.get? id = some n) : id < s.size :=
  (Array.getElem?_eq_some_iff.mp found).1

/-- The tree of a place: nothing where there is no index, else the node with the trees of its
children. -/
inductive Spans (s : Store) : Option NodeId → Tree → Prop
  | nil : Spans s none .nil
  | node {id : NodeId} {n : Node} {child : Side → Tree} (found : s.get? id = some n)
      (children : ∀ side, Spans s (n.child side) (child side)) :
      Spans s (some id) (.node id n.toLabel child)

theorem Spans.id?_eq (h : s.Spans p t) : t.id? = p := by
  cases h <;> rfl

theorem Spans.isNil_eq (h : s.Spans p t) : t.isNil = p.isNone := by
  cases h <;> rfl

theorem Spans.exists_id (h : s.Spans p t) (there : t.isNil = false) : ∃ id, p = some id := by
  cases h with
  | nil => cases there
  | node => exact ⟨_, rfl⟩

theorem Spans.complete (h : s.Spans p t) : t.complete := by
  induction h with
  | nil => rfl
  | node _ _ ih => simp [Tree.complete, ih]

theorem Spans.lt_size (h : s.Spans p t) : ∀ i : Nat, i ∈ t.preorder → i < s.size := by
  induction h with
  | nil => simp [Tree.preorder]
  | node found _ ih =>
    intro i mem
    simp only [Tree.preorder, List.mem_cons, List.mem_append] at mem
    rcases mem with rfl | mem | mem
    · exact lt_size_of_get? found
    · exact ih .left i mem
    · exact ih .right i mem

/-- The tree depends on its own nodes only. -/
theorem Spans.congr (h : s.Spans p t) (same : ∀ i ∈ t.preorder, s'.get? i = s.get? i) :
    s'.Spans p t := by
  induction h with
  | nil => exact .nil
  | node found _ ih =>
    simp only [Tree.preorder, List.mem_cons, List.mem_append] at same
    refine .node ((same _ (.inl rfl)).trans found) fun side => ih side fun i mem => ?_
    cases side with
    | left => exact same i (.inr (.inl mem))
    | right => exact same i (.inr (.inr mem))

theorem Spans.unique (h : s.Spans p t) : ∀ {u}, s.Spans p u → t = u := by
  induction h with
  | nil =>
    intro u hu
    cases hu
    rfl
  | node found _ ih =>
    intro u hu
    cases hu with
    | node found' children =>
      cases Option.some.inj (found.symm.trans found')
      congr 1
      funext side
      exact ih side (children side)

theorem Spans.unfold_eq (h : s.Spans (some id) t) {depth : Nat} (deep : t.height ≤ depth) :
    s.unfold depth id = t := by
  induction depth generalizing id t with
  | zero =>
    cases h
    simp [Tree.height] at deep
  | succ depth ih =>
    cases h with
    | @node _ n child found children =>
      simp only [Tree.height] at deep
      simp only [unfold, found]
      congr 1
      funext side
      have bound : (child side).height ≤ depth := by
        cases side <;> omega
      have below := children side
      generalize child side = c at below bound
      cases place : n.child side with
      | none =>
        rw [place] at below
        cases below
        rfl
      | some c =>
        rw [place] at below
        exact ih below bound

/-- Unfolding finds the tree when nothing is missing. -/
theorem spans_unfold {depth : Nat} (whole : (s.unfold depth id).complete = true) :
    s.Spans (some id) (s.unfold depth id) := by
  induction depth generalizing id with
  | zero => cases whole
  | succ depth ih =>
    cases found : s.get? id with
    | none => simp [unfold, found, Tree.complete] at whole
    | some n =>
      simp only [unfold, found, Tree.complete, Bool.and_eq_true] at whole ⊢
      refine .node found fun side => ?_
      have below : (((n.child side).map (s.unfold depth)).getD .nil).complete = true := by
        cases side with
        | left => exact whole.1
        | right => exact whole.2
      cases place : n.child side with
      | none => exact .nil
      | some c =>
        rw [place] at below
        exact ih below

/-- A tree in which no node occurs twice. -/
structure Owned (s : Store) (p : Option NodeId) (t : Tree) : Prop where
  spans : s.Spans p t
  nodup : t.preorder.Nodup

theorem owned_nil (s : Store) : s.Owned none .nil := ⟨.nil, List.nodup_nil⟩

theorem Owned.congr (h : s.Owned p t) (same : ∀ i ∈ t.preorder, s'.get? i = s.get? i) :
    s'.Owned p t :=
  ⟨h.spans.congr same, h.nodup⟩

theorem Owned.size_le (h : s.Owned p t) : t.size ≤ s.size := by
  have within : t.preorder ⊆ List.range s.size := fun i mem =>
    List.mem_range.mpr (h.spans.lt_size i mem)
  have bound := (h.nodup.subperm within).length_le
  rwa [Tree.length_preorder, List.length_range] at bound

theorem Owned.height_le (h : s.Owned p t) : t.height ≤ s.size :=
  Nat.le_trans t.height_le_size h.size_le

theorem Owned.tree_eq (h : s.Owned (some id) t) : s.tree id = t :=
  h.spans.unfold_eq h.height_le

theorem owned_tree (whole : (s.tree id).complete = true) (nodup : (s.tree id).preorder.Nodup) :
    s.Owned (some id) (s.tree id) :=
  ⟨spans_unfold whole, nodup⟩

/-- A node above two trees that have nothing in common. -/
structure Split (s : Store) (id : NodeId) (n : Node) (l r : Tree) : Prop where
  found : s.get? id = some n
  children : ∀ side, s.Owned (n.child side) (Tree.pair l r side)
  above : ∀ side, id ∉ (Tree.pair l r side).preorder
  apart : ∀ side, ∀ i ∈ (Tree.pair l r side).preorder, i ∉ (Tree.pair l r side.flip).preorder

theorem Split.left (h : s.Split id n l r) : s.Owned n.left l := h.children .left

theorem Split.right (h : s.Split id n l r) : s.Owned n.right r := h.children .right

theorem Split.owned (h : s.Split id n l r) :
    s.Owned (some id) (.node id n.toLabel (Tree.pair l r)) := by
  refine ⟨.node h.found fun side => (h.children side).spans, ?_⟩
  simp only [Tree.preorder, List.nodup_cons, List.mem_append, not_or]
  exact ⟨⟨h.above .left, h.above .right⟩,
    List.nodup_append.mpr ⟨h.left.nodup, h.right.nodup, fun a ha b hb => by
      rintro rfl
      exact h.apart .left a ha hb⟩⟩

theorem Owned.split (h : s.Owned (some id) t) :
    ∃ n l r, t = .node id n.toLabel (Tree.pair l r) ∧ s.Split id n l r := by
  obtain ⟨spans, nodup⟩ := h
  cases spans with
  | @node _ n child found children =>
    simp only [Tree.preorder, List.nodup_cons, List.mem_append, not_or] at nodup
    obtain ⟨⟨notLeft, notRight⟩, below⟩ := nodup
    obtain ⟨left, right, apart⟩ := List.nodup_append.mp below
    refine ⟨n, child .left, child .right, by rw [Tree.pair_eta], found, ?_, ?_, ?_⟩
    all_goals
      rintro (_ | _)
    · exact ⟨children .left, left⟩
    · exact ⟨children .right, right⟩
    · exact notLeft
    · exact notRight
    · exact fun i hl hr => apart i hl i hr rfl
    · exact fun i hr hl => apart i hl i hr rfl

/-- A change of a tree keeps to the nodes of the tree and to new nodes. -/
structure Turns (s : Store) (t : Tree) (s' : Store) (u : Tree) : Prop where
  grows : s.size ≤ s'.size
  frame : ∀ i : Nat, i < s.size → i ∉ t.preorder → s'.get? i = s.get? i
  within : ∀ i : Nat, i ∈ u.preorder → i ∈ t.preorder ∨ s.size ≤ i

theorem Turns.refl (s : Store) (t : Tree) : s.Turns t s t :=
  ⟨Nat.le_refl _, fun _ _ _ => rfl, fun _ mem => .inl mem⟩

theorem Turns.trans {v : Tree} (h : s.Turns t s' u) (h' : s'.Turns u s'' v) : s.Turns t s'' v := by
  refine ⟨Nat.le_trans h.grows h'.grows, fun i lt other => ?_, fun i mem => ?_⟩
  · have notIn : i ∉ u.preorder := fun mem => by
      rcases h.within i mem with old | new
      · exact other old
      · omega
    rw [h'.frame i (Nat.lt_of_lt_of_le lt h.grows) notIn, h.frame i lt other]
  · rcases h'.within i mem with old | new
    · exact h.within i old
    · exact .inr (Nat.le_trans h.grows new)

theorem Turns.keeps_spans (h : s.Turns t s' u) (other : s.Spans p l)
    (apart : ∀ i ∈ l.preorder, i ∉ t.preorder) : s'.Spans p l :=
  other.congr fun i mem => h.frame i (other.lt_size i mem) (apart i mem)

theorem Turns.keeps (h : s.Turns t s' u) (other : s.Owned p l)
    (apart : ∀ i ∈ l.preorder, i ∉ t.preorder) : s'.Owned p l :=
  ⟨h.keeps_spans other.spans apart, other.nodup⟩

/-- A change of the tree on one side. -/
theorem Split.turn (h : s.Split id n l r) (side : Side)
    (turn : s.Turns (Tree.pair l r side) s' (Tree.pair l' r' side))
    (owned : s'.Owned (n.child side) (Tree.pair l' r' side))
    (kept : Tree.pair l' r' side.flip = Tree.pair l r side.flip) :
    s'.Split id n l' r' ∧
      s.Turns (.node id n.toLabel (Tree.pair l r)) s' (.node id n.toLabel (Tree.pair l' r')) := by
  have both {P : Side → Prop} (here : P side) (there : P side.flip) (other : Side) : P other := by
    rcases Side.eq_or_flip side other with rfl | rfl
    · exact here
    · exact there
  have rootLt := lt_size_of_get? h.found
  have fresh (i : Nat) (lt : i < s.size) (mem : i ∈ (Tree.pair l' r' side).preorder) :
      i ∈ (Tree.pair l r side).preorder := (turn.within i mem).resolve_right (Nat.not_le.mpr lt)
  refine ⟨⟨?_, both owned ?_, both ?_ ?_, both ?_ ?_⟩, turn.grows, ?_, ?_⟩
  · rw [turn.frame id rootLt (h.above side), h.found]
  · rw [kept]
    refine turn.keeps (h.children side.flip) fun i mem => ?_
    simpa using h.apart side.flip i mem
  · exact fun mem => h.above side (fresh id rootLt mem)
  · rw [kept]
    exact h.above side.flip
  · intro i mem mem'
    rw [kept] at mem'
    have lt := (h.children side.flip).spans.lt_size i mem'
    exact h.apart side i (fresh i lt mem) mem'
  · intro i mem mem'
    rw [kept] at mem
    rw [Side.flip_flip] at mem'
    have lt := (h.children side.flip).spans.lt_size i mem
    exact h.apart side i (fresh i lt mem') mem
  · intro i lt other
    rw [Tree.mem_preorder_node side, not_or, not_or] at other
    exact turn.frame i lt other.2.1
  · intro i mem
    rw [Tree.mem_preorder_node side] at mem ⊢
    rcases mem with root | inside | beside
    · exact .inl (.inl root)
    · exact (turn.within i inside).imp_left fun old => .inr (.inl old)
    · exact .inl (.inr (.inr (kept ▸ beside)))

theorem Split.update (h : s.Split id n l r) {f : Node → Node} (left : (f n).left = n.left)
    (right : (f n).right = n.right) :
    (s.update id f).Split id (f n) l r ∧
      s.Turns (.node id n.toLabel (Tree.pair l r)) (s.update id f)
        (.node id (f n).toLabel (Tree.pair l r)) := by
  have keep {i : Nat} (ne : i ≠ id) : (s.update id f).get? i = s.get? i := by
    rw [get?_update, if_neg ne.symm]
  have child : ∀ side, (f n).child side = n.child side := by
    rintro (_ | _)
    · exact left
    · exact right
  refine ⟨⟨?_, fun side => ?_, h.above, h.apart⟩, ⟨by simp, ?_, fun i mem => .inl mem⟩⟩
  · simp [h.found]
  · rw [child side]
    exact (h.children side).congr fun i mem => keep fun eq => h.above side (eq ▸ mem)
  · intro i _ other
    exact keep fun eq => other (eq ▸ List.mem_cons_self)

end Store

end SecureArith
