import SecureArith.Forest.Basic
import SecureArith.Proofs.Graft

set_option autoImplicit false

/-!
# Expanding variables

Expanding a tree puts copies of the trees of variables in the place of their reads, once: copies are
not looked into again. `Tree.Inlines` says what has become of each node. Where every tree computes
what its variable holds, the expanded tree computes what it did before.
-/

namespace SecureArith

namespace Label

def var? (l : Label) : Option VarId :=
  match l.atom? with
  | some (.var v) => some v
  | _ => none

end Label

theorem Node.var?_eq_of_isLeaf {n : Node} (leaf : n.isLeaf = true) :
    n.var? = n.toLabel.var? := by
  cases atom : n.atom? with
  | none => simp [Node.var?, Node.leafAtom?, leaf, Label.var?, atom]
  | some a => cases a <;> simp [Node.var?, Node.leafAtom?, leaf, Label.var?, atom]

namespace Tree

def marked : Tree → Tree
  | .node id label child => .node id { label with expanded := true } child
  | t => t

/-- The tree with the trees of variables in the place of their reads, as far as it is not expanded
already. -/
def expandWith (trees : VarId → Option Tree) : Tree → Tree
  | .nil => .nil
  | .missing id => .missing id
  | .node id label child =>
    if label.expanded then .node id label child
    else if childless child then
      ((label.var?.bind trees).elim (.node id label child) (withId id)).marked
    else (Tree.node id label fun side => (child side).expandWith trees).marked

@[simp] theorem bare_marked (t : Tree) : t.marked.bare = t.bare := by
  cases t <;> rfl

@[simp] theorem isNil_marked (t : Tree) : t.marked.isNil = t.isNil := by
  cases t <;> rfl

theorem anonymous_marked {t u : Tree} (h : t.anonymous = u.anonymous) :
    t.marked.anonymous = u.marked.anonymous := by
  cases t <;> cases u <;> simp_all [anonymous, marked]

@[simp] theorem preorder_marked (t : Tree) : t.marked.preorder = t.preorder := by
  cases t <;> rfl

/-- A tree before and after its variables are replaced: what is expanded already stays, a read of a
variable with a tree becomes a copy of that with new indices below the root, and any other node is
marked. New indices are those from a number on. -/
inductive Inlines (trees : VarId → Option Tree) (start : Nat) : Tree → Tree → Prop
  | nil : Inlines trees start .nil .nil
  | done {id : NodeId} {label : Label} {child : Side → Tree} (done : label.expanded = true) :
      Inlines trees start (.node id label child) (.node id label child)
  | copied {id : NodeId} {label : Label} {child : Side → Tree} {v : VarId} {w u : Tree}
      (todo : label.expanded = false) (leaf : childless child = true) (read : label.var? = some v)
      (tree : trees v = some w) (alike : u.anonymous = w.anonymous)
      (new : ∀ i : Nat, i ∈ u.preorder → start ≤ i) :
      Inlines trees start (.node id label child) (u.withId id).marked
  | passed {id : NodeId} {label : Label} {child child' : Side → Tree}
      (todo : label.expanded = false)
      (unread : childless child = true → label.var?.bind trees = none)
      (below : ∀ side, Inlines trees start (child side) (child' side)) :
      Inlines trees start (.node id label child) (Tree.node id label child').marked

namespace Inlines

variable {trees : VarId → Option Tree} {start start' : Nat} {t u : Tree}

theorem mono (h : Inlines trees start t u) (le : start' ≤ start) : Inlines trees start' t u := by
  induction h with
  | nil => exact .nil
  | done done => exact .done done
  | copied todo leaf read tree alike new =>
    exact .copied todo leaf read tree alike fun i mem => Nat.le_trans le (new i mem)
  | passed todo unread _ ih => exact .passed todo unread ih

theorem unread {id : NodeId} {label : Label} {child : Side → Tree} (todo : label.expanded = false)
    (leaf : childless child = true) (unread : label.var?.bind trees = none) :
    Inlines trees start (.node id label child) (Tree.node id label child).marked := by
  refine .passed todo (fun _ => unread) fun side => ?_
  rw [children_of_childless leaf]
  exact .nil

theorem anonymous_eq (h : Inlines trees start t u) :
    u.anonymous = (t.expandWith trees).anonymous := by
  induction h with
  | nil => rfl
  | done done => rw [expandWith, if_pos done]
  | copied todo leaf read tree alike _ =>
    rw [expandWith, if_neg (Bool.eq_false_iff.mp todo), if_pos leaf, read, Option.bind_some, tree]
    refine anonymous_marked ?_
    simpa using alike
  | @passed id label child child' todo unread below ih =>
    rw [expandWith, if_neg (Bool.eq_false_iff.mp todo)]
    split
    · rename_i leaf
      rw [unread leaf]
      have none (side : Side) : child' side = child side := by
        have here := below side
        rw [children_of_childless leaf] at here ⊢
        generalize child' side = c at here ⊢
        cases here
        rfl
      rw [Option.elim_none, funext none]
    · exact anonymous_marked (anonymous_node (ih .left) (ih .right) id id label)

end Inlines

end Tree

namespace Store

variable {s s' : Store} {id : Nat} {n : Node} {p : Option NodeId} {t u l r : Tree}
  {roots : List (TreeKey × NodeId)} {trees : VarId → Option Tree}

/-- The registered trees of variables are in the store and have no node in common with `t`. -/
def Registered (s : Store) (roots : List (TreeKey × NodeId)) (trees : VarId → Option Tree)
    (t : Tree) : Prop :=
  ∀ v, match roots.lookup (.var v) with
    | none => trees v = none
    | some root => ∃ u, trees v = some u ∧ s.Spans (some root) u ∧
        ∀ i ∈ u.preorder, i ∉ t.preorder

theorem Registered.mono (h : s.Registered roots trees t)
    (sub : ∀ i ∈ u.preorder, i ∈ t.preorder) : s.Registered roots trees u := by
  intro v
  have := h v
  split at this
  · exact this
  · obtain ⟨w, found, spans, apart⟩ := this
    exact ⟨w, found, spans, fun i mem memU => apart i mem (sub i memU)⟩

theorem Registered.turn (h : s.Registered roots trees t) (turn : s.Turns t s' u) :
    s'.Registered roots trees u := by
  intro v
  have := h v
  split at this
  · exact this
  · obtain ⟨w, found, spans, apart⟩ := this
    refine ⟨w, found, turn.keeps_spans spans apart, fun i mem memU => ?_⟩
    rcases turn.within i memU with old | new
    · exact apart i mem old
    · exact absurd (spans.lt_size i mem) (Nat.not_lt.mpr new)

/-- A leaf is replaced by a copy of the tree of its variable, if there is one. It is marked then. -/
theorem ends_substitute (split : s.Split id n l r) (leaf : n.isLeaf = true)
    (todo : n.expanded = false)
    (registered : s.Registered roots trees (.node id n.toLabel (Tree.pair l r))) :
    Ends (substitute roots id n) s
      (fun _ s' => ∃ u, s'.Owned (some id) u ∧
        s.Turns (.node id n.toLabel (Tree.pair l r)) s' u ∧
        Tree.Inlines trees s.size (.node id n.toLabel (Tree.pair l r)) u.marked)
      fun _ _ => False := by
  have childless := split.childless_eq.trans leaf
  have unchanged (unread : n.toLabel.var?.bind trees = none) : ∃ u, s.Owned (some id) u ∧
      s.Turns (.node id n.toLabel (Tree.pair l r)) s u ∧
      Tree.Inlines trees s.size (.node id n.toLabel (Tree.pair l r)) u.marked :=
    ⟨_, split.owned, .refl _ _, .unread todo childless unread⟩
  rw [substitute, Node.var?_eq_of_isLeaf leaf]
  cases var : n.toLabel.var? with
  | none =>
    refine unchanged ?_
    rw [var]
    rfl
  | some v =>
    have tree := registered v
    simp only [Option.bind_some]
    cases found : roots.lookup (.var v) with
    | none =>
      simp only [found] at tree
      refine unchanged ?_
      rw [var]
      exact tree
    | some root =>
      simp only [found] at tree
      obtain ⟨w, tree, spans, apart⟩ := tree
      rw [Ends.bind_iff]
      refine spans.ends_copy.imp ?_ fun _ _ h => h
      rintro c s₁ ⟨u, copied⟩
      obtain ⟨m, ul, ur, rfl, splitCopy⟩ := copied.owned.split
      have idLt := lt_size_of_get? split.found
      have new (i : Nat) (mem : i ∈ (Tree.node c m.toLabel (Tree.pair ul ur)).preorder) :
          s.size ≤ i := (copied.turns.within i mem).resolve_left List.not_mem_nil
      have other : id ∉ (Tree.node c m.toLabel (Tree.pair ul ur)).preorder := fun mem => by
        have := new id mem
        omega
      have there : s₁.get? id = some n :=
        (copied.turns.frame id idLt List.not_mem_nil).trans split.found
      have ne : id ≠ c := fun eq => other (eq ▸ List.mem_cons_self)
      refine (ends_overwrite splitCopy.found there ne).imp ?_ fun _ _ h => h
      rintro _ s₂ rfl
      exact ⟨_, copied.owned.overwrite splitCopy.found (lt_size_of_get? there) other,
        (copied.turns.mono fun _ mem => absurd mem List.not_mem_nil).overwrite List.mem_cons_self _,
        .copied todo childless var tree copied.alike new⟩

/-- What the leaf or the children of a node have become is marked in the end. -/
theorem ends_mark {s' : Store} {u : Tree} {start : Nat} (owned : s'.Owned (some id) u)
    (turns : s.Turns t s' u) (inlines : t.Inlines trees start u.marked) :
    Ends (write id fun n => { n with expanded := true }) s'
      (fun _ s' => ∃ u, s'.Owned (some id) u ∧ s.Turns t s' u ∧ t.Inlines trees start u)
      fun _ _ => False := by
  obtain ⟨m, l, r, rfl, split⟩ := owned.split
  obtain ⟨split', turns'⟩ := split.update (f := fun n => { n with expanded := true }) rfl rfl
  exact ends_write (lt_size_of_get? split.found) ⟨_, split'.owned, turns.trans turns', inlines⟩

theorem ends_expandTo {depth : Nat} (h : s.Owned (some id) t) (deep : t.height ≤ depth)
    (registered : s.Registered roots trees t) :
    Ends (expandTo roots depth id) s
      (fun _ s' => ∃ u, s'.Owned (some id) u ∧ s.Turns t s' u ∧ t.Inlines trees s.size u)
      fun _ _ => False := by
  induction depth generalizing s id t with
  | zero =>
    obtain ⟨n, l, r, rfl, -⟩ := h.split
    simp [Tree.height] at deep
  | succ depth ih =>
    obtain ⟨n, l, r, rfl, split⟩ := h.split
    simp only [Tree.height, Tree.pair_left, Tree.pair_right] at deep
    rw [expandTo, Ends.bind_iff]
    refine ends_read split.found ?_
    rw [Ends.ite_iff]
    refine ⟨fun done => ⟨_, h, .refl _ _, .done done⟩, fun todo => ?_⟩
    have todo : n.expanded = false := Bool.eq_false_iff.mpr todo
    dsimp only
    rw [Ends.ite_iff, Ends.bind_iff, Ends.bind_iff]
    refine ⟨fun leaf => ?_, fun inner => ?_⟩
    · refine (ends_substitute split leaf todo registered).imp ?_ fun _ _ h => h
      rintro _ s₁ ⟨u, owned, turns, inlines⟩
      exact ends_mark owned turns inlines
    · have place {s : Store} {p : Option NodeId} {t : Tree} (h : s.Owned p t)
          (deep : t.height ≤ depth) (registered : s.Registered roots trees t) :
          Ends (p.toList.forM (expandTo roots depth)) s
            (fun _ s' => ∃ u, s'.Owned p u ∧ s.Turns t s' u ∧ t.Inlines trees s.size u)
            fun _ _ => False := by
        cases p with
        | none =>
          cases h.spans
          exact ⟨.nil, h, .refl _ _, .nil⟩
        | some id =>
          rw [Option.toList_some, List.forM_eq_forM, List.forM_cons, Ends.bind_iff]
          exact ih h deep registered
      rw [Node.children, List.forM_eq_forM, List.forM_append, Ends.bind_iff]
      have regLeft : s.Registered roots trees l := registered.mono fun i mem => by
        simp [Tree.preorder, mem]
      refine (place split.left (by omega) regLeft).imp ?_ fun _ _ h => h
      rintro _ s₁ ⟨l', leftOwned, leftTurns, left⟩
      obtain ⟨split₁, turns₁⟩ := split.turn .left leftTurns leftOwned rfl
      have regRight : s₁.Registered roots trees r :=
        (registered.turn turns₁).mono fun i mem => by simp [Tree.preorder, mem]
      refine (place split₁.right (by omega) regRight).imp ?_ fun _ _ h => h
      rintro _ s₂ ⟨r', rightOwned, rightTurns, right⟩
      obtain ⟨split₂, turns₂⟩ := split₁.turn .right rightTurns rightOwned rfl
      refine ends_mark split₂.owned (turns₁.trans turns₂)
        (.passed todo (fun leaf => ?_) fun side => ?_)
      · exact absurd (split.childless_eq.symm.trans leaf) inner
      · cases side with
        | left => exact left
        | right => exact right.mono leftTurns.grows

theorem ends_expand_inlines (h : s.Owned (some id) t) (registered : s.Registered roots trees t) :
    Ends (expand roots id) s
      (fun _ s' => ∃ u, s'.Owned (some id) u ∧ s.Turns t s' u ∧ t.Inlines trees s.size u)
      fun _ _ => False := by
  rw [expand, Ends.bind_iff, Ends.get_iff]
  exact ends_expandTo h h.height_le registered

theorem ends_expand (h : s.Owned (some id) t) (registered : s.Registered roots trees t) :
    Ends (expand roots id) s
      (fun _ s' => ∃ u, s'.Owned (some id) u ∧ s.Turns t s' u ∧
        u.anonymous = (t.expandWith trees).anonymous)
      fun _ _ => False := by
  refine (ends_expand_inlines h registered).imp ?_ fun _ _ h => h
  rintro _ s' ⟨u, owned, turns, inlines⟩
  exact ⟨u, owned, turns, inlines.anonymous_eq⟩

end Store

universe u

variable {R : Type u} {I : Interpretation R} {env : Env R} {other : Option ValueId → R}

theorem Label.eval_of_var? {l : Label} {v : VarId} (h : l.var? = some v) :
    l.eval I env other = env v := by
  simp only [var?, atom?] at h
  cases origin : l.origin with
  | none => simp [origin] at h
  | some o =>
    obtain ⟨_, _, atom⟩ := o
    cases atom <;> simp_all [eval]

namespace Tree

variable {trees : VarId → Option Tree}

theorem isNil_expandWith (present : ∀ v u, trees v = some u → u.isNil = false) (t : Tree) :
    (t.expandWith trees).isNil = t.isNil := by
  cases t with
  | nil | missing => rfl
  | node id label child =>
    rw [expandWith]
    split
    · rfl
    · split
      · rw [isNil_marked]
        cases tree : label.var?.bind trees with
        | none => rfl
        | some u =>
          obtain ⟨v, -, found⟩ := Option.bind_eq_some_iff.mp tree
          simp [present v u found]
      · rfl

/-- Expanding by trees that compute what their variables hold changes no meaning. -/
theorem eval_expandWith (present : ∀ v u, trees v = some u → u.isNil = false)
    (coherent : ∀ v u, trees v = some u → u.eval I env other = env v) (t : Tree) :
    (t.expandWith trees).eval I env other = t.eval I env other := by
  induction t with
  | nil | missing => rfl
  | node id label child ih =>
    rw [expandWith]
    split
    · rfl
    · split
      · rename_i leaf
        rw [eval_eq_of_bare (bare_marked _)]
        cases tree : label.var?.bind trees with
        | none => rfl
        | some u =>
          obtain ⟨v, read, found⟩ := Option.bind_eq_some_iff.mp tree
          rw [eval_leaf leaf, Label.eval_of_var? read, ← coherent v u found]
          exact eval_eq_of_bare (bare_withId _ _)
      · rw [eval_eq_of_bare (bare_marked _)]
        have same := fun side => isNil_expandWith present (child side)
        simp only [eval, ih]
        rw [childless_congr same, present_congr same]

theorem proper_expandWith (present : ∀ v u, trees v = some u → u.isNil = false)
    (good : ∀ v u, trees v = some u → u.proper = true) {t : Tree} (h : t.proper = true) :
    (t.expandWith trees).proper = true := by
  induction t with
  | nil | missing => rfl
  | node id label child ih =>
    rw [expandWith]
    split
    · exact h
    · split
      · rw [proper_eq_of_bare (bare_marked _)]
        cases tree : label.var?.bind trees with
        | none => exact h
        | some u =>
          obtain ⟨v, -, found⟩ := Option.bind_eq_some_iff.mp tree
          rw [← good v u found]
          exact proper_eq_of_bare (bare_withId _ _)
      · rw [proper_eq_of_bare (bare_marked _)]
        exact proper_congr h (fun side => isNil_expandWith present (child side)) fun side => ih side

theorem mem_leaves_expandWith (present : ∀ v u, trees v = some u → u.isNil = false) {t : Tree}
    {o : Option Origin} (h : o ∈ (t.expandWith trees).leaves) :
    o ∈ t.leaves ∨ ∃ v u, trees v = some u ∧ o ∈ u.leaves := by
  induction t with
  | nil | missing => exact .inl h
  | node id label child ih =>
    rw [expandWith] at h
    split at h
    · exact .inl h
    · split at h
      · rw [leaves_eq_of_bare (bare_marked _)] at h
        cases tree : label.var?.bind trees with
        | none =>
          rw [tree] at h
          exact .inl h
        | some u =>
          obtain ⟨v, -, found⟩ := Option.bind_eq_some_iff.mp tree
          rw [tree] at h
          exact .inr ⟨v, u, found, leaves_eq_of_bare (bare_withId id u) ▸ h⟩
      · rename_i inner
        have inner := Bool.eq_false_iff.mpr inner
        rw [leaves_eq_of_bare (bare_marked _), leaves_node ((childless_congr fun side =>
          isNil_expandWith present (child side)).trans inner), List.mem_append] at h
        rw [leaves_node inner, List.mem_append]
        rcases h with h | h
        · exact (ih .left h).imp_left .inl
        · exact (ih .right h).imp_left .inr

end Tree

end SecureArith
