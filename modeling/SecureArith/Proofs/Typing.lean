import SecureArith.Expr.Typing
import SecureArith.Proofs.Graft

set_option autoImplicit false

/-!
# Finding types

The type of a tree, and the tree in which the types that were looked for are kept. `Store.realize`
follows the rules of `Realizes` and `Untypeable`. In a tree of its own it finds exactly that, and it
changes nothing but kept types, also when it fails.
-/

namespace SecureArith

namespace Tree

variable {c : Classifier} {force : Bool}

/-- The type of a tree. Types that are kept in it count unless `force` is set. -/
def type? (c : Classifier) (force : Bool) : Tree → Option TypeName
  | .nil | .missing _ => none
  | .node _ label child =>
    (if force then none else label.memo).or <|
      if childless child then label.type?
      else if (child .left).isNil then (child .right).type? c force
      else if (child .right).isNil then (child .left).type? c force
      else ((child .left).type? c force).bind fun left =>
        ((child .right).type? c force).map (c.combine left)

/-- The tree after its type was looked for. -/
def typed (c : Classifier) (force : Bool) : Tree → Tree
  | .nil => .nil
  | .missing id => .missing id
  | .node id label child =>
    if !force && label.memo.isSome then .node id label child
    else .node id { label with memo := (Tree.node id label child).type? c force }
      fun side => (child side).typed c force

/-- The tree without the types that are kept in it. -/
def untyped : Tree → Tree
  | .nil => .nil
  | .missing id => .missing id
  | .node id label child => .node id { label with memo := none } fun side => (child side).untyped

theorem type?_eq_combine? (id : NodeId) {label : Label} {l r : Tree}
    (forgotten : (if force then none else label.memo) = none)
    (left : l.isNil = false → (l.type? c force).isSome)
    (right : r.isNil = false → (r.type? c force).isSome) :
    (Tree.node id label (pair l r)).type? c force =
      (c.combine? (l.type? c force) (r.type? c force)).or label.type? := by
  rw [type?, forgotten, Option.none_or]
  by_cases noLeft : l.isNil = true
  · cases eq_nil_of_isNil noLeft
    by_cases noRight : r.isNil = true
    · cases eq_nil_of_isNil noRight
      rfl
    · obtain ⟨b, hb⟩ := Option.isSome_iff_exists.mp (right (Bool.eq_false_iff.mpr noRight))
      simp [childless, noRight, hb, type?, Classifier.combine?]
  · obtain ⟨a, ha⟩ := Option.isSome_iff_exists.mp (left (Bool.eq_false_iff.mpr noLeft))
    by_cases noRight : r.isNil = true
    · cases eq_nil_of_isNil noRight
      simp [childless, noLeft, ha, type?, Classifier.combine?]
    · obtain ⟨b, hb⟩ := Option.isSome_iff_exists.mp (right (Bool.eq_false_iff.mpr noRight))
      simp [childless, noLeft, noRight, ha, hb, Classifier.combine?]

theorem type?_eq_none {id : NodeId} {label : Label} {l r : Tree}
    (forgotten : (if force then none else label.memo) = none)
    (untypeable : (l.isNil = false ∧ l.type? c force = none) ∨
      (r.isNil = false ∧ r.type? c force = none)) :
    (Tree.node id label (pair l r)).type? c force = none := by
  rw [type?, forgotten, Option.none_or]
  rcases untypeable with ⟨there, absent⟩ | ⟨there, absent⟩
  · by_cases noRight : r.isNil = true <;> simp [childless, there, absent, noRight]
  · by_cases noLeft : l.isNil = true <;> simp [childless, there, absent, noLeft]

/-- Below a kept type nothing is looked for. -/
theorem typed_of_memo (id : NodeId) {label : Label} (child : Side → Tree) {type : TypeName}
    (kept : (if force then none else label.memo) = some type) :
    (Tree.node id label child).typed c force = .node id label child := by
  rw [typed, if_pos]
  cases force with
  | true => cases kept
  | false => exact Option.isSome_of_eq_some kept

theorem typed_pair {id : NodeId} {label : Label} {l r : Tree} {type : TypeName}
    (forgotten : (if force then none else label.memo) = none)
    (found : (Tree.node id label (pair l r)).type? c force = some type) :
    (Tree.node id label (pair l r)).typed c force =
      .node id { label with memo := some type } (pair (l.typed c force) (r.typed c force)) := by
  have unknown : ¬ (!force && label.memo.isSome) = true := by
    cases force <;> simp_all
  rw [typed, if_neg unknown, found]
  congr 1
  funext side
  cases side <;> rfl

@[simp] theorem isNil_untyped (t : Tree) : t.untyped.isNil = t.isNil := by
  cases t <;> rfl

@[simp] theorem id?_untyped (t : Tree) : t.untyped.id? = t.id? := by
  cases t <;> rfl

@[simp] theorem untyped_typed (t : Tree) : (t.typed c force).untyped = t.untyped := by
  induction t with
  | nil | missing => rfl
  | node id label child ih =>
    simp only [typed]
    split <;> simp [untyped, ih]

@[simp] theorem preorder_untyped (t : Tree) : t.untyped.preorder = t.preorder := by
  induction t with
  | nil | missing => rfl
  | node id label child ih => simp [untyped, preorder, ih]

theorem untyped_node {child child' : Side → Tree}
    (left : (child' .left).untyped = (child .left).untyped)
    (right : (child' .right).untyped = (child .right).untyped) (id : NodeId) (label : Label) :
    (Tree.node id label child').untyped = (Tree.node id label child).untyped := by
  simp only [untyped]
  congr 1
  funext side
  cases side with
  | left => exact left
  | right => exact right

theorem bare_untyped (t : Tree) : t.untyped.bare = t.bare := by
  induction t with
  | nil | missing => rfl
  | node id label child ih =>
    simp only [untyped, bare, ih]
    rw [childless_congr fun side => isNil_untyped (child side)]

theorem bare_eq_of_untyped {t u : Tree} (h : u.untyped = t.untyped) : u.bare = t.bare := by
  rw [← bare_untyped, h, bare_untyped]

theorem bare_typed (t : Tree) : (t.typed c force).bare = t.bare :=
  bare_eq_of_untyped (untyped_typed t)

end Tree

namespace Store

variable {s s' : Store} {c : Classifier} {force : Bool} {id : Nat} {p : Option NodeId} {t : Tree}

/-- The tree kept its nodes, and nothing but kept types has changed. -/
def Retyped (s : Store) (p : Option NodeId) (t : Tree) (s' : Store) : Prop :=
  ∃ u, s'.Owned p u ∧ s.Turns t s' u ∧ u.untyped = t.untyped

/-- The store without the types that are kept in it. -/
def untyped (s : Store) : Store := ⟨s.nodes.map fun n => { n with memo := none }⟩

theorem get?_untyped (s : Store) (i : NodeId) :
    s.untyped.get? i = (s.get? i).map fun n => { n with memo := none } := by
  simp [untyped, get?]

theorem ext_get? (h : ∀ i : Nat, s'.get? i = s.get? i) : s' = s := by
  obtain ⟨nodes⟩ := s
  obtain ⟨nodes'⟩ := s'
  exact congrArg Store.mk (Array.ext_getElem? h)

def withMemo (s : Store) (id : NodeId) (memo : Option TypeName) : Store :=
  s.update id fun n => { n with memo }

theorem untyped_withMemo (s : Store) (i : NodeId) (memo : Option TypeName) :
    (s.withMemo i memo).untyped = s.untyped := by
  refine ext_get? fun j => ?_
  rw [get?_untyped, get?_untyped, withMemo, get?_update]
  split
  · rw [Option.map_map]
    rfl
  · rfl

theorem Spans.untyped (h : s.Spans p t) : s.untyped.Spans p t.untyped := by
  induction h with
  | nil => exact .nil
  | @node id n child found children ih =>
    exact .node (n := { n with memo := none }) (by rw [get?_untyped, found]; rfl) ih

/-- The type of what may stand in a place was found and is kept there. -/
inductive Realizes (c : Classifier) (force : Bool) :
    Store → Option NodeId → Option TypeName → Store → Prop
  | none (s : Store) : Realizes c force s none none s
  | kept {s : Store} {id : NodeId} {n : Node} {type : TypeName} (isNode : s.get? id = some n)
      (memo : (if force then Option.none else n.memo) = some type) :
      Realizes c force s (some id) (some type) s
  | found {s s₁ s₂ : Store} {id : NodeId} {n : Node} {left right : Option TypeName}
      {type : TypeName} (isNode : s.get? id = some n)
      (forgotten : (if force then Option.none else n.memo) = Option.none)
      (first : Realizes c force s n.left left s₁) (second : Realizes c force s₁ n.right right s₂)
      (isType : (c.combine? left right).or n.type? = some type) :
      Realizes c force s (some id) (some type) (s₂.withMemo id (some type))

/-- The type of a node was not found, there or below it on the left or on the right. -/
inductive Untypeable (c : Classifier) (force : Bool) : Store → Option NodeId → Store → Prop
  | left {s s₁ : Store} {id : NodeId} {n : Node} (isNode : s.get? id = some n)
      (forgotten : (if force then none else n.memo) = none)
      (fails : Untypeable c force s n.left s₁) : Untypeable c force s (some id) s₁
  | right {s s₁ s₂ : Store} {id : NodeId} {n : Node} {left : Option TypeName}
      (isNode : s.get? id = some n) (forgotten : (if force then none else n.memo) = none)
      (first : Realizes c force s n.left left s₁) (fails : Untypeable c force s₁ n.right s₂) :
      Untypeable c force s (some id) s₂
  | here {s s₁ s₂ : Store} {id : NodeId} {n : Node} {left right : Option TypeName}
      (isNode : s.get? id = some n) (forgotten : (if force then none else n.memo) = none)
      (first : Realizes c force s n.left left s₁) (second : Realizes c force s₁ n.right right s₂)
      (absent : (c.combine? left right).or n.type? = none) : Untypeable c force s (some id) s₂

theorem Realizes.untyped_eq {type : Option TypeName} (h : Realizes c force s p type s') :
    s'.untyped = s.untyped := by
  induction h with
  | none | kept => rfl
  | found _ _ _ _ _ ihLeft ihRight => rw [untyped_withMemo, ihRight, ihLeft]

theorem Spans.exists_typed {f : Store} (h : f.Spans (some id) t) (same : s.untyped = f) :
    ∃ n, s.get? id = some n := by
  cases h with
  | node found =>
    rw [← same, get?_untyped] at found
    obtain ⟨n, isNode, -⟩ := Option.map_eq_some_iff.mp found
    exact ⟨n, isNode⟩

theorem Spans.exists_children {f : Store} {n : Node} (h : f.Spans (some id) t)
    (same : s.untyped = f) (isNode : s.get? id = some n) :
    ∃ label child, t = .node id label child ∧ f.Spans (some id) (.node id label child) ∧
      (∀ side, f.Spans (n.child side) (child side)) ∧ label.type? = n.type? := by
  cases h with
  | @node _ m child found children =>
    have whole : f.Spans (some id) (.node id m.toLabel child) := .node found children
    rw [← same, get?_untyped, isNode] at found
    cases found
    exact ⟨_, child, rfl, whole, children, rfl⟩

/-- The trees of a store have types or not, whatever types it keeps. -/
theorem ends_realize {depth : Nat} {f : Store} (h : f.Spans (some id) t) (deep : t.height ≤ depth)
    (same : s.untyped = f) :
    Ends (realize c force depth id) s
      (fun type s' => Realizes c force s (some id) (some type) s')
      fun e s' => e.kind = .type ∧ Untypeable c force s (some id) s' := by
  induction depth generalizing s id t with
  | zero =>
    cases h
    simp [Tree.height] at deep
  | succ depth ih =>
    have place {s : Store} {p : Option NodeId} {t : Tree} (h : f.Spans p t)
        (deep : t.height ≤ depth) (same : s.untyped = f) :
        Ends (p.mapM (realize c force depth)) s (fun type s' => Realizes c force s p type s')
          fun e s' => e.kind = .type ∧ Untypeable c force s p s' := by
      cases p with
      | none => exact .none s
      | some id =>
        rw [Option.mapM_some, Ends.map_iff]
        exact ih h deep same
    obtain ⟨n, isNode⟩ := h.exists_typed same
    obtain ⟨label, child, rfl, -, children, -⟩ := h.exists_children same isNode
    simp only [Tree.height] at deep
    rw [realize, Ends.bind_iff]
    refine ends_read isNode ?_
    cases memo : (if force then none else n.memo) with
    | some type => exact .kept isNode memo
    | none =>
      rw [Ends.bind_iff]
      refine (place (children .left) (by omega) same).imp ?_ fun _ _ fails =>
        ⟨fails.1, .left isNode memo fails.2⟩
      intro left s₁ first
      rw [Ends.bind_iff]
      refine (place (children .right) (by omega) (first.untyped_eq.trans same)).imp ?_
        fun _ _ fails => ⟨fails.1, .right isNode memo first fails.2⟩
      intro right s₂ second
      cases isType : (c.combine? left right).or n.type? with
      | none => exact ⟨rfl, .here isNode memo first second isType⟩
      | some type =>
        obtain ⟨_, there⟩ := h.exists_typed (second.untyped_eq.trans (first.untyped_eq.trans same))
        rw [Ends.bind_iff]
        exact ends_write (lt_size_of_get? there) (.found isNode memo first second isType)

theorem ends_typeAt_realizes (h : s.Spans (some id) t) :
    Ends (typeAt c force id) s
      (fun type s' => Realizes c force s (some id) (some type) s')
      fun e s' => e.kind = .type ∧ Untypeable c force s (some id) s' := by
  have deep : t.untyped.height ≤ s.size := by simpa [untyped, size] using h.untyped.height_le
  rw [typeAt, Ends.bind_iff, Ends.get_iff]
  exact ends_realize h.untyped deep rfl

theorem Realizes.owned {type : Option TypeName} (h : Realizes c force s p type s')
    (owned : s.Owned p t) :
    type = t.type? c force ∧ (t.isNil = false → type.isSome) ∧ s'.Owned p (t.typed c force) ∧
      s.Turns t s' (t.typed c force) := by
  induction h generalizing t with
  | none s =>
    cases owned.spans
    exact ⟨rfl, by simp, owned_nil s, .refl s .nil⟩
  | kept isNode memo =>
    obtain ⟨n, l, r, rfl, split⟩ := owned.split
    cases isNode.symm.trans split.found
    rw [Tree.typed_of_memo _ (Tree.pair l r) memo]
    refine ⟨?_, fun _ => rfl, owned, .refl _ _⟩
    simp only [Tree.type?, memo, Option.some_or]
  | @found s s₁ s₂ id n left right type isNode forgotten _ _ isType ihLeft ihRight =>
    obtain ⟨n, l, r, rfl, split⟩ := owned.split
    cases isNode.symm.trans split.found
    obtain ⟨rfl, leftKnown, leftOwned, leftTurns⟩ := ihLeft split.left
    obtain ⟨split₁, turns₁⟩ := split.turn .left leftTurns leftOwned rfl
    obtain ⟨rfl, rightKnown, rightOwned, rightTurns⟩ := ihRight split₁.right
    obtain ⟨split₂, turns₂⟩ := split₁.turn .right rightTurns rightOwned rfl
    have found := (Tree.type?_eq_combine? id forgotten leftKnown rightKnown).trans isType
    obtain ⟨split₃, turns₃⟩ := split₂.update (f := fun n => { n with memo := some type }) rfl rfl
    rw [Tree.typed_pair forgotten found]
    exact ⟨found.symm, fun _ => rfl, split₃.owned, (turns₁.trans turns₂).trans turns₃⟩

theorem Untypeable.owned (h : Untypeable c force s p s') (owned : s.Owned p t) :
    t.isNil = false ∧ t.type? c force = none ∧ s.Retyped p t s' := by
  induction h generalizing t with
  | @left s s₁ id n isNode forgotten _ ih =>
    obtain ⟨n, l, r, rfl, split⟩ := owned.split
    cases isNode.symm.trans split.found
    obtain ⟨there, absent, l', leftOwned, leftTurns, same⟩ := ih split.left
    obtain ⟨split₁, turns₁⟩ := split.turn .left leftTurns leftOwned rfl
    refine ⟨rfl, Tree.type?_eq_none forgotten (.inl ⟨there, absent⟩), _, split₁.owned, turns₁, ?_⟩
    exact Tree.untyped_node same (Eq.refl r.untyped) id n.toLabel
  | @right s s₁ s₂ id n left isNode forgotten first _ ih =>
    obtain ⟨n, l, r, rfl, split⟩ := owned.split
    cases isNode.symm.trans split.found
    obtain ⟨-, -, leftOwned, leftTurns⟩ := first.owned split.left
    obtain ⟨split₁, turns₁⟩ := split.turn .left leftTurns leftOwned rfl
    obtain ⟨there, absent, r', rightOwned, rightTurns, same⟩ := ih split₁.right
    obtain ⟨split₂, turns₂⟩ := split₁.turn .right rightTurns rightOwned rfl
    refine ⟨rfl, Tree.type?_eq_none forgotten (.inr ⟨there, absent⟩), _, split₂.owned,
      turns₁.trans turns₂, ?_⟩
    exact Tree.untyped_node (Tree.untyped_typed l) same id n.toLabel
  | @here s s₁ s₂ id n left right isNode forgotten first second absent =>
    obtain ⟨n, l, r, rfl, split⟩ := owned.split
    cases isNode.symm.trans split.found
    obtain ⟨rfl, leftKnown, leftOwned, leftTurns⟩ := first.owned split.left
    obtain ⟨split₁, turns₁⟩ := split.turn .left leftTurns leftOwned rfl
    obtain ⟨rfl, rightKnown, rightOwned, rightTurns⟩ := second.owned split₁.right
    obtain ⟨split₂, turns₂⟩ := split₁.turn .right rightTurns rightOwned rfl
    refine ⟨rfl, (Tree.type?_eq_combine? id forgotten leftKnown rightKnown).trans absent, _,
      split₂.owned, turns₁.trans turns₂, ?_⟩
    exact Tree.untyped_node (Tree.untyped_typed l) (Tree.untyped_typed r) id n.toLabel

theorem ends_typeAt (h : s.Owned (some id) t) :
    Ends (typeAt c force id) s
      (fun type s' => t.type? c force = some type ∧ s'.Owned (some id) (t.typed c force) ∧
        s.Turns t s' (t.typed c force))
      fun e s' => t.type? c force = none ∧ e.kind = .type ∧ s.Retyped (some id) t s' := by
  apply (ends_typeAt_realizes h.spans).imp
  · intro type s' realizes
    obtain ⟨found, -, owned, turns⟩ := realizes.owned h
    exact ⟨found.symm, owned, turns⟩
  · rintro e s' ⟨kind, fails⟩
    obtain ⟨-, absent, retyped⟩ := fails.owned h
    exact ⟨absent, kind, retyped⟩

end Store

end SecureArith
