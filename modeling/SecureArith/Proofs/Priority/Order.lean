import SecureArith.Proofs.Priority.Exchange

set_option autoImplicit false

/-!
# Secure operands last

A tree is in order when no secure operation has a cheap operand beside an operation of the same
operator with exactly one secure operand, as far as secure operations reach down from the root. A
swap lifts the secure operand of such an operation. Types that are found on the way are kept, which
changes the type of no tree. Each swap leaves one operation less that is secure or has a secure
operand, whatever types the tree kept before.
-/

namespace SecureArith

theorem Classifier.combine_eq (c : Classifier) (left right : TypeName) :
    c.combine left right = left ∨ c.combine left right = right := by
  unfold combine
  split
  · exact .inl rfl
  split
  · exact .inr rfl
  split
  · exact .inl rfl
  split
  · exact .inr rfl
  · exact .inl rfl

def Label.KeepsSecure (c : Classifier) (l : Label) : Prop := l.memo.map c.secure = some true

namespace Tree

variable {c : Classifier} {op : Operator} {t u v x y x' y' : Tree} {id k : NodeId}
  {label : Label} {side : Side}

/-- Whether the value of a tree is costly to combine, if the tree has a type. -/
def secure? (c : Classifier) (t : Tree) : Option Bool := (t.type? c false).map c.secure

theorem isNil_of_secure? {secure : Bool} (h : t.secure? c = some secure) : t.isNil = false := by
  cases t with
  | nil => cases h
  | missing | node => rfl

theorem isNil_of_type? {force : Bool} {type : TypeName} (h : t.type? c force = some type) :
    t.isNil = false := by
  cases t with
  | nil => cases h
  | missing | node => rfl

theorem secure?_of_keepsSecure {child : Side → Tree} (kept : label.KeepsSecure c) :
    (Tree.node id label child).secure? c = some true := by
  obtain ⟨type, memo, secure⟩ := Option.map_eq_some_iff.mp kept
  simp [secure?, type?, memo, secure]

theorem secure?_place (forgotten : label.memo = none) (hx : x.secure? c = some false)
    (hy : y.secure? c = some false) :
    (Tree.node id label (place side x y)).secure? c = some false := by
  obtain ⟨type, isX, cheapX⟩ := Option.map_eq_some_iff.mp hx
  obtain ⟨type', isY, cheapY⟩ := Option.map_eq_some_iff.mp hy
  have combined (l r : TypeName) (hl : c.secure l = false) (hr : c.secure r = false) :
      c.secure (c.combine l r) = false := by
    rcases c.combine_eq l r with eq | eq <;> rw [eq] <;> assumption
  have thereX := isNil_of_type? isX
  have thereY := isNil_of_type? isY
  cases side with
  | left => simp [secure?, place, type?, forgotten, childless, thereX, thereY, isX, isY, combined,
      cheapX, cheapY]
  | right => simp [secure?, place, type?, forgotten, childless, thereX, thereY, isX, isY, combined,
      cheapX, cheapY]

/-- Every node has a type, be it kept or found. -/
def typeable (c : Classifier) : Tree → Bool
  | .nil => true
  | .missing _ => false
  | .node id label child => ((Tree.node id label child).type? c false).isSome &&
      (child .left).typeable c && (child .right).typeable c

theorem typeable_place : (Tree.node id label (place side x y)).typeable c =
    (((Tree.node id label (place side x y)).type? c false).isSome && x.typeable c &&
      y.typeable c) := by
  cases side with
  | left => rfl
  | right => exact Bool.and_right_comm _ _ _

/-- Some of the types that a tree has are kept in it besides. -/
inductive Learns (c : Classifier) : Tree → Tree → Prop
  | nil : Learns c .nil .nil
  | missing (id : NodeId) : Learns c (.missing id) (.missing id)
  | node {id : NodeId} {label : Label} {child child' : Side → Tree} {memo : Option TypeName}
      (kept : memo = label.memo ∨ memo = (Tree.node id label child).type? c false)
      (children : ∀ side, Learns c (child side) (child' side)) :
      Learns c (.node id label child) (.node id { label with memo } child')

namespace Learns

theorem refl (c : Classifier) (t : Tree) : t.Learns c t := by
  induction t with
  | nil => exact .nil
  | missing id => exact .missing id
  | node id label child ih => exact .node (.inl rfl) ih

theorem isNil_eq (h : t.Learns c u) : u.isNil = t.isNil := by
  cases h <;> rfl

theorem id?_eq (h : t.Learns c u) : u.id? = t.id? := by
  cases h <;> rfl

theorem untyped_eq (h : t.Learns c u) : u.untyped = t.untyped := by
  induction h with
  | nil | missing => rfl
  | node _ _ ih => exact congrArg (Tree.node _ _) (funext ih)

theorem height_eq (h : t.Learns c u) : u.height = t.height := by
  induction h with
  | nil | missing => rfl
  | node _ _ ih => simp only [height, ih]

theorem childless_eq {child child' : Side → Tree}
    (h : ∀ side, (child side).Learns c (child' side)) : childless child' = childless child :=
  childless_congr fun side => (h side).isNil_eq

theorem type?_eq (h : t.Learns c u) : u.type? c false = t.type? c false := by
  induction h with
  | nil | missing => rfl
  | @node id label child child' memo kept children ih =>
    have below : (Tree.node id { label with memo } child').type? c false =
        memo.or ((Tree.node id { label with memo := none } child).type? c false) := by
      simp only [type?, Bool.false_eq_true, if_false, Option.none_or, ih, childless_eq children,
        (children _).isNil_eq]
      rfl
    have before : (Tree.node id label child).type? c false =
        label.memo.or ((Tree.node id { label with memo := none } child).type? c false) := rfl
    rw [below, before]
    rcases kept with rfl | rfl
    · rfl
    · rw [before, Option.or_assoc, Option.or_self]

theorem secure?_eq (h : t.Learns c u) : u.secure? c = t.secure? c := by
  rw [secure?, secure?, h.type?_eq]

theorem typeable_eq (h : t.Learns c u) : u.typeable c = t.typeable c := by
  induction h with
  | nil | missing => rfl
  | @node id label child child' memo kept children ih =>
    have whole : (Tree.node id label child).Learns c (.node id { label with memo } child') :=
      .node kept children
    simp only [typeable, whole.type?_eq, ih]

theorem trans (h : t.Learns c u) (h' : u.Learns c v) : t.Learns c v := by
  induction h generalizing v with
  | nil | missing =>
    cases h'
    constructor
  | @node id label child child' memo kept children ih =>
    have whole : (Tree.node id label child).Learns c (.node id { label with memo } child') :=
      .node kept children
    cases h' with
    | node kept' children' =>
      refine .node ?_ fun side => ih side (children' side)
      rcases kept' with rfl | rfl
      · exact kept
      · exact .inr whole.type?_eq

theorem typed (c : Classifier) (t : Tree) : t.Learns c (t.typed c false) := by
  induction t with
  | nil => exact .nil
  | missing id => exact .missing id
  | node id label child ih =>
    rw [Tree.typed]
    split
    · exact .refl c _
    · exact .node (.inr rfl) ih

theorem exists_typed {child : Side → Tree}
    (secure : (Tree.node id label child).secure? c = some true) :
    ∃ label' child', (Tree.node id label child).typed c false = .node id label' child' ∧
      label'.op = label.op ∧ label'.KeepsSecure c := by
  rw [Tree.typed]
  split
  · rename_i known
    refine ⟨label, child, rfl, rfl, ?_⟩
    obtain ⟨type, memo⟩ := Option.isSome_iff_exists.mp (Bool.and_eq_true_iff.mp known).2
    rw [secure?, type?, memo] at secure
    rw [Label.KeepsSecure, memo]
    exact secure
  · exact ⟨_, _, rfl, rfl, secure⟩

theorem place (hx : x.Learns c x') (hy : y.Learns c y') (id : NodeId) (label : Label)
    (side : Side) :
    (Tree.node id label (place side x y)).Learns c (.node id label (Tree.place side x' y')) := by
  refine .node (.inl rfl) fun side' => ?_
  cases side <;> cases side' <;> assumption

theorem exists_node {child : Side → Tree} (h : (Tree.node id label child).Learns c u) :
    ∃ memo child', u = .node id { label with memo } child' ∧
      (∀ side, (child side).Learns c (child' side)) ∧
      (label.KeepsSecure c → memo.map c.secure = some true) := by
  cases h with
  | @node _ _ _ child' memo kept children =>
    refine ⟨memo, child', rfl, children, fun secure => ?_⟩
    rcases kept with rfl | rfl
    · exact secure
    · exact secure?_of_keepsSecure secure

end Learns

/-- The only secure operand of the operation `k` is exchanged with a cheap one of the operation
above it, which is secure as are all others above. -/
inductive Lifts (c : Classifier) (op : Operator) (k : NodeId) : Tree → Tree → Prop
  | here {root : NodeId} {label label' : Label} {side side' : Side} {a o s : Tree}
      (upper : label.op = some op) (lower : label'.op = some op) (kept : label.KeepsSecure c)
      (secure : a.secure? c = some true) (cheap : o.secure? c = some false)
      (sibling : s.secure? c = some false) :
      Lifts c op k (.node root label (place side (.node k label' (place side' a o)) s))
        (.node root label (place side (.node k { label' with memo := none } (place side' s o)) a))
  | child {id : NodeId} {label : Label} {side : Side} {x x' y : Tree}
      (kept : label.KeepsSecure c) (h : Lifts c op k x x') :
      Lifts c op k (.node id label (place side x y)) (.node id label (place side x' y))

theorem Lifts.isNil_eq (h : t.Lifts c op k u) : t.isNil = false ∧ u.isNil = false := by
  cases h <;> exact ⟨rfl, rfl⟩

theorem Lifts.exchanged (h : t.Lifts c op k u) : t.untyped.Exchanged op u.untyped := by
  induction h with
  | here upper lower _ secure cheap sibling =>
    rw [untyped_place, untyped_place, untyped_place, untyped_place]
    refine .here upper lower ?_ ?_ ?_
    · rw [isNil_untyped, isNil_of_secure? secure]
    · rw [isNil_untyped, isNil_of_secure? cheap]
    · rw [isNil_untyped, isNil_of_secure? sibling]
  | @child id label side x x' y _ _ ih =>
    rw [untyped_place, untyped_place]
    cases side with
    | left => exact .left _ _ _ ih
    | right => exact .right _ _ _ ih

/-- A secure operand of the operation `k` is lifted, and types are kept before and after that. -/
def SwappedAt (c : Classifier) (k : NodeId) (t u : Tree) : Prop :=
  ∃ (op : Operator) (t₁ t₂ : Tree), op.commutes = true ∧ t.Learns c t₁ ∧ t₁.Lifts c op k t₂ ∧
    t₂.Learns c u

def Swapped (c : Classifier) (t u : Tree) : Prop := ∃ k, t.SwappedAt c k u

theorem Learns.swapped (h : t.Learns c u) (h' : u.Swapped c v) : t.Swapped c v := by
  obtain ⟨k, op, t₁, t₂, commutes, before, lifts, after⟩ := h'
  exact ⟨k, op, t₁, t₂, commutes, h.trans before, lifts, after⟩

theorem Swapped.below (kept : label.KeepsSecure c) (h : x.Swapped c x') :
    (Tree.node id label (place side x y)).Swapped c (.node id label (place side x' y)) := by
  obtain ⟨k, op, t₁, t₂, commutes, before, lifts, after⟩ := h
  exact ⟨k, op, _, _, commutes, before.place (.refl c y) id label side, .child kept lifts,
    after.place (.refl c y) id label side⟩

theorem Swapped.reordered (h : t.Swapped c u) : t.Reordered u := by
  obtain ⟨k, op, t₁, t₂, commutes, before, lifts, after⟩ := h
  refine ⟨op, commutes, ?_⟩
  rw [← before.untyped_eq, after.untyped_eq]
  exact lifts.exchanged

/-- No operand of an operation is exchanged with the operation's sibling, which is secure or there
is not exactly one secure operand; the types that decide this are there. -/
def Steady (c : Classifier) (op : Operator) (s : Tree) : Tree → Prop
  | .node _ label child => label.op = some op → s.isNil = false →
      s.secure? c = some true ∨ s.secure? c = some false ∧
        ((child .left).isNil = false → (child .right).isNil = false →
          ∃ secure, (child .left).secure? c = some secure ∧ (child .right).secure? c = some secure)
  | _ => True

/-- Two operands beside a cheap sibling are steady where both are secure or both are cheap. -/
theorem steady_pair_iff (isOp : label.op = some op) (cheap : y.secure? c = some false)
    (ht : t.isNil = false) (hu : u.isNil = false) :
    Steady c op y (.node k label (pair t u)) ↔
      ∃ secure, t.secure? c = some secure ∧ u.secure? c = some secure := by
  simp [Steady, isOp, cheap, isNil_of_secure? cheap, ht, hu]

theorem steady_of_isNil (cheap : y.secure? c = some false)
    (single : t.isNil = true ∨ u.isNil = true) : Steady c op y (.node k label (pair t u)) := by
  refine fun _ _ => .inr ⟨cheap, fun left right => ?_⟩
  rcases single with nil | nil
  · exact absurd (nil.symm.trans left) Bool.true_eq_false.mp
  · exact absurd (nil.symm.trans right) Bool.true_eq_false.mp

/-- No operand of a child is exchanged with the child's sibling. -/
def SteadyBelow (c : Classifier) (label : Label) (child : Side → Tree) : Prop :=
  ∀ op, label.op = some op → op.commutes = true →
    ∀ side, Steady c op (child side.flip) (child side)

/-- No swap is possible, and all types that are looked at to find that out are there. -/
def InOrder (c : Classifier) : Tree → Prop
  | .node id label child =>
    childless child = true ∨ (Tree.node id label child).secure? c = some false ∨
      (Tree.node id label child).secure? c = some true ∧ SteadyBelow c label child ∧
        ∀ side, (child side).InOrder c
  | _ => True

theorem Learns.steady_iff (op : Operator) (hx : x.Learns c x') (hy : y.Learns c y') :
    Steady c op y' x' ↔ Steady c op y x := by
  cases hx with
  | nil | missing => exact Iff.rfl
  | node kept children =>
    simp only [Steady, hy.isNil_eq, hy.secure?_eq, (children _).isNil_eq, (children _).secure?_eq]

theorem Learns.inOrder_iff (h : t.Learns c u) : u.InOrder c ↔ t.InOrder c := by
  induction h with
  | nil | missing => exact Iff.rfl
  | @node id label child child' memo kept children ih =>
    have whole : (Tree.node id label child).Learns c (.node id { label with memo } child') :=
      .node kept children
    simp only [InOrder, SteadyBelow, whole.secure?_eq, childless_eq children, ih,
      fun op side => steady_iff op (children side) (children (Side.flip side))]

/-- An operation that is secure or has a secure operand. -/
def costs (c : Classifier) : Tree → Bool
  | .node id label child => label.op.isSome && !childless child &&
      ((Tree.node id label child).secure? c == some true || (child .left).secure? c == some true ||
        (child .right).secure? c == some true)
  | _ => false

def costly (c : Classifier) : Tree → Nat
  | .nil | .missing _ => 0
  | .node id label child => (if (Tree.node id label child).costs c then 1 else 0) +
      (child .left).costly c + (child .right).costly c

def operations : Tree → Nat
  | .nil | .missing _ => 0
  | .node _ label child => (if label.op.isSome && !childless child then 1 else 0) +
      (child .left).operations + (child .right).operations

theorem costly_le_operations (c : Classifier) (t : Tree) : t.costly c ≤ t.operations := by
  induction t with
  | nil | missing => exact Nat.le_refl _
  | node id label child ih =>
    have left := ih .left
    have right := ih .right
    have head : (if (Tree.node id label child).costs c then 1 else 0) ≤
        if label.op.isSome && !childless child then 1 else 0 := by
      by_cases operation : (label.op.isSome && !childless child) = true
      · rw [if_pos operation]
        split <;> omega
      · rw [costs, Bool.eq_false_iff.mpr operation, Bool.false_and]
    simp only [costly, operations]
    omega

theorem operations_le_size (t : Tree) : t.operations ≤ t.size := by
  induction t with
  | nil | missing => exact Nat.zero_le _
  | node id label child ih =>
    have left := ih .left
    have right := ih .right
    simp only [operations, size]
    split <;> omega

theorem Learns.costly_eq (h : t.Learns c u) : u.costly c = t.costly c := by
  induction h with
  | nil | missing => rfl
  | @node id label child child' memo kept children ih =>
    have whole : (Tree.node id label child).Learns c (.node id { label with memo } child') :=
      .node kept children
    have same : (Tree.node id { label with memo } child').costs c =
        (Tree.node id label child).costs c := by
      simp only [costs, whole.secure?_eq, childless_eq children, (children _).secure?_eq]
    rw [costly, costly, same, ih, ih]

theorem costly_place (id : NodeId) (label : Label) (side : Side) (x y : Tree) :
    (Tree.node id label (place side x y)).costly c =
      (if (Tree.node id label (place side x y)).costs c then 1 else 0) + x.costly c +
        y.costly c := by
  rw [costly]
  cases side with
  | left => rfl
  | right => exact Nat.add_right_comm _ _ _

theorem costs_place (id : NodeId) (label : Label) (side : Side) (there : x.isNil = false) :
    (Tree.node id label (place side x y)).costs c =
      (label.op.isSome && ((Tree.node id label (place side x y)).secure? c == some true ||
        x.secure? c == some true || y.secure? c == some true)) := by
  rw [costs, childless_place there, Bool.not_false, Bool.and_true]
  cases side with
  | left => rfl
  | right => exact congrArg (_ && ·) (Bool.or_right_comm _ _ _)

/-- The operation below is neither secure nor has it a secure operand any more. -/
theorem Lifts.costly_eq (h : t.Lifts c op k u) : u.costly c + 1 = t.costly c := by
  induction h with
  | @here root label label' side side' a o s upper lower kept secure cheap sibling =>
    have above {x y : Tree} (there : x.isNil = false) :
        (Tree.node root label (place side x y)).costs c = true := by
      rw [costs_place root label side there, upper, secure?_of_keepsSecure kept]
      rfl
    have before : (Tree.node k label' (place side' a o)).costs c = true := by
      rw [costs_place k label' side' (isNil_of_secure? secure), lower, secure]
      simp
    have after : (Tree.node k { label' with memo := none } (place side' s o)).costs c = false := by
      rw [costs_place k _ side' (isNil_of_secure? sibling), secure?_place rfl sibling cheap,
        sibling, cheap]
      exact Bool.and_false _
    rw [costly_place, costly_place, costly_place, costly_place, above rfl, above rfl, before, after,
      if_pos rfl, if_neg Bool.false_ne_true]
    omega
  | @child id label side x x' y kept h ih =>
    have same : (Tree.node id label (place side x' y)).costs c =
        (Tree.node id label (place side x y)).costs c := by
      rw [costs_place id label side h.isNil_eq.2, costs_place id label side h.isNil_eq.1,
        secure?_of_keepsSecure kept, secure?_of_keepsSecure kept]
      rfl
    rw [costly_place, costly_place, same]
    omega

theorem Swapped.costly_eq (h : t.Swapped c u) : u.costly c + 1 = t.costly c := by
  obtain ⟨k, op, t₁, t₂, -, before, lifts, after⟩ := h
  rw [after.costly_eq, lifts.costly_eq, before.costly_eq]

end Tree

end SecureArith
