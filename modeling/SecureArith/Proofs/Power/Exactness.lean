import SecureArith.Proofs.Power
import SecureArith.Proofs.Tally

set_option autoImplicit false

/-!
# When powers are expanded, and into what

Expanding visits a tree from its root, below a power only its base. It fails where it visits a power
that has no base or whose exponent is not a small positive constant. A tree it expands has no power
left, has a product for every further copy of a base, and computes what its powers stand for.
-/

namespace SecureArith

universe u v

variable {R : Type u}

namespace Tree

variable {t u : Tree} {id : NodeId} {label : Label} {child : Side → Tree}

def isPower : Tree → Bool
  | .nil | .missing _ => false
  | .node _ label child => label.isOp .pow && !childless child

def IsConstant (k : Int) : Tree → Prop
  | .nil | .missing _ => False
  | .node _ label child => childless child = true ∧ label.atom? = some (.int k)

/-- A base, and an exponent that is a constant from one to 1024. -/
def Expandable : Tree → Prop
  | .nil | .missing _ => False
  | .node _ _ child =>
    (child .left).isNil = false ∧ ∃ k : Int, 1 ≤ k ∧ k ≤ 1024 ∧ (child .right).IsConstant k

/-- One tree is reached from another through the bases of powers and through the children of all
other nodes. -/
inductive Visited (u : Tree) : Tree → Prop
  | root : Visited u u
  | child {id : NodeId} {label : Label} {child : Side → Tree} (side : Side)
      (other : label.isOp .pow = false) (h : Visited u (child side)) :
      Visited u (.node id label child)
  | base {id : NodeId} {label : Label} {child : Side → Tree} (power : label.isOp .pow = true)
      (h : Visited u (child .left)) : Visited u (.node id label child)

/-- How often a power that is expanded multiplies its base. -/
def multiplicity? (label : Label) (child : Side → Tree) : Option Nat :=
  if label.isOp .pow && !(child .left).isNil then (child .right).exponent? else none

/-- What a tree computes where a power is the product of that many copies of its base, whatever
calls of powers stand for. -/
def value [Monoid R] (I : Interpretation R) (env : Env R) (other : Option ValueId → R) : Tree → R
  | .nil | .missing _ => other none
  | .node _ label child =>
    if childless child then label.eval I env other
    else (multiplicity? label child).elim
      (I.call label.opName
        (present child ((child .left).value I env other) ((child .right).value I env other)))
      ((child .left).value I env other ^ ·)

/-- The products of a tree, with those that its powers stand for. -/
def expandedProducts : Tree → Nat
  | .nil | .missing _ => 0
  | .node _ label child =>
    (multiplicity? label child).elim
      ((child .left).expandedProducts + (child .right).expandedProducts +
        if label.isOp .mul then 1 else 0)
      fun k => k * (child .left).expandedProducts + (k - 1)

theorem multiplicity?_power {l r : Tree} (power : label.isOp .pow = true) (left : l.isNil = false) :
    multiplicity? label (pair l r) = r.exponent? := by
  simp [multiplicity?, power, left]

theorem multiplicity?_other (other : label.isOp .pow = false) :
    multiplicity? label child = none := by
  simp [multiplicity?, other]

section Visited

variable {P : Tree → Prop}

theorem exists_visited_nil : (∃ u : Tree, u.Visited .nil ∧ P u) ↔ P .nil := by
  refine ⟨?_, fun h => ⟨_, .root, h⟩⟩
  rintro ⟨u, visited, h⟩
  cases visited
  exact h

theorem exists_visited_node : (∃ u : Tree, u.Visited (.node id label child) ∧ P u) ↔
    P (.node id label child) ∨ (∃ u : Tree, u.Visited (child .left) ∧ P u) ∨
      label.isOp .pow = false ∧ ∃ u : Tree, u.Visited (child .right) ∧ P u := by
  constructor
  · rintro ⟨u, visited, h⟩
    cases visited with
    | root => exact .inl h
    | child side other below =>
      cases side with
      | left => exact .inr (.inl ⟨u, below, h⟩)
      | right => exact .inr (.inr ⟨other, u, below, h⟩)
    | base power below => exact .inr (.inl ⟨u, below, h⟩)
  · rintro (h | ⟨u, below, h⟩ | ⟨other, u, below, h⟩)
    · exact ⟨_, .root, h⟩
    · cases power : label.isOp .pow with
      | false => exact ⟨u, .child .left power below, h⟩
      | true => exact ⟨u, .base power below, h⟩
    · exact ⟨u, .child .right other below, h⟩

end Visited

theorem powered_iff (t : Tree) : t.powered = true ↔ ∃ u : Tree, u.Visited t ∧ u.isPower = true := by
  induction t with
  | nil => simp [exists_visited_nil, powered, isPower]
  | missing id =>
    refine ⟨fun h => by simp [powered] at h, ?_⟩
    rintro ⟨u, visited, h⟩
    cases visited
    simp [isPower] at h
  | node id label child ih =>
    rw [exists_visited_node, ← ih .left, ← ih .right, powered, isPower]
    by_cases leaf : childless child = true
    · simp [leaf, children_of_childless leaf, powered]
    · cases label.isOp .pow <;> simp [leaf]

theorem exponent?_isSome_iff (t : Tree) :
    t.exponent?.isSome = true ↔ ∃ k : Int, 1 ≤ k ∧ k ≤ 1024 ∧ t.IsConstant k := by
  cases t with
  | nil | missing => simp [exponent?, IsConstant]
  | node id label child =>
    by_cases leaf : childless child = true
    · simp only [exponent?, IsConstant, leaf, true_and]
      cases label.atom? with
      | none => simp
      | some atom =>
        cases atom with
        | float | var | other => simp
        | int n =>
          have bounds : 0 < n ∧ n ≤ Failure.maxExponent ↔ 1 ≤ n ∧ n ≤ 1024 := Iff.rfl
          by_cases small : 0 < n ∧ n ≤ Failure.maxExponent
          · simp [small, bounds.mp small]
          · simp [small, ← and_assoc, ← bounds]
    · simp [exponent?, IsConstant, leaf]

/-- A tree cannot be expanded where a power is visited that cannot. -/
theorem expandPowers?_eq_none_iff (whole : t.complete = true) : t.expandPowers? = none ↔
    ∃ u : Tree, u.Visited t ∧ u.isPower = true ∧ ¬ u.Expandable := by
  induction t with
  | nil => simp [exists_visited_nil, expandPowers?, isPower]
  | missing => simp [complete] at whole
  | node id label child ih =>
    simp only [complete, Bool.and_eq_true] at whole
    rw [exists_visited_node, ← ih .left whole.1, ← ih .right whole.2, expandPowers?]
    by_cases leaf : childless child = true
    · simp [leaf, children_of_childless leaf, expandPowers?, isPower]
    · rw [isPower, Expandable, ← exponent?_isSome_iff, if_neg leaf]
      cases power : label.isOp .pow with
      | false => cases (child .left).expandPowers? <;> simp
      | true => cases (child .left).isNil <;> cases (child .left).expandPowers? <;> simp [leaf]

theorem powered_anonymous (t : Tree) : t.anonymous.powered = t.powered := by
  induction t with
  | nil | missing => rfl
  | node id label child ih =>
    simp only [anonymous, powered, ih]
    rw [childless_congr fun side => isNil_anonymous (child side)]

theorem powered_eq_of_anonymous (h : u.anonymous = t.anonymous) : u.powered = t.powered := by
  rw [← powered_anonymous, h, powered_anonymous]

theorem Sub.isPower_eq (h : u.Sub t) (none : t.powered = false) : u.isPower = false := by
  -- Only exponents are not visited, and there are none above the first power.
  induction h with
  | refl =>
    refine Bool.eq_false_iff.mpr fun power => ?_
    rw [(powered_iff _).mpr ⟨_, .root, power⟩] at none
    cases none
  | @child id label child side h ih =>
    refine ih ?_
    by_cases leaf : childless child = true
    · rw [children_of_childless leaf]
      rfl
    · simp only [powered, leaf, Bool.not_false, Bool.true_and, Bool.or_eq_false_iff] at none
      cases side with
      | left => exact none.1.2
      | right => exact none.2

theorem powered_withId (id : NodeId) (t : Tree) : (t.withId id).powered = t.powered :=
  powered_eq_of_anonymous (anonymous_withId id t)

theorem powered_product (none : t.powered = false) (extra : Nat) :
    (t.product extra).powered = false := by
  induction extra with
  | zero => simp [product, powered, none, Label.isOp]
  | succ extra ih => simp [product, powered, none, ih, Label.isOp]

theorem powered_power (none : t.powered = false) (k : Nat) : (t.power k).powered = false := by
  match k with
  | 0 | 1 => exact none
  | extra + 2 => exact powered_product none extra

theorem count_product (t : Tree) (extra : Nat) :
    (t.product extra).count .mul = (extra + 2) * t.count .mul + (extra + 1) := by
  have times (u : Tree) : (Tree.node 0 { op := some .mul } (pair t u)).count .mul =
      t.count .mul + u.count .mul + 1 := rfl
  induction extra with
  | zero => rw [product, times, Nat.two_mul]
  | succ extra ih =>
    have more : (extra + 1 + 2) * t.count .mul = (extra + 2) * t.count .mul + t.count .mul :=
      Nat.succ_mul _ _
    rw [product, times, ih, more]
    omega

theorem count_power (t : Tree) {k : Nat} (positive : 1 ≤ k) :
    (t.power k).count .mul = k * t.count .mul + (k - 1) := by
  match k with
  | 1 => exact (Nat.one_mul _).symm
  | extra + 2 => exact count_product t extra

namespace Expands

theorem isNil_eq (h : t.Expands u) : u.isNil = t.isNil := by
  induction h with
  | nil | leaf | other => rfl
  | @power id label l r base k power there exponent h ih =>
    rw [isNil_withId, isNil_power (ih.trans there)]
    rfl

theorem eval_eq [Monoid R] {I : Interpretation R} (times : I.Multiplicative) (h : t.Expands u)
    (env : Env R) (other : Option ValueId → R) : u.eval I env other = t.value I env other := by
  induction h with
  | nil => rfl
  | leaf leaf => rw [eval_leaf leaf, value, if_pos leaf]
  | @power id label l r base k power there exponent h ih =>
    obtain ⟨⟨positive, -⟩, -⟩ := exponent?_eq_some (R := R) exponent
    have inner : childless (pair l r) = false := by simp [childless, there]
    rw [eval_eq_of_bare (bare_withId id _), eval_power times (h.isNil_eq.trans there) positive, ih,
      value, if_neg (Bool.eq_false_iff.mp inner), multiplicity?_power power there, exponent]
    rfl
  | @other id label l r l' r' other inner left right ihLeft ihRight =>
    have same (side : Side) : (pair l' r' side).isNil = (pair l r side).isNil := by
      cases side with
      | left => exact left.isNil_eq
      | right => exact right.isNil_eq
    rw [eval, childless_congr same, present_congr same, value, multiplicity?_other other, inner]
    simp only [pair_left, pair_right, ihLeft, ihRight, Option.elim_none]

theorem powered_eq (h : t.Expands u) : u.powered = false := by
  induction h with
  | nil => rfl
  | leaf leaf => simp [powered, leaf]
  | @power id label l r base k power there exponent h ih =>
    rw [powered_withId, powered_power ih]
  | @other id label l r l' r' other inner left right ihLeft ihRight =>
    simp [powered, other, ihLeft, ihRight]

theorem count_eq (h : t.Expands u) : u.count .mul = t.expandedProducts := by
  induction h with
  | nil => rfl
  | @leaf id label child leaf =>
    have left := children_of_childless leaf .left
    have none : multiplicity? label child = none := by simp [multiplicity?, left]
    rw [expandedProducts, none, count, left, children_of_childless leaf .right]
    rfl
  | @power id label l r base k power there exponent h ih =>
    obtain ⟨⟨positive, -⟩, -⟩ := exponent?_eq_some (R := Unit) exponent
    rw [expandedProducts, multiplicity?_power power there, exponent, ← tally_ofOperator,
      tally_withId, tally_ofOperator, count_power base positive, ih]
    rfl
  | @other id label l r l' r' other inner left right ihLeft ihRight =>
    rw [count, expandedProducts, multiplicity?_other other, pair_left, pair_left, pair_right,
      pair_right, ihLeft, ihRight]
    rfl

end Expands

end Tree

variable {b : Bench} {root : Nat} {t : Tree}

/-- Expanding the powers of a tree fails where it visits a power without base, or with an exponent
other than a constant from one to 1024, and nowhere else. Otherwise it says whether it visited a
power, and leaves everything as it was if not. No power remains; the products are those of the tree
and those that its powers stand for; and in every monoid, so in every commutative ring, the tree
computes what it did with its powers read as products. -/
theorem expandPowers_exact (h : b.forest.store.Owned (some root) t) :
    ((∃ e b', Work.expandPowers root b = .error e b') ↔
      ∃ v : Tree, v.Visited t ∧ v.isPower = true ∧ ¬ v.Expandable) ∧
    Ends (Work.expandPowers root) b
      (fun changed b' => (changed = true ↔ ∃ v : Tree, v.Visited t ∧ v.isPower = true) ∧
        (changed = false → b' = b) ∧
        ∃ u, b.Reworked (some root) t b' u ∧ (∀ v : Tree, v.Sub u → v.isPower = false) ∧
          u.count .mul = t.expandedProducts ∧
          ∀ (R : Type v) [Monoid R] (I : Interpretation R), I.Multiplicative → ∀ env other,
            u.eval I env other = t.value I env other)
      fun e _ => e.kind = .constraint := by
  have ends := Work.ends_expandPowers h
  refine ⟨?_, ends.imp ?_ fun _ _ refused => refused.kind⟩
  · rw [← Tree.expandPowers?_eq_none_iff h.spans.complete]
    refine Ends.exists_error_iff (ends.imp ?_ fun _ _ refused => refused.none)
    rintro _ b' ⟨-, -, u, v, -, expanded, -⟩ refused
    cases refused.symm.trans expanded
  · rintro _ b' ⟨rfl, kept, u, v, reworked, expanded, alike⟩
    have expands := Tree.expands_of_expandPowers? expanded
    refine ⟨t.powered_iff, kept, u, reworked, fun w sub => ?_, ?_, fun R _ I times env other => ?_⟩
    · exact sub.isPower_eq ((Tree.powered_eq_of_anonymous alike).trans expands.powered_eq)
    · rw [← expands.count_eq, ← Tree.tally_ofOperator, Tree.tally_eq_of_anonymous alike,
        Tree.tally_ofOperator]
    · rw [← expands.eval_eq times, Tree.eval_eq_of_bare (Tree.bare_eq_of_anonymous alike)]

namespace Store

/-- A power of `exponent`, of the product of `$0 ^ 2` and `$1`. -/
def nestedPowers (exponent : Int) : Store :=
  let op (op : Operator) (left right : NodeId) : Node :=
    { op := some op, left := some left, right := some right }
  let read (v : VarId) : Node := { origin := some ⟨v, none, .var v⟩ }
  let int (id : ValueId) (n : Int) : Node := { origin := some ⟨id, none, .int n⟩ }
  ⟨#[op .pow 1 2, op .mul 3 4, int 3 exponent, op .pow 5 6, read 1, read 0, int 2 2]⟩

end Store

theorem expandPowers_exact_nested :
    (∃ (b b' : Bench) (t u : Tree), b.forest.store = .nestedPowers 3 ∧
      b.forest.store.Owned (some 0) t ∧ Work.expandPowers 0 b = .ok true b' ∧
      b.Reworked (some 0) t b' u ∧ (∀ v : Tree, v.Sub u → v.isPower = false) ∧
      u.count .mul = 8 ∧
      ∀ (R : Type) [Monoid R] (I : Interpretation R), I.Multiplicative → ∀ env other,
        u.eval I env other = t.value I env other) ∧
    ∃ (b b' : Bench) (t : Tree) (e : Failure), b.forest.store = .nestedPowers 0 ∧
      b.forest.store.Owned (some 0) t ∧ Work.expandPowers 0 b = .error e b' ∧
      e.kind = .constraint ∧ ∃ v : Tree, v.Visited t ∧ v.isPower = true ∧ ¬ v.Expandable := by
  have owned (k : Int) {b : Bench} (stored : b.forest.store = .nestedPowers k) :
      b.forest.store.Owned (some 0) ((Store.nestedPowers k).tree 0) := by
    rw [stored]
    exact Store.owned_tree rfl (by decide +kernel : [0, 1, 3, 5, 6, 4, 2].Nodup)
  constructor
  · obtain ⟨b, stored, finds⟩ : ∃ b : Bench, b.forest.store = .nestedPowers 3 ∧
        answer? (Work.expandPowers 0) b = some true :=
      ⟨{ forest := { store := .nestedPowers 3 } }, rfl, by decide +kernel⟩
    obtain ⟨⟨changed, b'⟩, result, rfl⟩ := Option.map_eq_some_iff.mp finds
    have run := eq_ok_of_result? result
    obtain ⟨-, ends⟩ := expandPowers_exact.{0} (owned 3 stored)
    obtain ⟨-, -, u, reworked, powerless, count, value⟩ := ends.of_ok run
    exact ⟨b, b', _, u, stored, owned 3 stored, run, reworked, powerless,
      count.trans (by decide +kernel), value⟩
  · obtain ⟨b, stored, refuses⟩ : ∃ b : Bench, b.forest.store = .nestedPowers 0 ∧
        (failed? (Work.expandPowers 0) b).isSome = true :=
      ⟨{ forest := { store := .nestedPowers 0 } }, rfl, by decide +kernel⟩
    obtain ⟨⟨e, b'⟩, failed⟩ := Option.isSome_iff_exists.mp refuses
    have run := eq_error_of_failed? failed
    obtain ⟨fails, ends⟩ := expandPowers_exact.{0} (owned 0 stored)
    exact ⟨b, b', _, e, stored, owned 0 stored, run, ends.of_error run, fails.mp ⟨e, b', run⟩⟩

end SecureArith
