import Mathlib.Algebra.Group.Defs
import SecureArith.Pass.Power
import SecureArith.Proofs.Ends.Work

set_option autoImplicit false

/-!
# Expanding powers

What becomes of a tree when its powers are expanded, and when they cannot be. In a commutative ring
the products compute what the powers did.
-/

namespace SecureArith

universe u

variable {R : Type u}

namespace Failure

/-- A power is not expanded because of its exponent. -/
def ofExponent : Failure → Bool
  | .exponentTooLarge .. | .exponentNotPositive .. | .exponentNotInteger _ => true
  | _ => false

theorem kind_of_ofExponent {e : Failure} (h : e.ofExponent = true) : e.kind = .constraint := by
  cases e <;> first | rfl | cases h

end Failure

/-- Calls of the product of two operands multiply them. -/
def Interpretation.Multiplicative [Mul R] (I : Interpretation R) : Prop :=
  ∀ a b, I.call Operator.mul.name [a, b] = a * b

namespace Tree

/-- A product of copies, nested to the right; `extra` factors besides the first two. -/
def product (t : Tree) : Nat → Tree
  | 0 => .node 0 { op := some .mul } (pair t t)
  | extra + 1 => .node 0 { op := some .mul } (pair t (t.product extra))

def power (t : Tree) : Nat → Tree
  | extra + 2 => t.product extra
  | _ => t

def exponent? : Tree → Option Nat
  | .node _ label child =>
    if childless child then
      match label.atom? with
      | some (.int k) => if 0 < k ∧ k ≤ Failure.maxExponent then some k.toNat else none
      | _ => none
    else none
  | _ => none

/-- The tree with its powers expanded, but for those in exponents. -/
def expandPowers? : Tree → Option Tree
  | .nil => some .nil
  | .missing _ => none
  | .node id label child =>
    if childless child then some (.node id label child)
    else if label.isOp .pow then
      if (child .left).isNil then none
      else (child .left).expandPowers?.bind fun base =>
        (child .right).exponent?.map fun k => (base.power k).withId id
    else (child .left).expandPowers?.bind fun l =>
      (child .right).expandPowers?.map fun r => .node id label (pair l r)

/-- There is a power that is not in an exponent. -/
def powered : Tree → Bool
  | .nil | .missing _ => false
  | .node _ label child =>
    !childless child && (label.isOp .pow || (child .left).powered || (child .right).powered)

/-- A tree and what it is once its powers are expanded. -/
inductive Expands : Tree → Tree → Prop
  | nil : Expands .nil .nil
  | leaf {id : NodeId} {label : Label} {child : Side → Tree} (leaf : childless child = true) :
      Expands (.node id label child) (.node id label child)
  | power {id : NodeId} {label : Label} {l r base : Tree} {k : Nat}
      (power : label.isOp .pow = true) (there : l.isNil = false) (exponent : r.exponent? = some k)
      (h : Expands l base) : Expands (.node id label (pair l r)) ((base.power k).withId id)
  | other {id : NodeId} {label : Label} {l r l' r' : Tree} (other : label.isOp .pow = false)
      (inner : childless (pair l r) = false) (left : Expands l l') (right : Expands r r') :
      Expands (.node id label (pair l r)) (.node id label (pair l' r'))

section Equations

variable {label : Label} {l r : Tree}

theorem expandPowers?_power (id : NodeId) (r : Tree) (power : label.isOp .pow = true)
    (left : l.isNil = false) :
    (Tree.node id label (pair l r)).expandPowers? = l.expandPowers?.bind fun base =>
      r.exponent?.map fun k => (base.power k).withId id := by
  simp [expandPowers?, childless, power, left]

theorem expandPowers?_eq_none {id : NodeId} (inner : childless (pair l r) = false)
    (power : label.isOp .pow = true) (missing : l.isNil = true ∨ r.isNil = true) :
    (Tree.node id label (pair l r)).expandPowers? = none := by
  rcases missing with missing | missing
  · simp [expandPowers?, inner, power, missing]
  · have absent : r.exponent? = none := by
      cases r with
      | nil | missing => rfl
      | node => simp at missing
    simp [expandPowers?, inner, power, absent]

theorem expandPowers?_other (id : NodeId) (inner : childless (pair l r) = false)
    (other : label.isOp .pow = false) :
    (Tree.node id label (pair l r)).expandPowers? = l.expandPowers?.bind fun l' =>
      r.expandPowers?.map fun r' => .node id label (pair l' r') := by
  simp [expandPowers?, inner, other]

end Equations

theorem anonymous_product {t u : Tree} (h : u.anonymous = t.anonymous) (extra : Nat) :
    (u.product extra).anonymous = (t.product extra).anonymous := by
  induction extra with
  | zero => exact anonymous_node h h _ _ _
  | succ extra ih => exact anonymous_node h ih _ _ _

theorem anonymous_power {t u : Tree} (h : u.anonymous = t.anonymous) (k : Nat) :
    (u.power k).anonymous = (t.power k).anonymous := by
  match k with
  | 0 | 1 => exact h
  | extra + 2 => exact anonymous_product h extra

theorem exponent?_eq_some {t : Tree} {k : Nat} (h : t.exponent? = some k) :
    (1 ≤ k ∧ k ≤ 1024) ∧ t.isNil = false ∧
      ∀ (I : Interpretation R) (env : Env R) (other : Option ValueId → R),
        t.eval I env other = I.int k := by
  cases t with
  | nil | missing => simp [exponent?] at h
  | node id label child =>
    by_cases leaf : childless child = true
    · simp only [exponent?, if_pos leaf, Label.atom?] at h
      cases origin : label.origin with
      | none => simp [origin] at h
      | some o =>
        obtain ⟨_, _, atom⟩ := o
        cases atom with
        | float | var | other => simp [origin] at h
        | int n =>
          simp only [origin, Option.map_some, Option.ite_none_right_eq_some] at h
          obtain ⟨⟨positive, small⟩, eq⟩ := h
          have eq := Option.some.inj eq
          rw [Failure.maxExponent] at small
          refine ⟨by omega, rfl, fun I env other => ?_⟩
          rw [eval_leaf leaf, Label.eval, origin, ← eq, Int.toNat_of_nonneg (by omega)]
    · simp [exponent?, leaf] at h

theorem isNil_product (t : Tree) (extra : Nat) : (t.product extra).isNil = false := by
  cases extra <;> rfl

section Value

variable [Monoid R] {I : Interpretation R}

theorem eval_product (times : I.Multiplicative) {t : Tree} (there : t.isNil = false) (extra : Nat)
    (env : Env R) (other : Option ValueId → R) :
    (t.product extra).eval I env other = t.eval I env other ^ (extra + 2) := by
  have times {u : Tree} (h : u.isNil = false) :
      (Tree.node 0 { op := some .mul } (pair t u)).eval I env other =
        t.eval I env other * u.eval I env other := by
    rw [eval_binary there h]
    exact times _ _
  induction extra with
  | zero => rw [product, times there, pow_two]
  | succ extra ih => rw [product, times (isNil_product t extra), ih, ← pow_succ']

/-- A power of at least one computes what its base does, that often. -/
theorem eval_power (times : I.Multiplicative) {t : Tree} (there : t.isNil = false) {k : Nat}
    (positive : 1 ≤ k) (env : Env R) (other : Option ValueId → R) :
    (t.power k).eval I env other = t.eval I env other ^ k := by
  match k with
  | 1 => exact (pow_one _).symm
  | extra + 2 => exact eval_product times there extra env other

end Value

theorem leaves_product {t : Tree} (there : t.isNil = false) (extra : Nat) :
    ∀ o ∈ (t.product extra).leaves, o ∈ t.leaves := by
  have inner (u : Tree) : childless (pair t u) = false := by simp [childless, there]
  induction extra with
  | zero =>
    intro o mem
    rw [product, leaves_node (inner t)] at mem
    exact (List.mem_append.mp mem).elim (fun h => h) fun h => h
  | succ extra ih =>
    intro o mem
    rw [product, leaves_node (inner _)] at mem
    exact (List.mem_append.mp mem).elim (fun h => h) (ih o)

theorem proper_product {t : Tree} (there : t.isNil = false) (h : t.proper = true) (extra : Nat) :
    (t.product extra).proper = true := by
  induction extra with
  | zero => simp [product, proper, h, there]
  | succ extra ih => simp [product, proper, h, ih, there, isNil_product]

theorem isNil_power {t : Tree} (there : t.isNil = false) (k : Nat) :
    (t.power k).isNil = false := by
  match k with
  | 0 | 1 => exact there
  | extra + 2 => exact isNil_product t extra

theorem leaves_power {t : Tree} (there : t.isNil = false) (k : Nat) :
    ∀ o ∈ (t.power k).leaves, o ∈ t.leaves := by
  match k with
  | 0 | 1 => exact fun _ mem => mem
  | extra + 2 => exact leaves_product there extra

theorem proper_power {t : Tree} (there : t.isNil = false) (h : t.proper = true) (k : Nat) :
    (t.power k).proper = true := by
  match k with
  | 0 | 1 => exact h
  | extra + 2 => exact proper_product there h extra

theorem expands_of_expandPowers? {t u : Tree} (h : t.expandPowers? = some u) : t.Expands u := by
  induction t generalizing u with
  | nil =>
    cases Option.some.inj h
    exact .nil
  | missing => simp [expandPowers?] at h
  | node id label child ih =>
    rw [expandPowers?] at h
    split at h
    · rename_i leaf
      cases Option.some.inj h
      exact .leaf leaf
    · rename_i inner
      have eta := pair_eta child
      split at h
      · rename_i power
        split at h
        · cases h
        · rename_i there
          obtain ⟨base, expanded, rest⟩ := Option.bind_eq_some_iff.mp h
          obtain ⟨k, exponent, rfl⟩ := Option.map_eq_some_iff.mp rest
          rw [← eta]
          exact .power power (Bool.eq_false_iff.mpr there) exponent (ih .left expanded)
      · rename_i other
        obtain ⟨l, left, rest⟩ := Option.bind_eq_some_iff.mp h
        obtain ⟨r, right, rfl⟩ := Option.map_eq_some_iff.mp rest
        rw [← eta] at inner ⊢
        exact .other (Bool.eq_false_iff.mpr other) (Bool.eq_false_iff.mpr inner) (ih .left left)
          (ih .right right)

variable [CommRing R] {I : Interpretation R}

/-- Expanding powers changes no meaning. -/
theorem Expands.refines (laws : I.Arithmetic) {t u : Tree} (h : t.Expands u) : t.Refines I u := by
  induction h with
  | nil | leaf => exact .refl I _
  | @power id label l r base k power there exponent h refined =>
    obtain ⟨⟨positive, small⟩, right, value⟩ := exponent?_eq_some (R := R) exponent
    have base_there := refined.isNil.trans there
    refine Refines.trans ⟨?_, fun env other => ?_, fun o mem => ?_, fun h => ?_⟩
      (refines_of_bare (bare_withId id _))
    · rw [isNil_power base_there]
      rfl
    · rw [eval_power laws.mul base_there positive, refined.eval, eval_binary there right,
        Label.opName_of_isOp power, pair_right, value, laws.pow _ k positive small, pair_left]
    · rw [leaves_node (by simp [childless, there])]
      exact List.mem_append_left _ (refined.leaves o (leaves_power base_there k o mem))
    · exact proper_power base_there (refined.proper (proper_child h .left)) k
  | @other id label l r l' r' other inner left right refinedLeft refinedRight =>
    exact refinedLeft.node refinedRight id id label

end Tree

namespace Store

variable {s : Store} {base : Nat} {t : Tree}

theorem Split.exponent?_eq {id : Nat} {n : Node} {l r : Tree} (h : s.Split id n l r) :
    (Tree.node id n.toLabel (Tree.pair l r)).exponent? = n.int?.bind fun k =>
      if 0 < k ∧ k ≤ Failure.maxExponent then some k.toNat else none := by
  simp only [Tree.exponent?, h.childless_eq, Node.int?, Node.leafAtom?]
  by_cases leaf : n.isLeaf = true
  · rw [if_pos leaf, if_pos leaf]
    cases n.atom? with
    | none => rfl
    | some atom => cases atom <;> rfl
  · rw [if_neg leaf, if_neg leaf]
    rfl

theorem ends_append_mul {s₀ : Store} {left right : Nat} {l r : Tree}
    (ownedLeft : s.Owned (some left) l) (ownedRight : s.Owned (some right) r)
    (turnsLeft : s₀.Turns .nil s l) (turnsRight : s₀.Turns .nil s r)
    (apart : ∀ i ∈ l.preorder, i ∉ r.preorder) {l' r' : Tree} (alikeLeft : l.anonymous = l'.anonymous)
    (alikeRight : r.anonymous = r'.anonymous) :
    Ends (append { op := some .mul, left := some left, right := some right }) s
      (fun c s' => ∃ u, s'.Owned (some c) u ∧ s₀.Turns .nil s' u ∧
        u.anonymous = (Tree.node 0 { op := some .mul } (Tree.pair l' r')).anonymous)
      fun _ _ => False := by
  refine ends_append_new ownedLeft ownedRight turnsLeft turnsRight apart
    fun i s' owned turns _ => ⟨_, owned, turns, ?_⟩
  exact Tree.anonymous_node alikeLeft alikeRight _ i _

theorem ends_product (h : s.Owned (some base) t) (extra : Nat) :
    Ends (product base extra) s
      (fun c s' => ∃ u, s'.Owned (some c) u ∧ s.Turns .nil s' u ∧
        u.anonymous = (t.product extra).anonymous)
      fun _ _ => False := by
  induction extra with
  | zero =>
    rw [product, Ends.bind_iff]
    refine (ends_copy h).imp ?_ fun _ _ h => h
    rintro left s₁ ⟨l, copyLeft⟩
    rw [Ends.bind_iff]
    refine (ends_copy (copyLeft.turns.keeps_old h)).imp ?_ fun _ _ h => h
    rintro right s₂ ⟨r, copyRight⟩
    obtain ⟨turnsLeft, turnsRight⟩ := copyLeft.turns.nil_trans copyRight.turns
    exact ends_append_mul (copyRight.turns.keeps_old copyLeft.owned) copyRight.owned turnsLeft
      turnsRight (copyRight.turns.apart_of_new copyLeft.owned.spans) copyLeft.alike copyRight.alike
  | succ extra ih =>
    rw [product, Ends.bind_iff]
    refine ih.imp ?_ fun _ _ h => h
    rintro right s₁ ⟨r, ownedRight, turnsRight, alikeRight⟩
    rw [Ends.bind_iff]
    refine (ends_copy (turnsRight.keeps_old h)).imp ?_ fun _ _ h => h
    rintro left s₂ ⟨l, copyLeft⟩
    obtain ⟨turnsRight', turnsLeft⟩ := turnsRight.nil_trans copyLeft.turns
    have apart := copyLeft.turns.apart_of_new ownedRight.spans
    exact ends_append_mul copyLeft.owned (copyLeft.turns.keeps_old ownedRight) turnsLeft
      turnsRight' (fun i memLeft memRight => apart i memRight memLeft) copyLeft.alike alikeRight

end Store

namespace Work

variable {b : Bench} {id base : Nat} {n : Node} {t l r : Tree}

theorem ends_replacePower (split : b.forest.store.Split id n l r) (left : n.left = some base)
    (k : Nat) :
    Ends (replacePower id base k) b
      (fun _ b' => ∃ u, b.Reworked (some id) (.node id n.toLabel (Tree.pair l r)) b' u ∧
        u.anonymous = (l.power k).anonymous)
      fun _ _ => False := by
  have ownedBase : b.forest.store.Owned (some base) l := left ▸ split.left
  have mem : id ∈ (Tree.node id n.toLabel (Tree.pair l r)).preorder := List.mem_cons_self
  have idLt := Store.lt_size_of_get? split.found
  -- The base itself takes the place of a first power.
  have first : Ends (onStore (Store.overwrite id base)) b
      (fun _ b' => ∃ u, b.Reworked (some id) (.node id n.toLabel (Tree.pair l r)) b' u ∧
        u.anonymous = l.anonymous)
      fun _ _ => False := by
    obtain ⟨m, ll, lr, rfl, splitBase⟩ := ownedBase.split
    have ne : id ≠ base := fun eq => split.above .left (eq ▸ List.mem_cons_self)
    rw [ends_onStore]
    refine (Store.ends_overwrite splitBase.found split.found ne).imp ?_ fun _ _ h => h
    rintro _ s rfl
    have owned := ownedBase.overwrite splitBase.found idLt (split.above .left)
    refine ⟨_, Bench.reworked_withStore owned (Store.Turns.overwrite ?_ mem _),
      Tree.anonymous_withId id _⟩
    refine ⟨Nat.le_refl _, fun _ _ _ => rfl, fun i mem => .inl ?_⟩
    simp only [Tree.preorder, Tree.pair_left, List.mem_cons, List.mem_append] at mem ⊢
    exact .inr (.inl mem)
  rcases k with _ | _ | extra
  · exact first
  · exact first
  · rw [replacePower, Ends.bind_iff, ends_onStore]
    refine (Store.ends_product ownedBase extra).imp ?_ fun _ _ h => h
    rintro c s₁ ⟨u, owned, turns, alike⟩
    obtain ⟨m, ul, ur, rfl, splitNew⟩ := owned.split
    have new (i : Nat) (mem : i ∈ (Tree.node c m.toLabel (Tree.pair ul ur)).preorder) :
        b.forest.store.size ≤ i := (turns.within i mem).resolve_left List.not_mem_nil
    have ne : id ≠ c := by
      have := new c List.mem_cons_self
      omega
    have other : id ∉ (Tree.node c m.toLabel (Tree.pair ul ur)).preorder := fun mem => by
      have := new id mem
      omega
    have there : s₁.get? id = some n := (turns.frame id idLt List.not_mem_nil).trans split.found
    rw [Ends.bind_iff, ends_onStore]
    refine (Store.ends_overwrite splitNew.found there ne).imp ?_ fun _ _ h => h
    rintro _ s₂ rfl
    have written := owned.overwrite splitNew.found (Store.lt_size_of_get? there) other
    have turned := (turns.mono fun _ mem => absurd mem List.not_mem_nil).overwrite mem fun _ => m
    refine ends_noteAt ?_ fun journal => ?_
    · rw [Ends.bind_iff]
      exact ends_shown written.spans written.height_le rfl
    · exact ⟨_, ⟨⟨rfl, written, turned⟩, rfl⟩, (Tree.anonymous_withId id _).trans alike⟩

theorem ends_exponent {power exponent : Nat} (shown : b.forest.store.Owned (some power) t)
    (h : b.forest.store.Owned (some exponent) r) :
    Ends (Work.exponent power exponent) b (fun k b' => b' = b ∧ r.exponent? = some k)
      fun e b' => b' = b ∧ r.exponent? = none ∧ e.ofExponent = true := by
  obtain ⟨n, rl, rr, rfl, split⟩ := h.split
  rw [Work.exponent, Ends.bind_iff, split.exponent?_eq]
  refine ends_node split.found ?_
  cases n.int? with
  | none =>
    dsimp only
    rw [Ends.bind_iff]
    exact ends_shown shown.spans shown.height_le ⟨rfl, rfl, rfl⟩
  | some k =>
    dsimp only
    rw [Ends.ite_iff]
    refine ⟨fun large => ?_, fun small => ?_⟩
    · rw [Ends.bind_iff]
      exact ends_shown shown.spans shown.height_le
        ⟨rfl, if_neg fun h => absurd h.2 (Int.not_le.mpr large), rfl⟩
    · rw [Ends.ite_iff]
      refine ⟨fun low => ?_, fun positive => ?_⟩
      · rw [Ends.bind_iff]
        exact ends_shown shown.spans shown.height_le
          ⟨rfl, if_neg fun h => absurd h.1 (Int.not_lt.mpr low), rfl⟩
      · exact ⟨rfl, if_pos ⟨Int.not_le.mp positive, Int.not_lt.mp small⟩⟩

/-- Powers of a tree were expanded, and nothing happened if it has none. -/
structure Expanded (b : Bench) (place : Option NodeId) (t : Tree) (changed : Bool) (b' : Bench) :
    Prop where
  powered : changed = t.powered
  kept : t.powered = false → b' = b
  result : ∃ u v, b.Reworked place t b' u ∧ t.expandPowers? = some v ∧ u.anonymous = v.anonymous

/-- A power of a tree cannot be expanded, which is because of its exponent if it has one. -/
structure Refused (b : Bench) (place : Option NodeId) (t : Tree) (e : Failure) (b' : Bench) :
    Prop where
  none : t.expandPowers? = none
  kind : e.kind = .constraint
  cause : t.proper = true → e.ofExponent = true
  result : ∃ u, b.Reworked place t b' u

theorem ends_noExponent (split : b.forest.store.Split id n l r)
    (inner : Tree.childless (Tree.pair l r) = false) (power : n.toLabel.isOp .pow = true)
    (missing : l.isNil = true ∨ r.isNil = true) :
    Ends (do throw (.noExponent (← shown id))) b
      (Expanded b (some id) (.node id n.toLabel (Tree.pair l r)))
      (Refused b (some id) (.node id n.toLabel (Tree.pair l r))) := by
  have h := split.owned
  rw [Ends.bind_iff]
  refine ends_shown h.spans h.height_le
    ⟨Tree.expandPowers?_eq_none inner power missing, rfl, fun proper => ?_, _, .refl h⟩
  have there := (Tree.operands_of_proper proper inner).2
  rcases missing with missing | missing
  · exact absurd ((there .left).symm.trans missing) Bool.false_ne_true
  · exact absurd ((there .right).symm.trans missing) Bool.false_ne_true

section Step

variable {depth : Nat}
  (ih : ∀ {b : Bench} {id : Nat} {t : Tree}, b.forest.store.Owned (some id) t → t.height ≤ depth →
    Ends (expandPowersTo depth id) b (Expanded b (some id) t) (Refused b (some id) t))
include ih

theorem ends_expandPowers_place {place : Option NodeId} (h : b.forest.store.Owned place t)
    (deep : t.height ≤ depth) :
    Ends (place.toList.mapM (expandPowersTo depth)) b
      (fun changed => Expanded b place t changed.or) (Refused b place t) := by
  cases place with
  | none =>
    cases h.spans
    exact ⟨rfl, fun _ => rfl, .nil, .nil, .refl h, rfl, rfl⟩
  | some id =>
    rw [Option.toList_some, Ends.mapM_singleton_iff]
    refine (ih h deep).imp ?_ fun _ _ h => h
    rintro changed b' expanded
    exact ⟨by simp [expanded.powered], expanded.kept, expanded.result⟩

/-- A power is expanded after those in its base. -/
theorem ends_expandPower {exponent : Nat} (split : b.forest.store.Split id n l r)
    (left : n.left = some base) (right : n.right = some exponent)
    (inner : Tree.childless (Tree.pair l r) = false) (power : n.toLabel.isOp .pow = true)
    (deep : l.height ≤ depth) :
    Ends (do
        let _ ← expandPowersTo depth base
        let k ← Work.exponent id exponent
        replacePower id base k
        return true) b
      (Expanded b (some id) (.node id n.toLabel (Tree.pair l r)))
      (Refused b (some id) (.node id n.toLabel (Tree.pair l r))) := by
  have there : l.isNil = false := by rw [split.child_isNil_iff.1, left]; rfl
  have equation := Tree.expandPowers?_power id r power there
  have powered : (Tree.node id n.toLabel (Tree.pair l r)).powered = true := by
    simp [Tree.powered, inner, power]
  rw [Ends.bind_iff]
  refine (ih (left ▸ split.left) deep).imp ?_ ?_
  · rintro _ b₁ ⟨-, -, l', v, below, expanded, alike⟩
    rw [← left] at below
    obtain ⟨split₁, turned⟩ := below.child split .left rfl
    rw [expanded, Option.bind_some] at equation
    rw [Ends.bind_iff]
    refine (ends_exponent split₁.owned (right ▸ split₁.right)).imp ?_ ?_
    · rintro k b₂ ⟨rfl, found⟩
      rw [Ends.bind_iff]
      refine (ends_replacePower split₁ left k).imp ?_ fun _ _ h => h.elim
      rintro _ b₃ ⟨u, replaced, alike'⟩
      refine ⟨powered.symm, fun h => by simp [powered] at h, u, _, turned.trans replaced,
        by rw [equation, found]; rfl, ?_⟩
      rw [Tree.anonymous_withId, alike', Tree.anonymous_power alike]
    · rintro e b₂ ⟨rfl, absent, cause⟩
      exact ⟨by rw [equation, absent]; rfl, Failure.kind_of_ofExponent cause, fun _ => cause, _,
        turned⟩
  · rintro e b₁ ⟨absent, kind, cause, u, below⟩
    rw [← left] at below
    exact ⟨by rw [equation, absent]; rfl, kind,
      fun proper => cause (Tree.proper_child proper .left), _, (below.child split .left rfl).2⟩

theorem ends_expandPowers_children (split : b.forest.store.Split id n l r)
    (inner : Tree.childless (Tree.pair l r) = false) (other : n.toLabel.isOp .pow = false)
    (deepLeft : l.height ≤ depth) (deepRight : r.height ≤ depth) :
    Ends (do
        let changed ← n.children.mapM (expandPowersTo depth)
        return changed.or) b
      (Expanded b (some id) (.node id n.toLabel (Tree.pair l r)))
      (Refused b (some id) (.node id n.toLabel (Tree.pair l r))) := by
  have equation := Tree.expandPowers?_other id inner other
  have powered : (Tree.node id n.toLabel (Tree.pair l r)).powered = (l.powered || r.powered) := by
    simp [Tree.powered, inner, other]
  rw [Ends.bind_iff, Node.children, List.mapM_append, Ends.bind_iff]
  refine (ends_expandPowers_place ih split.left deepLeft).imp ?_ ?_
  · rintro changedLeft b₁ ⟨leftPowered, keptLeft, l', vl, belowLeft, expandedLeft, alikeLeft⟩
    obtain ⟨split₁, turned₁⟩ := Bench.Reworked.child split .left belowLeft rfl
    rw [expandedLeft, Option.bind_some] at equation
    rw [Ends.bind_iff]
    refine (ends_expandPowers_place ih split₁.right deepRight).imp ?_ ?_
    · rintro changedRight b₂
        ⟨rightPowered, keptRight, r', vr, belowRight, expandedRight, alikeRight⟩
      obtain ⟨-, turned₂⟩ := Bench.Reworked.child split₁ .right belowRight rfl
      refine ⟨?_, fun none => ?_, _, _, turned₁.trans turned₂,
        by rw [equation, expandedRight]; rfl, ?_⟩
      · simp [powered, ← leftPowered, ← rightPowered, List.or]
      · have none := Bool.or_eq_false_iff.mp (powered.symm.trans none)
        exact (keptRight none.2).trans (keptLeft none.1)
      · exact Tree.anonymous_node alikeLeft alikeRight id id n.toLabel
    · rintro e b₂ ⟨absent, kind, cause, u, belowRight⟩
      exact ⟨by rw [equation, absent]; rfl, kind,
        fun proper => cause (Tree.proper_child proper .right), _,
        turned₁.trans (Bench.Reworked.child split₁ .right belowRight rfl).2⟩
  · rintro e b₁ ⟨absent, kind, cause, u, belowLeft⟩
    exact ⟨by rw [equation, absent]; rfl, kind,
      fun proper => cause (Tree.proper_child proper .left), _,
      (Bench.Reworked.child split .left belowLeft rfl).2⟩

end Step

theorem ends_expandPowersTo {depth : Nat} (h : b.forest.store.Owned (some id) t)
    (deep : t.height ≤ depth) :
    Ends (expandPowersTo depth id) b (Expanded b (some id) t) (Refused b (some id) t) := by
  induction depth generalizing b id t with
  | zero =>
    obtain ⟨n, l, r, rfl, -⟩ := h.split
    simp [Tree.height] at deep
  | succ depth ih =>
    obtain ⟨n, l, r, rfl, split⟩ := h.split
    obtain ⟨noLeft, noRight⟩ := split.child_isNil_iff
    have leafIff := split.childless_eq
    simp only [Tree.height, Tree.pair_left, Tree.pair_right] at deep
    rw [expandPowersTo, Ends.bind_iff]
    refine ends_node split.found ?_
    rw [Ends.ite_iff]
    refine ⟨fun leaf => ?_, fun inner => ?_⟩
    · exact ⟨by simp [Tree.powered, leafIff, leaf], fun _ => rfl, _, _, .refl h,
        by rw [Tree.expandPowers?, if_pos (leafIff.trans leaf)], rfl⟩
    · have inner : Tree.childless (Tree.pair l r) = false :=
        leafIff.trans (Bool.eq_false_iff.mpr inner)
      rw [Ends.ite_iff]
      refine ⟨fun power => ?_, fun other => ?_⟩
      · cases left : n.left with
        | none => exact ends_noExponent split inner power (.inl (by rw [noLeft, left]; rfl))
        | some base =>
          cases right : n.right with
          | none => exact ends_noExponent split inner power (.inr (by rw [noRight, right]; rfl))
          | some exponent => exact ends_expandPower ih split left right inner power (by omega)
      · exact ends_expandPowers_children ih split inner (Bool.eq_false_iff.mpr other) (by omega)
          (by omega)

theorem ends_expandPowers (h : b.forest.store.Owned (some id) t) :
    Ends (expandPowers id) b (Expanded b (some id) t) (Refused b (some id) t) := by
  rw [expandPowers, Ends.bind_iff, Ends.get_iff]
  refine ends_expandPowersTo h (Nat.le_trans h.height_le ?_)
  exact Nat.le_mul_of_pos_right _ (by decide)

end Work

end SecureArith
