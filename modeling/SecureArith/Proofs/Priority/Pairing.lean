import SecureArith.Proofs.Priority.Fixpoint

set_option autoImplicit false

/-!
# Reordering costs nothing

A node is secure or cheap by the type that it keeps or that is found for it, be it an old one or
not. A swap makes the operation below cheap and every other node stays what it is: the operations
above keep the types that they had. So there are as many operations on two secure operands as
before, and no more with a secure operand.
-/

namespace SecureArith

namespace Tree

variable {c : Classifier} {op : Operator} {t u x y : Tree} {id i k : NodeId} {label : Label}
  {child : Side → Tree} {side : Side} {z : Option Bool} {ks : List NodeId}
  {test : Bool → Bool → Bool}

/-- The node of an index is secure, cheap or without type. -/
def HasClass (c : Classifier) (t : Tree) (i : NodeId) (z : Option Bool) : Prop :=
  ∃ u : Tree, u.Sub t ∧ u.id? = some i ∧ u.secure? c = z

/-- The number of operations on two operands that pass a test of whether these are secure. -/
def pairings (c : Classifier) (test : Bool → Bool → Bool) : Tree → Nat
  | .nil | .missing _ => 0
  | .node _ _ child =>
    (!(child .left).isNil && !(child .right).isNil &&
      test ((child .left).secure? c == some true) ((child .right).secure? c == some true)).toNat +
      (child .left).pairings c test + (child .right).pairings c test

def securePairs (c : Classifier) (t : Tree) : Nat := t.pairings c and

/-- The number of operations on two operands, one of which is secure at least. -/
def securings (c : Classifier) (t : Tree) : Nat := t.pairings c or

theorem hasClass_node (side : Side) :
    (Tree.node id label child).HasClass c i z ↔
      (id = i ∧ (Tree.node id label child).secure? c = z) ∨ (child side).HasClass c i z ∨
        (child side.flip).HasClass c i z := by
  constructor
  · rintro ⟨u, sub, isI, isZ⟩
    cases sub with
    | refl => exact .inl ⟨Option.some.inj isI, isZ⟩
    | child side' sub =>
      refine .inr ?_
      cases side <;> cases side'
      · exact .inl ⟨u, sub, isI, isZ⟩
      · exact .inr ⟨u, sub, isI, isZ⟩
      · exact .inr ⟨u, sub, isI, isZ⟩
      · exact .inl ⟨u, sub, isI, isZ⟩
  · rintro (⟨rfl, isZ⟩ | ⟨u, sub, isI, isZ⟩ | ⟨u, sub, isI, isZ⟩)
    · exact ⟨_, .refl, rfl, isZ⟩
    · exact ⟨u, .child side sub, isI, isZ⟩
    · exact ⟨u, .child side.flip sub, isI, isZ⟩

theorem hasClass_place :
    (Tree.node id label (place side x y)).HasClass c i z ↔
      (id = i ∧ (Tree.node id label (place side x y)).secure? c = z) ∨ x.HasClass c i z ∨
        y.HasClass c i z := by
  rw [hasClass_node side, place_same, place_flip]

theorem pairings_place (symm : ∀ a b, test a b = test b a) :
    (Tree.node id label (place side x y)).pairings c test =
      (!x.isNil && !y.isNil && test (x.secure? c == some true) (y.secure? c == some true)).toNat +
        x.pairings c test + y.pairings c test := by
  rw [pairings]
  cases side with
  | left => rfl
  | right =>
    simp only [place, pair_left, pair_right]
    rw [symm, Bool.and_comm (!y.isNil), Nat.add_right_comm]

namespace Learns

theorem pairings_eq (h : t.Learns c u) : u.pairings c test = t.pairings c test := by
  induction h with
  | nil | missing => rfl
  | node kept children ih =>
    simp only [pairings, ih, (children _).isNil_eq, (children _).secure?_eq]

theorem hasClass_iff (h : t.Learns c u) : u.HasClass c i z ↔ t.HasClass c i z := by
  induction h with
  | nil | missing => exact Iff.rfl
  | @node id label child child' memo kept children ih =>
    have whole : (Tree.node id label child).Learns c (.node id { label with memo } child') :=
      .node kept children
    rw [hasClass_node .left, hasClass_node .left, whole.secure?_eq, ih, ih]

end Learns

namespace Lifts

theorem secure?_eq (h : t.Lifts c op k u) : t.secure? c = some true ∧ u.secure? c = some true := by
  cases h with
  | here _ _ kept => exact ⟨secure?_of_keepsSecure kept, secure?_of_keepsSecure kept⟩
  | child kept => exact ⟨secure?_of_keepsSecure kept, secure?_of_keepsSecure kept⟩

theorem typeable (h : t.Lifts c op k u) (typeable : t.typeable c = true) :
    u.typeable c = true := by
  have isSome {v : Tree} {z : Bool} (h : v.secure? c = some z) :
      (v.type? c false).isSome = true := by
    obtain ⟨type, found, -⟩ := Option.map_eq_some_iff.mp h
    rw [found]
    rfl
  induction h with
  | here upper lower kept secure cheap sibling =>
    simp only [typeable_place, Bool.and_eq_true] at typeable ⊢
    obtain ⟨⟨-, ⟨-, typeA⟩, typeO⟩, typeS⟩ := typeable
    exact ⟨⟨isSome (secure?_of_keepsSecure kept), ⟨isSome (secure?_place rfl sibling cheap), typeS⟩,
      typeO⟩, typeA⟩
  | child kept h ih =>
    simp only [typeable_place, Bool.and_eq_true] at typeable ⊢
    exact ⟨⟨isSome (secure?_of_keepsSecure kept), ih typeable.1.2⟩, typeable.2⟩

/-- All operations but the one below stay what they are. -/
theorem hasClass_iff (h : t.Lifts c op k u) (other : i ≠ k) :
    u.HasClass c i z ↔ t.HasClass c i z := by
  induction h with
  | here upper lower kept secure cheap sibling =>
    have below {label : Label} {child : Side → Tree} :
        ¬ (k = i ∧ (Tree.node k label child).secure? c = z) := fun same => other same.1.symm
    simp only [hasClass_place, secure?_of_keepsSecure kept, below, false_or]
    tauto
  | child kept h ih =>
    simp only [hasClass_place, secure?_of_keepsSecure kept, ih]

/-- What a swap changes: the operation below has two cheap operands after it, and the operation
above a cheap and a secure one. -/
theorem exists_pairings (symm : ∀ a b, test a b = test b a) (h : t.Lifts c op k u) :
    ∃ below, u.pairings c test + (test below false).toNat + (test true false).toNat =
      t.pairings c test + (test false true).toNat + (test false false).toNat := by
  induction h with
  | @here root label label' side side' a o s upper lower kept secure cheap sibling =>
    have after : (Tree.node k { label' with memo := none } (place side' s o)).secure? c =
        some false := secure?_place rfl sibling cheap
    have differ : (some false == some true) = false := rfl
    refine ⟨(Tree.node k label' (place side' a o)).secure? c == some true, ?_⟩
    simp only [pairings_place symm, secure, cheap, sibling, after, differ, beq_self_eq_true,
      isNil_of_secure? secure, isNil_of_secure? cheap, isNil_of_secure? sibling, isNil_node,
      Bool.not_false, Bool.true_and]
    omega
  | child kept h ih =>
    obtain ⟨below, eq⟩ := ih
    refine ⟨below, ?_⟩
    simp only [pairings_place symm, h.isNil_eq, h.secure?_eq]
    omega

theorem securePairs_eq (h : t.Lifts c op k u) : u.securePairs c = t.securePairs c := by
  obtain ⟨below, eq⟩ := h.exists_pairings Bool.and_comm
  simpa [securePairs] using eq

theorem securings_le (h : t.Lifts c op k u) : u.securings c ≤ t.securings c := by
  obtain ⟨below, eq⟩ := h.exists_pairings Bool.or_comm
  simp only [Bool.or_false, Bool.or_true, Bool.toNat_true, Bool.toNat_false] at eq
  simp only [securings]
  omega

end Lifts

/-- Swaps one after the other, each with the operation whose secure operand it lifts. -/
inductive SwapPath (c : Classifier) : List NodeId → Tree → Tree → Prop
  | nil {t u : Tree} (learns : t.Learns c u) : SwapPath c [] t u
  | cons {k : NodeId} {ks : List NodeId} {t u v : Tree} (first : t.SwappedAt c k u)
      (rest : SwapPath c ks u v) : SwapPath c (k :: ks) t v

theorem SwappedAt.typeable (h : t.SwappedAt c k u) (typeable : t.typeable c = true) :
    u.typeable c = true := by
  obtain ⟨op, t₁, t₂, -, before, lifts, after⟩ := h
  rw [after.typeable_eq]
  exact lifts.typeable (before.typeable_eq.trans typeable)

theorem typeable_of_swaps (h : Relation.ReflTransGen (Swapped c) t u)
    (typeable : t.typeable c = true) : u.typeable c = true := by
  induction h with
  | refl => exact typeable
  | tail _ step ih =>
    obtain ⟨k, swapped⟩ := step
    exact swapped.typeable ih

namespace SwapPath

theorem securePairs_eq (h : SwapPath c ks t u) : u.securePairs c = t.securePairs c := by
  induction h with
  | nil learns => exact learns.pairings_eq
  | cons first _ ih =>
    obtain ⟨op, t₁, t₂, -, before, lifts, after⟩ := first
    calc _ = _ := ih
      _ = t₂.securePairs c := after.pairings_eq
      _ = t₁.securePairs c := lifts.securePairs_eq
      _ = _ := before.pairings_eq

theorem securings_le (h : SwapPath c ks t u) : u.securings c ≤ t.securings c := by
  induction h with
  | nil learns => exact learns.pairings_eq.le
  | cons first _ ih =>
    obtain ⟨op, t₁, t₂, -, before, lifts, after⟩ := first
    calc _ ≤ _ := ih
      _ = t₂.securings c := after.pairings_eq
      _ ≤ t₁.securings c := lifts.securings_le
      _ = _ := before.pairings_eq

theorem hasClass_iff (h : SwapPath c ks t u) (other : i ∉ ks) :
    u.HasClass c i z ↔ t.HasClass c i z := by
  induction h with
  | nil learns => exact learns.hasClass_iff
  | cons first _ ih =>
    obtain ⟨op, t₁, t₂, -, before, lifts, after⟩ := first
    obtain ⟨ne, other⟩ := not_or.mp (mt List.mem_cons.mpr other)
    rw [ih other, after.hasClass_iff, lifts.hasClass_iff ne, before.hasClass_iff]

end SwapPath

theorem exists_hasClass (c : Classifier) (mem : i ∈ t.preorder) : ∃ z, t.HasClass c i z := by
  induction t with
  | nil => cases mem
  | missing j =>
    cases List.mem_singleton.mp mem
    exact ⟨_, _, .refl, rfl, rfl⟩
  | node id label child ih =>
    rcases (mem_preorder_node .left).mp mem with rfl | mem | mem
    · exact ⟨_, _, .refl, rfl, rfl⟩
    · obtain ⟨z, h⟩ := ih .left mem
      exact ⟨z, (hasClass_node .left).mpr (.inr (.inl h))⟩
    · obtain ⟨z, h⟩ := ih .right mem
      exact ⟨z, (hasClass_node .left).mpr (.inr (.inr h))⟩

end Tree

namespace Work

variable {c : Classifier} {b b₁ b' : Bench} {i root n : Nat} {t : Tree} {z : Option Bool}

theorem answer?_isSecure (h : b.forest.store.Owned (some root) t) (hasClass : t.HasClass c i z) :
    answer? (isSecure c i) b = z := by
  obtain ⟨u, sub, isI, rfl⟩ := hasClass
  have owned := h.sub sub
  rw [isI] at owned
  have ends := ends_isSecure (c := c) owned
  rw [answer?, result?]
  rcases run : isSecure c i b with ⟨secure, b'⟩ | ⟨e, b'⟩
  · exact (ends.of_ok run).1.symm
  · exact (ends.of_error run).1.symm

theorem exists_swapPath (h : b.forest.store.Owned (some root) t)
    (repeats : Repeats (reorderOnce c root) n b b₁)
    (last : reorderOnce c root b₁ = .ok false b') :
    ∃ ks u, ks.length = n ∧ b.Reworked (some root) t b' u ∧ Tree.SwapPath c ks t u := by
  induction repeats generalizing t with
  | zero b =>
    obtain ⟨-, u, reworked, learns⟩ := (ends_reorderOnce h).of_ok last
    exact ⟨[], u, rfl, reworked, .nil learns⟩
  | succ first _ ih =>
    obtain ⟨-, u, reworked, k, swapped⟩ := (ends_reorderOnce h).of_ok first
    obtain ⟨ks, v, length, reworked', path⟩ := ih reworked.owned last
    exact ⟨k :: ks, v, congrArg (· + 1) length, reworked.trans reworked', .cons swapped path⟩

theorem exists_reorderAll (h : b.forest.store.Owned (some root) t)
    (typeable : t.typeable c = true) :
    ∃ n b₁ b', reorderAll c root b = .ok (decide (0 < n)) b' ∧
      Repeats (reorderOnce c root) n b b₁ ∧ reorderOnce c root b₁ = .ok false b' := by
  obtain ⟨n, b₁, u, swaps⟩ := exists_swaps c h
  have last : Ends (reorderOnce c root) b₁
      (fun again b' => again = false ∧ reorderOnce c root b₁ = .ok false b')
      fun _ _ => False := by
    refine (swaps.last.and (Ends.run _ b₁)).imp ?_ ?_
    · rintro again b' ⟨⟨rfl, -⟩, run⟩
      exact ⟨rfl, run⟩
    · rintro e b' ⟨⟨-, untypeable, -⟩, -⟩
      have typeable' := Tree.typeable_of_swaps swaps.swapped typeable
      exact Bool.false_ne_true (untypeable.symm.trans typeable')
  obtain ⟨changed, b', run, rfl, run'⟩ :=
    (ends_reorderAll_of_repeats h swaps.repeats swaps.le_operations last).exists_ok
  exact ⟨n, b₁, b', run, swaps.repeats, run'⟩

end Work

variable {b : Bench} {root : Nat} {t : Tree}

/-- Where every node has a type, whatever types are kept, reordering ends well. It makes a number of
swaps, and all nodes but the operations whose secure operands these lift are found to be secure or
cheap as before. The operations on two secure operands are as many as before, and those on a secure
operand are no more. -/
theorem reorderAll_keeps_pairs (c : Classifier) (h : b.forest.store.Owned (some root) t)
    (typeable : t.typeable c = true) :
    ∃ (ks : List NodeId) (b' : Bench) (u : Tree),
      Work.reorderAll c root b = .ok (decide (0 < ks.length)) b' ∧
      b.Reworked (some root) t b' u ∧ Tree.SwapPath c ks t u ∧
      u.securePairs c = t.securePairs c ∧ u.securings c ≤ t.securings c ∧
      ∀ i ∈ t.preorder, i ∉ ks →
        answer? (Work.isSecure c i) b' = answer? (Work.isSecure c i) b := by
  obtain ⟨n, b₁, b', run, repeats, last⟩ := Work.exists_reorderAll h typeable
  obtain ⟨ks, u, rfl, reworked, path⟩ := Work.exists_swapPath h repeats last
  refine ⟨ks, b', u, run, reworked, path, path.securePairs_eq, path.securings_le, ?_⟩
  intro i mem other
  obtain ⟨z, before⟩ := Tree.exists_hasClass c mem
  have after := (path.hasClass_iff other).mpr before
  rw [Work.answer?_isSecure h before, Work.answer?_isSecure reworked.owned after]

/-- The product of `($0 + $1) + $2` and `$3`, where `$0` and `$3` are secrets and an old type is
kept for `$0 + $1`. -/
def Store.secretProduct : Store :=
  let op (op : Operator) (left right : NodeId) (memo : Option TypeName) : Node :=
    { op := some op, left := some left, right := some right, memo }
  let read (v : VarId) (type : TypeName) : Node := { origin := some ⟨v, some type, .var v⟩ }
  ⟨#[op .mul 1 2 none, op .add 3 4 (some "secret"), read 3 "secret", op .add 5 6 (some .int),
    read 2 .int, read 0 "secret", read 1 .int]⟩

theorem reorderAll_keeps_pairs_secretProduct :
    ∃ (b b' : Bench) (t u : Tree) (ks : List NodeId), b.forest.store = .secretProduct ∧
      b.forest.store.Owned (some 0) t ∧ t.typeable .ofSecrets = true ∧
      Work.reorderAll .ofSecrets 0 b = .ok true b' ∧ b.Reworked (some 0) t b' u ∧
      Tree.SwapPath .ofSecrets ks t u ∧ ks ≠ [] ∧ t.securePairs .ofSecrets = 1 ∧
      u.securePairs .ofSecrets = 1 ∧ t.securings .ofSecrets = 2 ∧ u.securings .ofSecrets ≤ 2 ∧
      ∀ i ∈ t.preorder, i ∉ ks →
        answer? (Work.isSecure .ofSecrets i) b' = answer? (Work.isSecure .ofSecrets i) b := by
  let b : Bench := { forest := { store := .secretProduct } }
  let t := b.forest.store.tree 0
  have owned : b.forest.store.Owned (some 0) t :=
    Store.owned_tree (by decide +kernel) (by decide +kernel)
  have typeable : t.typeable .ofSecrets = true := by decide +kernel
  have one : t.securePairs .ofSecrets = 1 := by decide +kernel
  have two : t.securings .ofSecrets = 2 := by decide +kernel
  have changes : answer? (Work.reorderAll .ofSecrets 0) b = some true := by decide +kernel
  obtain ⟨ks, b', u, run, reworked, path, pairs, securings, classes⟩ :=
    reorderAll_keeps_pairs .ofSecrets owned typeable
  have made : decide (0 < ks.length) = true := by
    simpa only [answer?, result?, run, Option.map_some, Option.some.injEq] using changes
  exact ⟨b, b', t, u, ks, rfl, owned, typeable, made ▸ run, reworked, path,
    List.ne_nil_of_length_pos (of_decide_eq_true made), one, pairs.trans one, two, two ▸ securings,
    classes⟩

end SecureArith
