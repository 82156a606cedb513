import Mathlib.Logic.Relation
import SecureArith.Proofs.Ends.Work
import SecureArith.Proofs.Factoring.Tally

set_option autoImplicit false

/-!
# Factoring sums

Factoring edits the store in place: the factors are taken out of their products by overwriting the
multiplications that they stand in, the later product is rebuilt, and the addition of the earlier
one is overwritten by its other term. The tree that this leaves is the merged sum.
-/

namespace SecureArith

namespace Store

variable {s : Store} {id : Nat} {t : Tree} {f g : Factor} {m k : Spot}

theorem ends_takeOut (stands : f.StandsAt t m) (nodup : t.preorder.Nodup)
    (h : s.Spans (some f.product) m.product) :
    Ends (takeOut f) s
      (fun _ s' => (∃ n, s' = s.update f.parent fun _ => n) ∧
        s'.Spans (some f.product) (m.rest f.parent))
      fun _ _ => False := by
  have once := stands.once nodup
  have parent : s.Spans (some f.parent) (.node f.parent m.times m.factor) := h.sub stands.parent.sub
  have siblingSub : m.sibling.Sub m.product :=
    Tree.Sub.trans (.child m.place.flip .refl) stands.parent.sub
  have sibling : s.Spans (some f.sibling) m.sibling := stands.sibling ▸ h.sub siblingSub
  obtain ⟨n, found⟩ := sibling.exists_get?
  obtain ⟨n', there⟩ := parent.exists_get?
  have other : f.parent ∉ m.sibling.preorder := stands.parent_notMem nodup m.place.flip
  have ne : f.parent ≠ f.sibling := fun eq =>
    other (eq ▸ Tree.mem_preorder_of_id? stands.sibling)
  refine (ends_overwrite found there ne).imp ?_ fun _ _ h => h
  rintro _ s' rfl
  refine ⟨⟨n, rfl⟩, h.graft (sibling.overwrite found (lt_size_of_get? there) other) ?_⟩
  intro i mem
  refine get?_update_of_ne fun eq => ?_
  exact Tree.notMem_graft_nil stands.parent.sub (once f.parent) (once i)
    (eq ▸ List.mem_cons_self) mem

structure TakenOut (s : Store) (id : NodeId) (t : Tree) (f g : Factor) (m k : Spot)
    (s' : Store) : Prop where
  size : s'.size = s.size
  frame : ∀ i ∉ t.preorder, s'.get? i = s.get? i
  whole : s'.Spans (some id) (t.rejoin f g k (m.rest f.parent))
  tree : s'.Spans (some f.id) f.tree
  later : s'.Owned (some f.product) (m.rest f.parent)
  earlier : s'.Owned (some g.product) (k.rest g.parent)

theorem ends_takeOut_both (h : s.Owned (some id) t) (twins : Twins t f g m k) :
    Ends (do takeOut g; takeOut f) s
      (fun _ s' => s.TakenOut id t f g m k s') fun _ _ => False := by
  have laterSpans : s.Spans (some f.product) m.product :=
    twins.later.product ▸ h.spans.sub twins.later.term.sub
  have earlierSpans : s.Spans (some g.product) k.product :=
    twins.earlier.product ▸ h.spans.sub twins.earlier.term.sub
  have treeSpans : s.Spans (some f.id) f.tree := twins.later.id ▸ h.spans.sub twins.later.tree_sub
  have treeSub : f.tree.Sub m.product := twins.later.tree ▸
    Tree.Sub.trans (.child m.place .refl) twins.later.parent.sub
  have parentLater : f.parent ∈ m.product.preorder := twins.later.parent.sub.mem List.mem_cons_self
  have parentEarlier : g.parent ∈ k.product.preorder :=
    twins.earlier.parent.sub.mem List.mem_cons_self
  rw [Ends.bind_iff]
  refine (ends_takeOut twins.earlier twins.nodup earlierSpans).imp ?_ fun _ _ h => h
  rintro _ s₁ ⟨⟨n₁, rfl⟩, rest₁⟩
  have keep₁ {u : Tree} {p : Option NodeId} (spans : s.Spans p u)
      (sub : ∀ i ∈ u.preorder, i ∈ m.product.preorder) :
      (s.update g.parent fun _ => n₁).Spans p u := spans.congr fun i mem =>
    get?_update_of_ne fun same => twins.apart i (sub i mem) (same ▸ parentEarlier)
  have whole₁ := h.spans.graft rest₁ fun i mem => get?_update_of_ne fun same =>
    twins.earlier.notMem_graft_nil twins.earlier.term.sub twins.once (same ▸ parentEarlier) mem
  refine (ends_takeOut twins.later twins.nodup (keep₁ laterSpans fun _ mem => mem)).imp ?_
    fun _ _ h => h
  rintro _ s₂ ⟨⟨n₂, rfl⟩, rest₂⟩
  refine ⟨by simp, ?_, ?_, ?_, ⟨rest₂, twins.later.nodup_rest twins.complete twins.nodup⟩,
    ⟨?_, twins.earlier.nodup_rest twins.complete twins.nodup⟩⟩
  · intro i other
    have notLater : i ≠ f.parent := fun same =>
      other (same ▸ twins.later.term.sub.mem parentLater)
    have notEarlier : i ≠ g.parent := fun same =>
      other (same ▸ twins.earlier.term.sub.mem parentEarlier)
    rw [get?_update_of_ne notLater, get?_update_of_ne notEarlier]
  · refine whole₁.graft rest₂ fun i mem => get?_update_of_ne fun same => ?_
    exact twins.later.notMem_graft_nil twins.term_taken.sub twins.once_taken
      (same ▸ parentLater) mem
  · refine (keep₁ treeSpans fun i => treeSub.mem).congr fun i mem => get?_update_of_ne ?_
    rintro rfl
    have mem : f.parent ∈ m.tree.preorder := twins.later.tree.symm ▸ mem
    exact twins.later.parent_notMem twins.nodup m.place mem
  · refine rest₁.congr fun i mem => get?_update_of_ne fun same => ?_
    exact twins.apart _ parentLater (same ▸ twins.rest_subset mem)

/-- `rest` is a copy of a tree and `sum` an addition of it, with indices that a store of this size
did not have. -/
structure Renewed (size : Nat) (t : Tree) (sum : NodeId) (rest : Tree) : Prop where
  alike : rest.anonymous = t.anonymous
  complete : rest.complete = true
  nodup : (sum :: rest.preorder).Nodup
  new : ∀ i ∈ sum :: rest.preorder, size ≤ i

theorem Renewed.fresh {u rest : Tree} {sum : NodeId} (renewed : Renewed s.size u sum rest)
    (h : s.Owned (some id) t) : Twins.Fresh t sum rest where
  sum mem := Nat.not_lt.mpr (renewed.new sum List.mem_cons_self) (h.spans.lt_size sum mem)
  rest i mem mem' :=
    Nat.not_lt.mpr (renewed.new i (List.mem_cons_of_mem sum mem')) (h.spans.lt_size i mem)

theorem ends_addCopy {a b : Nat} {x y : Tree} (hx : s.Owned (some a) x) (hy : s.Owned (some b) y) :
    Ends (do
        let rest ← copy a
        append { op := some .add, left := some rest, right := some b }) s
      (fun sum s' => ∃ rest, Renewed s.size x sum rest ∧ s.size ≤ s'.size ∧
        s'.Spans (some sum) (.node sum { op := some .add } (Tree.pair rest y)) ∧
        ∀ i < s.size, s'.get? i = s.get? i)
      fun _ _ => False := by
  rw [Ends.bind_iff]
  refine (ends_copy hx).imp ?_ fun _ _ h => h
  rintro c s₁ ⟨rest, copied⟩
  have grows := copied.turns.grows
  have apart : ∀ i ∈ rest.preorder, i ∉ y.preorder := fun i mem mem' =>
    copied.turns.apart_of_new hy.spans i mem' mem
  have split := split_alloc (n := { op := some .add, left := some c, right := some b })
    copied.owned (copied.turns.keeps_old hy) apart
  rw [ends_append]
  refine ⟨rest, ⟨copied.alike, copied.owned.spans.complete, ?_, ?_⟩, ?_, split.owned.spans, ?_⟩
  · exact List.nodup_cons.mpr ⟨split.above .left, copied.owned.nodup⟩
  · intro i mem
    rcases List.mem_cons.mp mem with rfl | mem
    · exact grows
    · exact (copied.turns.within i mem).resolve_left List.not_mem_nil
  · exact Nat.le_trans grows (turns_alloc s₁ _ .nil).grows
  · intro i lt
    rw [get?_alloc_of_lt (Nat.lt_of_lt_of_le lt grows), copied.turns.frame i lt List.not_mem_nil]

structure Rejoined (s : Store) (id : NodeId) (t : Tree) (f g : Factor) (k : Spot)
    (joint : Tree) (s' : Store) : Prop where
  grows : s.size ≤ s'.size
  frame : ∀ i < s.size, i ∉ t.preorder → s'.get? i = s.get? i
  whole : s'.Spans (some id) (t.rejoin f g k joint)

theorem ends_rejoin {s₂ : Store} (h : s.Owned (some id) t) (twins : Twins t f g m k)
    (taken : s.TakenOut id t f g m k s₂) :
    Ends (rejoin f g) s₂
      (fun _ s' => ∃ expanded sum rest, Renewed s.size (m.rest f.parent) sum rest ∧
        s.Rejoined id t f g k (f.joint expanded sum rest (k.rest g.parent)) s')
      fun _ _ => False := by
  have productMem := Tree.mem_preorder_of_id? twins.later.product
  have productLt : f.product < s.size := h.spans.lt_size _ (twins.later.term.sub.mem productMem)
  obtain ⟨n, found⟩ := taken.later.spans.exists_get?
  rw [rejoin, Ends.bind_iff]
  refine (Ends.bind_iff.mp (ends_addCopy taken.later taken.earlier)).imp (fun _ s₃ second => ?_)
    fun _ _ h => h
  rw [Ends.bind_iff]
  refine second.imp ?_ fun _ _ h => h
  rintro sum s₄ ⟨rest, renewed, grows, sumSpans, old⟩
  rw [taken.size] at renewed grows old
  refine ends_write (Nat.lt_of_lt_of_le productLt grows) ?_
  have joint : (s₄.update f.product fun n =>
      { n with op := some .mul, left := some f.id, right := some sum, origin := none,
               memo := none }).Spans (some f.product)
      (f.joint n.expanded sum rest (k.rest g.parent)) := by
    refine .node (n := { n with op := some .mul, left := some f.id, right := some sum,
                                origin := none, memo := none }) ?_ fun side => ?_
    · rw [get?_update, if_pos rfl, old f.product productLt, found]
      rfl
    · cases side with
      | left =>
        refine taken.tree.congr fun i mem => ?_
        have ne : i ≠ f.product := fun eq =>
          twins.later.product_notMem_tree twins.nodup (eq ▸ mem)
        rw [get?_update_of_ne ne, old i (taken.size ▸ taken.tree.lt_size i mem)]
      | right =>
        refine sumSpans.congr fun i mem => get?_update_of_ne ?_
        rintro rfl
        rw [Tree.preorder, ← List.cons_append] at mem
        rcases List.mem_append.mp mem with new | left
        · exact Nat.not_lt.mpr (renewed.new _ new) productLt
        · exact twins.later_notMem (twins.rest_subset left)
  have restRoot := twins.later.id?_rest twins.complete
  have restWhole := twins.later.complete_rest twins.complete
  have whole := taken.whole.graft joint fun i mem => by
    have ne : i ≠ f.product := by
      rintro rfl
      rw [Tree.rejoin, Tree.graft_graft restWhole restRoot] at mem
      exact twins.later.notMem_graft_nil twins.term_taken.sub twins.once_taken productMem mem
    have lt := taken.whole.lt_size i (Tree.mem_of_mem_graft_nil mem)
    rw [get?_update_of_ne ne, old i (taken.size ▸ lt)]
  rw [Tree.rejoin, Tree.graft_graft restWhole restRoot] at whole
  refine ⟨n.expanded, sum, rest, renewed, ?_, fun i lt other => ?_, whole⟩
  · rwa [size_update]
  · have ne : i ≠ f.product := fun same => other (same ▸ twins.later.term.sub.mem productMem)
    rw [get?_update_of_ne ne, old i lt, taken.frame i other]

theorem ends_dropEarlier {s₅ : Store} {joint : Tree} (twins : Twins t f g m k)
    (root : joint.id? = some f.product) (once : (t.rejoin f g k joint).preorder.count g.sum ≤ 1)
    (whole : s₅.Spans (some id) (t.rejoin f g k joint)) :
    Ends (overwrite g.sum g.tail) s₅
      (fun _ s' => (∃ n, s' = s₅.update g.sum fun _ => n) ∧
        s'.Spans (some id) (t.merge f g k joint))
      fun _ _ => False := by
  obtain ⟨child, term, -, tail⟩ := twins.term_rejoin joint (Tree.isNil_of_id? root)
  have tailRoot : (k.tail.graft f.product joint).id? = some g.tail :=
    (Tree.id?_graft root k.tail).trans twins.earlier.tail
  have tailSpans : s₅.Spans (some g.tail) (k.tail.graft f.product joint) := by
    rw [← tailRoot, ← tail]
    exact whole.sub (Tree.Sub.trans (.child k.side.flip .refl) term.sub)
  have other : g.sum ∉ (k.tail.graft f.product joint).preorder :=
    tail ▸ term.sub.notMem_child once k.side.flip
  have ne : g.sum ≠ g.tail := fun eq => other (eq ▸ Tree.mem_preorder_of_id? tailRoot)
  obtain ⟨n, found⟩ := tailSpans.exists_get?
  obtain ⟨n', there⟩ := (whole.sub term.sub).exists_get?
  refine (ends_overwrite found there ne).imp ?_ fun _ _ h => h
  rintro _ s' rfl
  refine ⟨⟨n, rfl⟩, whole.graft (tailSpans.overwrite found (lt_size_of_get? there) other) ?_⟩
  intro i mem
  refine get?_update_of_ne fun same => ?_
  exact Tree.notMem_graft_nil term.sub once once List.mem_cons_self (same ▸ mem)

theorem ends_factorOut (h : s.Owned (some id) t) (twins : Twins t f g m k) :
    Ends (factorOut ⟨id, f, g⟩) s
      (fun _ s' => ∃ expanded sum rest, Twins.Fresh t sum rest ∧
        rest.anonymous = (m.rest f.parent).anonymous ∧
        s'.Owned (some id) (t.merge f g k (f.joint expanded sum rest (k.rest g.parent))) ∧
        s.Turns t s' (t.merge f g k (f.joint expanded sum rest (k.rest g.parent))))
      fun _ _ => False := by
  rw [factorOut, Ends.bind_iff]
  refine (Ends.bind_iff.mp (ends_takeOut_both h twins)).imp (fun _ s₁ second => ?_) fun _ _ h => h
  rw [Ends.bind_iff]
  refine second.imp ?_ fun _ _ h => h
  rintro _ s₂ taken
  rw [Ends.bind_iff]
  refine (ends_rejoin h twins taken).imp ?_ fun _ _ h => h
  rintro _ s₅ ⟨expanded, sum, rest, renewed, joined⟩
  have fresh := renewed.fresh h
  refine (ends_dropEarlier twins rfl (twins.count_sum_rejoin fresh) joined.whole).imp ?_
    fun _ _ h => h
  rintro _ s₆ ⟨⟨n, rfl⟩, whole⟩
  have sumMem : g.sum ∈ t.preorder := twins.earlier.sum.sub.mem List.mem_cons_self
  refine ⟨expanded, sum, rest, fresh, renewed.alike,
    ⟨whole, twins.nodup_merge fresh renewed.complete renewed.nodup⟩,
    ⟨?_, fun i lt notIn => ?_, fun i mem => ?_⟩⟩
  · rw [size_update]
    exact joined.grows
  · have ne : i ≠ g.sum := fun eq => notIn (eq ▸ sumMem)
    rw [get?_update_of_ne ne, joined.frame i lt notIn]
  · exact (twins.mem_merge fresh renewed.complete mem).imp_right (renewed.new i)

end Store

namespace Tree

/-- The factoring that is made stands in one of the topmost sums. -/
inductive Factorable : Tree → Factoring → Prop
  | sum {s : Tree} {f g : Factor} {m k : Spot} {id : NodeId} (root : s.id? = some id)
      (twins : Twins s f g m k) (same : f.tree.same? g.tree = some true) :
      Factorable s ⟨id, f, g⟩
  | child {id : NodeId} {label : Label} {child : Side → Tree} {f : Factoring} (side : Side)
      (h : Factorable (child side) f) : Factorable (.node id label child) f

/-- The search for a factoring has an answer, and what it finds can be made. -/
theorem factoring?_eq {t : Tree} (whole : t.complete = true) (nodup : t.preorder.Nodup) :
    t.factoring? = some none ∨ ∃ f, t.factoring? = some (some f) ∧ t.Factorable f := by
  induction t with
  | nil => exact .inl rfl
  | missing => simp [complete] at whole
  | node id label child ih =>
    rw [factoring?]
    by_cases isAdd : label.isOp .add = true
    · rw [if_pos isAdd]
      rcases matchingFactors?_eq whole with none | ⟨f, g, found, ⟨m, hf⟩, ⟨k, hg⟩, differ, same⟩
      · exact .inl (by rw [none]; rfl)
      · exact .inr ⟨⟨id, f, g⟩, by rw [found]; rfl, .sum rfl ⟨whole, nodup, hf, hg, differ⟩ same⟩
    · have below (side : Side) := ih side ((Sub.child (u := child side) side .refl).complete whole)
        (nodup.sublist (Sub.child (u := child side) side .refl).sublist)
      rw [if_neg isAdd]
      rcases below .left with none | ⟨f, found, h⟩
      · rcases below .right with none' | ⟨f, found, h⟩
        · exact .inl (by rw [none, none']; rfl)
        · exact .inr ⟨f, by rw [none, found]; rfl, .child .right h⟩
      · exact .inr ⟨f, by rw [found]; rfl, .child .left h⟩

theorem Factorable.sub {t : Tree} {f : Factoring} (h : t.Factorable f) :
    (∃ s : Tree, s.Sub t ∧ s.id? = some f.sum) ∧
      ∃ u : Tree, u.Sub t ∧ u.id? = some f.later.id := by
  induction h with
  | sum root twins _ => exact ⟨⟨_, .refl, root⟩, _, twins.later.tree_sub, twins.later.id⟩
  | child side _ ih =>
    obtain ⟨⟨s, sub, root⟩, u, sub', root'⟩ := ih
    exact ⟨⟨s, .child side sub, root⟩, u, .child side sub', root'⟩

end Tree

namespace Store

variable {s : Store} {p : Option NodeId} {t : Tree} {f : Factoring}

theorem ends_factorOut_of_factorable (h : s.Owned p t) (factorable : t.Factorable f) :
    Ends (factorOut f) s
      (fun _ s' => ∃ u, s'.Owned p u ∧ s.Turns t s' u ∧ t.Factored u ∧
        t.Sheds f.earlier.tree u ∧ ∃ v : Tree, v.Sub u ∧ v.id? = some f.sum)
      fun _ _ => False := by
  induction factorable generalizing p with
  | @sum t f g m k id root twins same =>
    have place := h.spans.id?_eq.symm.trans root
    rw [place] at h ⊢
    refine (ends_factorOut h twins).imp ?_ fun _ _ h => h
    rintro _ s' ⟨expanded, sum, rest, fresh, alike, owned, turns⟩
    exact ⟨_, owned, turns, .sum expanded twins same fresh alike,
      fun M _ w => twins.tally_merge fresh alike expanded, _, .refl, owned.spans.id?_eq⟩
  | @child id label child f side _ ih =>
    have place := h.spans.id?_eq.symm
    rw [place] at h ⊢
    obtain ⟨n, l, r, eq, split⟩ := Owned.split h
    cases eq
    cases side with
    | left =>
      refine (ih split.left).imp ?_ fun _ _ h => h
      rintro _ s' ⟨l', owned, turns, factored, sheds, v, sub, root⟩
      obtain ⟨split', turns'⟩ := split.turn .left turns owned rfl
      exact ⟨_, split'.owned, turns', .left _ _ r factored, .child (Tree.pair l r) (Tree.pair l' r)
        .left sheds factored.isNil_eq.1 factored.isNil_eq.2 rfl id n.toLabel, v, .child .left sub,
        root⟩
    | right =>
      refine (ih split.right).imp ?_ fun _ _ h => h
      rintro _ s' ⟨r', owned, turns, factored, sheds, v, sub, root⟩
      obtain ⟨split', turns'⟩ := split.turn .right turns owned rfl
      exact ⟨_, split'.owned, turns', .right _ _ l factored, .child (Tree.pair l r) (Tree.pair l r')
        .right sheds factored.isNil_eq.1 factored.isNil_eq.2 rfl id n.toLabel, v,
        .child .right sub, root⟩

end Store

namespace Work

variable {b : Bench} {root : Nat} {t : Tree}

theorem ends_factorOnce (h : b.forest.store.Owned (some root) t) :
    Ends (factorOnce root) b
      (fun changed b' => if changed then ∃ u, b.Reworked (some root) t b' u ∧ t.Factored u ∧
          ∃ f, t.factoring? = some (some f) ∧ t.Sheds f.earlier.tree u
        else b' = b ∧ t.factoring? = some none)
      fun _ _ => False := by
  rw [factorOnce, Ends.bind_iff, ends_tree, h.tree_eq, Ends.bind_iff]
  rcases Tree.factoring?_eq h.spans.complete h.nodup with none | ⟨f, found, factorable⟩
  · rw [none]
    exact ⟨rfl, rfl⟩
  · rw [found]
    obtain ⟨⟨s, sumSub, sumRoot⟩, u, laterSub, laterRoot⟩ := factorable.sub
    have later := h.sub laterSub
    have sum := h.sub sumSub
    rw [laterRoot] at later
    rw [sumRoot] at sum
    change Ends (noteAt .debug _ >>= _) b _ _
    rw [Ends.bind_iff]
    refine ends_noteAt ?_ fun journal => ?_
    · rw [Ends.bind_iff]
      refine ends_shown later.spans later.height_le ?_
      rw [Ends.bind_iff]
      exact ends_shown sum.spans sum.height_le rfl
    · rw [Ends.bind_iff, ends_onStore]
      refine (Store.ends_factorOut_of_factorable h factorable).imp ?_ fun _ _ h => h
      rintro _ s' ⟨u, owned, turns, factored, sheds, v, sub, sumRoot'⟩
      have sum' := owned.sub sub
      rw [sumRoot'] at sum'
      rw [Ends.bind_iff]
      refine ends_noteAt ?_ fun journal' => ?_
      · rw [Ends.bind_iff]
        exact ends_shown sum'.spans sum'.height_le rfl
      · exact ⟨u, ⟨⟨rfl, owned, turns⟩, rfl⟩, factored, f, rfl, sheds⟩

/-- A tree is factored a number of times, until nothing is left to factor. -/
structure Factorings (root : NodeId) (b : Bench) (t : Tree) (n : Nat) (b' : Bench) (u : Tree) :
    Prop where
  repeats : Repeats (factorOnce root) n b b'
  last : factorOnce root b' = .ok false b'
  reworked : b.Reworked (some root) t b' u
  factored : Relation.ReflTransGen Tree.Factored t u
  none : u.factoring? = some none
  saved : u.count .mul + n ≤ t.count .mul

/-- Every factoring saves a multiplication, so there is a last one. -/
theorem exists_factorings (h : b.forest.store.Owned (some root) t) :
    ∃ n b' u, Factorings root b t n b' u := by
  let left (n : Nat) (b' : Bench) : Prop := ∃ u, b.Reworked (some root) t b' u ∧
    Relation.ReflTransGen Tree.Factored t u ∧ u.count .mul = n
  have step (n : Nat) (b' : Bench) (h' : left n b') :
      Ends (factorOnce root) b' (fun again b'' => again = true → ∃ m < n, left m b'')
        fun _ _ => True := by
    obtain ⟨u, reworked, steps, rfl⟩ := h'
    refine (ends_factorOnce reworked.owned).imp ?_ fun _ _ _ => trivial
    rintro _ b'' result rfl
    obtain ⟨v, reworked', factored, f, -, sheds⟩ := result
    have fewer := sheds.count_eq .mul
    rw [if_pos rfl] at fewer
    exact ⟨_, by omega, v, reworked.trans reworked', steps.tail factored, rfl⟩
  obtain ⟨n, m, b', bound, repeats, ⟨u, reworked, steps, rfl⟩, done⟩ :=
    Repeats.exists_last step ⟨t, .refl h, .refl, rfl⟩
  obtain ⟨again, b'', last, result⟩ := (ends_factorOnce reworked.owned).exists_ok
  obtain rfl : again = false := done.of_ok last
  obtain ⟨same, none⟩ := result
  exact ⟨n, b', u, repeats, same ▸ last, reworked, steps, none, by omega⟩

/-- With more attempts than factorings, the factorings are what is done. -/
theorem Factorings.factorUpTo_eq {b' : Bench} {n k : Nat}
    (repeats : Repeats (factorOnce root) n b b') (last : factorOnce root b' = .ok false b')
    (enough : n < k) (changed : Bool) :
    factorUpTo root k changed b = .ok (changed || decide (0 < n)) b' := by
  induction repeats generalizing k changed with
  | zero b =>
    obtain ⟨k, rfl⟩ : ∃ j, k = j + 1 := ⟨k - 1, by omega⟩
    simp [factorUpTo, bind, EStateM.bind, last, pure, EStateM.pure]
  | @succ n b b₁ b' first rest ih =>
    obtain ⟨k, rfl⟩ : ∃ j, k = j + 1 := ⟨k - 1, by omega⟩
    have next := ih last (by omega : n < k) true
    simp [factorUpTo, bind, EStateM.bind, first, next]

theorem count_mul_lt (h : b.forest.store.Owned (some root) t) :
    t.count .mul < 1 <<< (b.forest.store.size + 1) := by
  have small := b.forest.store.size_unfold_lt b.forest.store.size root
  rw [← Store.tree, h.tree_eq] at small
  exact Nat.lt_of_le_of_lt (t.count_le_size .mul) small

theorem Factorings.ends_factorAll {b' : Bench} {u : Tree} {n : Nat} (c : Classifier)
    (h : b.forest.store.Owned (some root) t) (made : Factorings root b t n b' u) :
    Ends (factorAll c root) b
      (fun changed b'' => changed = decide (0 < n) ∧ ∃ v, b.Reworked (some root) t b'' v ∧
        v.untyped = u.untyped ∧ (changed = false → v = t))
      fun e b'' => e.kind = .type ∧ 0 < n ∧ ∃ v, b.Reworked (some root) t b'' v ∧
        v.untyped = u.untyped := by
  have saved := made.saved
  have enough : n < 1 <<< (b.forest.store.size + 1) :=
    Nat.lt_of_le_of_lt (by omega) (count_mul_lt h)
  have steps := factorUpTo_eq made.repeats made.last enough false
  rw [factorAll, Ends.bind_iff, Ends.get_iff, Ends.bind_iff, Ends, steps, Bool.false_or]
  by_cases some : 0 < n
  · rw [decide_eq_true some]
    change Ends (typeAt c true root >>= _) b' _ _
    rw [Ends.bind_iff]
    refine (ends_typeAt made.reworked.owned).imp ?_ ?_
    · rintro _ b'' ⟨-, -, typed⟩
      exact ⟨rfl, _, made.reworked.trans typed, Tree.untyped_typed u, by simp⟩
    · rintro e b'' ⟨-, kind, v, typed, same⟩
      exact ⟨kind, some, v, made.reworked.trans typed, same⟩
  · rw [decide_eq_false some]
    obtain rfl : n = 0 := by omega
    obtain ⟨repeats, -, reworked, -, -, -⟩ := made
    cases repeats
    have same : u = t := reworked.owned.tree_eq.symm.trans h.tree_eq
    exact ⟨rfl, u, reworked, rfl, fun _ => same⟩

end Work

end SecureArith
