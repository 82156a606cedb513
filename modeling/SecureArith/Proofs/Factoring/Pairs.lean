import Mathlib.Data.List.Flatten
import SecureArith.Proofs.Equality
import SecureArith.Proofs.Factoring.Saving

set_option autoImplicit false

/-!
# What the search for equal factors finds

The chains of a sum are the multiplications among the operands of its additions, and the factors of
a chain are the other operands of its multiplications. The search goes through the factors chain by
chain. It finds two equal factors of different chains, the later one first, and it finds none only
where there are none. So no topmost sum has any after factoring, and factoring again does nothing.
-/

namespace SecureArith

theorem sublist_pair_of_mem {α : Type} {l : List α} {a b : α} (ha : a ∈ l) (hb : b ∈ l)
    (ne : a ≠ b) : [a, b].Sublist l ∨ [b, a].Sublist l := by
  induction l with
  | nil => exact absurd ha List.not_mem_nil
  | cons c l ih =>
    rcases List.mem_cons.mp ha with rfl | later
    · have later := (List.mem_cons.mp hb).resolve_left ne.symm
      exact .inl ((List.singleton_sublist.mpr later).cons_cons a)
    · rcases List.mem_cons.mp hb with rfl | hb
      · exact .inr ((List.singleton_sublist.mpr later).cons_cons b)
      · exact (ih later hb).imp (·.cons c) (·.cons c)

namespace Tree

variable {op : Operator} {s t u c c' f g : Tree} {i : NodeId} {label : Label} {child : Side → Tree}

/-- An operand of an operation of two operands that is reached through such operations. -/
def OperandOf (op : Operator) (t u : Tree) : Prop :=
  ∃ id label child side, Term op (.node id label child) t ∧ label.isOp op = true ∧
    bothThere child = true ∧ child side = u

/-- A multiplication among the terms of a sum. -/
def Chain (s c : Tree) : Prop := OperandOf .add s c ∧ c.isOp .mul = true

def FactorOf (c f : Tree) : Prop := OperandOf .mul c f ∧ f.isOp .mul = false

/-- The terms of a sum in the order in which they are searched. -/
def terms : Tree → List Tree
  | .node _ label child =>
    if bothThere child && label.isOp .add then
      (child .left :: (child .left).terms) ++ (child .right :: (child .right).terms)
    else []
  | _ => []

/-- The factors of a sum in the order in which they are visited: chain by chain, and the operands of
a multiplication before those below it. -/
def searchOrder (s : Tree) : List Tree := s.terms.flatMap factors

def Across (s f g : Tree) : Prop :=
  ∃ c c', s.Chain c ∧ s.Chain c' ∧ c ≠ c' ∧ c.FactorOf f ∧ c'.FactorOf g

/-- Equal factors of different chains, the first one visited after the second one. -/
structure Coupled (s f g : Tree) : Prop where
  across : s.Across f g
  later : [g, f].Sublist s.searchOrder
  same : f.same? g = some true

/-- An addition with no addition above it. -/
inductive Topmost (s : Tree) : Tree → Prop
  | root (isAdd : s.isOp .add = true) : Topmost s s
  | child {id : NodeId} {label : Label} {child : Side → Tree} (side : Side)
      (other : label.isOp .add = false) (h : Topmost s (child side)) :
      Topmost s (.node id label child)

theorem bothThere_eq (side : Side) :
    bothThere child = (!(child side).isNil && !(child side.flip).isNil) := by
  cases side with
  | left => rfl
  | right => exact Bool.and_comm _ _

theorem isNil_of_bothThere (both : bothThere child = true) (side : Side) :
    (child side).isNil = false := by
  rw [bothThere_eq side, Bool.and_eq_true, Bool.not_eq_true'] at both
  exact both.1

namespace OperandOf

theorem term (h : OperandOf op t u) : Term op u t := by
  obtain ⟨id, label, child, side, term, isOp, both, rfl⟩ := h
  exact Term.trans (.step side isOp (isNil_of_bothThere both _) .refl) term

theorem isNil_eq (h : OperandOf op t u) : u.isNil = false := by
  obtain ⟨id, label, child, side, -, -, both, rfl⟩ := h
  exact isNil_of_bothThere both side

theorem node_iff : OperandOf op (.node i label child) u ↔
    (bothThere child && label.isOp op) = true ∧
      ∃ side, u = child side ∨ OperandOf op (child side) u := by
  constructor
  · rintro ⟨id, label', child', side, term, isOp, both, rfl⟩
    cases term with
    | refl => exact ⟨Bool.and_eq_true_iff.mpr ⟨both, isOp⟩, side, .inl rfl⟩
    | step side' isOp' beside term =>
      have there := term.isNil_eq rfl
      have both' : bothThere child = true := by rw [bothThere_eq side', there, beside]; rfl
      exact ⟨Bool.and_eq_true_iff.mpr ⟨both', isOp'⟩, side', .inr
        ⟨id, label', child', side, term, isOp, both, rfl⟩⟩
  · rintro ⟨root, side, rfl | ⟨id, label', child', side', term, isOp, both, rfl⟩⟩
    · obtain ⟨both, isOp⟩ := Bool.and_eq_true_iff.mp root
      exact ⟨i, label, child, side, .refl, isOp, both, rfl⟩
    · obtain ⟨both', isOp'⟩ := Bool.and_eq_true_iff.mp root
      exact ⟨id, label', child', side', .step side isOp' (isNil_of_bothThere both' _) term, isOp,
        both, rfl⟩

end OperandOf

theorem not_operandOf_nil : ¬ OperandOf op .nil u := by
  rintro ⟨id, label, child, side, term, -⟩
  cases term

theorem not_operandOf_missing : ¬ OperandOf op (.missing i) u := by
  rintro ⟨id, label, child, side, term, -⟩
  cases term

theorem exists_side {P : Side → Prop} : (∃ side, P side) ↔ P .left ∨ P .right := by
  constructor
  · rintro ⟨_ | _, h⟩
    · exact .inl h
    · exact .inr h
  · rintro (h | h)
    · exact ⟨.left, h⟩
    · exact ⟨.right, h⟩

theorem mem_terms : u ∈ s.terms ↔ OperandOf .add s u := by
  induction s with
  | nil => exact iff_of_false List.not_mem_nil not_operandOf_nil
  | missing => exact iff_of_false List.not_mem_nil not_operandOf_missing
  | node i label child ih =>
    rw [OperandOf.node_iff, terms, exists_side, ← ih, ← ih]
    split
    · rename_i root
      simp [root, or_assoc]
    · rename_i root
      simp [root]

theorem products_eq (s : Tree) : s.products = s.terms.map factors := by
  induction s with
  | nil | missing => rfl
  | node i label child ih =>
    rw [products, terms]
    split
    · simp [ih]
    · rfl

theorem mem_asFactor (whole : u.complete = true) (there : u.isNil = false) :
    f ∈ u.asFactor ↔ f = u ∧ f.isOp .mul = false := by
  cases u with
  | nil => cases there
  | missing => exact absurd whole Bool.false_ne_true
  | node i label child =>
    rw [asFactor]
    split
    · rename_i isMul
      refine iff_of_false List.not_mem_nil ?_
      rintro ⟨rfl, other⟩
      exact Bool.false_ne_true (other.symm.trans isMul)
    · rename_i other
      rw [List.mem_singleton]
      refine ⟨?_, And.left⟩
      rintro rfl
      exact ⟨rfl, Bool.eq_false_iff.mpr other⟩

theorem mem_factors (whole : c.complete = true) : f ∈ c.factors ↔ c.FactorOf f := by
  induction c with
  | nil => exact iff_of_false List.not_mem_nil fun h => not_operandOf_nil h.1
  | missing => exact absurd whole Bool.false_ne_true
  | node i label child ih =>
    simp only [complete, Bool.and_eq_true] at whole
    unfold FactorOf at ih ⊢
    rw [OperandOf.node_iff, factors, exists_side]
    split
    · rename_i root
      have there := isNil_of_bothThere (Bool.and_eq_true_iff.mp root).1
      simp only [List.mem_append, mem_asFactor whole.1 (there .left),
        mem_asFactor whole.2 (there .right), ih .left whole.1, ih .right whole.2, root, true_and]
      tauto
    · rename_i root
      simp [root]

theorem isOp_of_factors (mem : f ∈ c.factors) : c.isOp .mul = true := by
  cases c with
  | nil | missing => exact absurd mem List.not_mem_nil
  | node i label child =>
    rw [factors] at mem
    split at mem
    · rename_i root
      exact (Bool.and_eq_true_iff.mp root).2
    · exact absurd mem List.not_mem_nil

theorem terms_sublist (s : Tree) : (s.terms.filterMap id?).Sublist s.preorder.tail := by
  induction s with
  | nil | missing => exact List.nil_sublist _
  | node i label child ih =>
    rw [terms, preorder, List.tail_cons]
    split
    · have part (side : Side) : ((child side :: (child side).terms).filterMap id?).Sublist
          (child side).preorder := by
        have below := ih side
        cases place : child side with
        | nil => exact List.nil_sublist _
        | missing id => exact List.Sublist.refl [id]
        | node id label' child' =>
          rw [place] at below
          exact below.cons_cons id
      rw [List.filterMap_append]
      exact (part .left).append (part .right)
    · exact List.nil_sublist _

namespace Chain

theorem term (h : s.Chain c) : Term .add c s := h.1.term

theorem complete (h : s.Chain c) (whole : s.complete = true) : c.complete = true :=
  h.term.sub.complete whole

theorem eq_of_factorOf (nodup : s.preorder.Nodup) (h : s.Chain c) (h' : s.Chain c')
    (factor : c.FactorOf f) (factor' : c'.FactorOf f) : c = c' := by
  have other (c : Tree) (h : s.Chain c) : c.isOp .add = false := isOp_add_of_mul h.2
  rcases h.term.apart h'.term (other c h) (other c' h') nodup with same | apart
  · exact same
  · have there := factor.1.isNil_eq
    cases root : f.id? with
    | none => exact absurd (isNil_of_id?_none root) (Bool.eq_false_iff.mp there)
    | some i =>
      have mem := mem_preorder_of_id? root
      exact absurd (factor'.1.term.sub.mem mem) (apart i (factor.1.term.sub.mem mem))

end Chain

theorem chain_of_mem_factors (whole : s.complete = true) (mem : c ∈ s.terms)
    (factor : f ∈ c.factors) : s.Chain c ∧ c.FactorOf f := by
  have chain : s.Chain c := ⟨mem_terms.mp mem, isOp_of_factors factor⟩
  exact ⟨chain, (mem_factors (chain.complete whole)).mp factor⟩

theorem mem_searchOrder (whole : s.complete = true) :
    f ∈ s.searchOrder ↔ ∃ c, s.Chain c ∧ c.FactorOf f := by
  rw [searchOrder, List.mem_flatMap]
  constructor
  · rintro ⟨c, mem, factor⟩
    exact ⟨c, chain_of_mem_factors whole mem factor⟩
  · rintro ⟨c, chain, factor⟩
    exact ⟨c, mem_terms.mpr chain.1, (mem_factors (chain.complete whole)).mpr factor⟩

/-- No product has a factor of an earlier one exactly where no factors are coupled. -/
theorem pairwise_unlike_iff (whole : s.complete = true) (nodup : s.preorder.Nodup) :
    s.products.Pairwise Unlike ↔ ¬ ∃ f g, s.Coupled f g := by
  have chain {c f : Tree} (mem : c ∈ s.terms) (factor : f ∈ c.factors) :=
    chain_of_mem_factors whole mem factor
  rw [products_eq, List.pairwise_map]
  constructor
  · rintro unlike ⟨f, g, coupled⟩
    have pairs : s.searchOrder.Pairwise fun g f => s.Across f g → f.same? g ≠ some true := by
      refine List.pairwise_flatMap.mpr ⟨fun c mem => ?_, unlike.imp fun unlike g hg f hf _ => ?_⟩
      · refine List.pairwise_of_forall_mem_list fun g hg f hf => ?_
        rintro ⟨c₁, c₂, isChain, isChain', ne, factor, factor'⟩
        obtain ⟨here, isF⟩ := chain mem hf
        obtain ⟨-, isG⟩ := chain mem hg
        refine absurd ?_ ne
        exact (isChain.eq_of_factorOf nodup here factor isF).trans
          (here.eq_of_factorOf nodup isChain' isG factor')
      · exact unlike g hg f hf
    have pair := pairs.sublist coupled.later
    exact (List.pairwise_cons.mp pair).1 f (List.mem_singleton_self f) coupled.across coupled.same
  · intro none
    refine List.pairwise_iff_forall_sublist.mpr fun {c c'} pair g hg f hf same => none ⟨f, g, ?_⟩
    obtain ⟨isChain, isG⟩ := chain (pair.subset List.mem_cons_self) hg
    obtain ⟨isChain', isF⟩ := chain (pair.subset (List.mem_cons_of_mem _ List.mem_cons_self)) hf
    have order : [g, f].Sublist s.searchOrder := by
      have groups : (c.factors ++ c'.factors).Sublist s.searchOrder := by
        simpa [searchOrder] using pair.flatMap factors
      exact ((List.singleton_sublist.mpr hg).append (List.singleton_sublist.mpr hf)).trans groups
    refine ⟨⟨c', c, isChain', isChain, ?_, isF, isG⟩, order, same⟩
    rintro rfl
    have ids := (pair.filterMap id?).trans (terms_sublist s)
    have distinct := (nodup.sublist (List.tail_sublist _)).sublist ids
    cases c' with
    | nil => cases isChain.1.isNil_eq
    | missing | node => simp [id?] at distinct

theorem map_tree_flatten (s : Tree) : s.sumVisits.flatten.map (·.tree) = s.searchOrder := by
  rw [List.map_flatten, map_tree_sumVisits, products_eq]
  rfl

theorem Across.order (whole : s.complete = true) (nodup : s.preorder.Nodup) (h : s.Across f g) :
    [g, f].Sublist s.searchOrder ∨ [f, g].Sublist s.searchOrder := by
  obtain ⟨c, c', chain, chain', ne, factor, factor'⟩ := h
  refine sublist_pair_of_mem ((mem_searchOrder whole).mpr ⟨c', chain', factor'⟩)
    ((mem_searchOrder whole).mpr ⟨c, chain, factor⟩) ?_
  rintro rfl
  exact ne (chain.eq_of_factorOf nodup chain' factor factor')

theorem Across.symm (h : s.Across f g) : s.Across g f := by
  obtain ⟨c, c', chain, chain', ne, factor, factor'⟩ := h
  exact ⟨c', c, chain', chain, ne.symm, factor', factor⟩

theorem Across.sub (h : s.Across f g) : f.Sub s := by
  obtain ⟨c, -, chain, -, -, factor, -⟩ := h
  exact factor.1.term.sub.trans chain.term.sub

/-- Where operations are tagged, it does not matter which of two equal factors comes first. -/
theorem exists_coupled_iff (whole : s.complete = true) (nodup : s.preorder.Nodup)
    (tagged : s.tagged = true) :
    (∃ f g, s.Coupled f g) ↔ ∃ f g, s.Across f g ∧ f.same? g = some true := by
  constructor
  · rintro ⟨f, g, coupled⟩
    exact ⟨f, g, coupled.across, coupled.same⟩
  · rintro ⟨f, g, across, same⟩
    have comparable {f : Tree} (sub : f.Sub s) : f.Comparable :=
      ⟨sub.complete whole, sub.tagged tagged⟩
    rcases across.order whole nodup with order | order
    · exact ⟨f, g, across, order, same⟩
    · refine ⟨g, f, across.symm, order, ?_⟩
      exact same?_symm (comparable across.sub) (comparable across.symm.sub) same

end Tree

namespace Factor

variable {f g : Factor} {s : Tree} {m : Spot}

theorem StandsAt.chain (h : f.StandsAt s m) (other : f.tree.isOp .mul = false) :
    s.Chain m.product ∧ m.product.FactorOf f.tree := by
  have terms : Tree.bothThere m.term = true := by
    rw [Tree.bothThere_eq m.side, ← Spot.product, ← Spot.tail, Tree.isNil_of_id? h.product,
      Tree.isNil_of_id? h.tail]
    rfl
  have factors : Tree.bothThere m.factor = true := by
    rw [Tree.bothThere_eq m.place, ← Spot.tree, ← Spot.sibling, h.tree, Tree.isNil_of_id? h.id,
      Tree.isNil_of_id? h.sibling]
    rfl
  exact ⟨⟨⟨_, _, _, m.side, h.sum, h.plus, terms, rfl⟩, h.product_isOp⟩,
    ⟨_, _, _, m.place, h.parent, h.times, factors, h.tree⟩, other⟩

end Factor

namespace Tree

variable {s t : Tree} {f g : Factor}

/-- What the search finds are equal factors of different chains, the later one first. -/
theorem coupled_of_matchingFactors? (whole : s.complete = true) (nodup : s.preorder.Nodup)
    (found : s.matchingFactors? = some (some (f, g))) :
    s.Coupled f.tree g.tree ∧ f.tree.id? = some f.id ∧ g.tree.id? = some g.id := by
  have order : [g.tree, f.tree].Sublist s.searchOrder := by
    have search := ends_searchSum whole nodup
    cases run : s.searchSum {} with
    | ok => simp [matchingFactors?, run] at found
    | error e =>
      obtain ⟨f', g', finds, order, -⟩ := search.of_error run
      cases found.symm.trans (matchingFactors?_of_finds run finds)
      exact map_tree_flatten s ▸ order.map Factor.tree
  have other {u : Tree} (mem : u ∈ [g.tree, f.tree]) : u.isOp .mul = false := by
    obtain ⟨c, -, factor⟩ := (mem_searchOrder whole).mp (order.subset mem)
    exact factor.2
  obtain none | ⟨f', g', found', ⟨m, hf⟩, ⟨k, hg⟩, differ, same⟩ := matchingFactors?_eq whole
  · cases found.symm.trans none
  · cases found.symm.trans found'
    obtain ⟨chain, factor⟩ := hf.chain (other (by simp))
    obtain ⟨chain', factor'⟩ := hg.chain (other (by simp))
    refine ⟨⟨⟨_, _, chain, chain', fun eq => ?_, factor, factor'⟩, order, same⟩, hf.id, hg.id⟩
    have product := hf.product
    rw [eq, hg.product] at product
    exact differ (Option.some.inj product)

theorem Topmost.pairwise_unlike (h : s.Topmost t) (settled : t.Settled) :
    s.products.Pairwise Unlike := by
  induction h with
  | root isAdd =>
    cases s with
    | nil | missing => exact .nil
    | node id label child =>
      have isAdd : label.isOp .add = true := isAdd
      rwa [Settled, if_pos isAdd] at settled
  | @child id label child side other _ ih =>
    have settled : (child .left).Settled ∧ (child .right).Settled := by
      simpa [Settled, other] using settled
    cases side with
    | left => exact ih settled.1
    | right => exact ih settled.2

theorem Topmost.sub (h : s.Topmost t) : s.Sub t := by
  induction h with
  | root => exact .refl
  | child side _ _ ih => exact .child side ih

theorem Topmost.isOp (h : s.Topmost t) : s.isOp .add = true := by
  induction h with
  | root isAdd => exact isAdd
  | child _ _ _ ih => exact ih

end Tree

namespace Work

variable {b : Bench} {root a : Nat} {t : Tree} {label : Label} {child : Side → Tree}

theorem matchingFactors_eq (h : b.forest.store.Owned (some root) t)
    (sub : (Tree.node a label child).Sub t) (isAdd : label.isOp .add = true)
    {found : Option (Factor × Factor)}
    (search : (Tree.node a label child).matchingFactors? = some found) :
    matchingFactors a b = .ok found b := by
  have owned : b.forest.store.Owned (some a) _ := h.sub sub
  have ends : Ends (matchingFactors a) b (fun result b' => result = found ∧ b' = b)
      fun _ _ => False := by
    rw [matchingFactors, Ends.bind_iff]
    cases owned.spans with
    | node get =>
      refine ends_node get ?_
      rw [isAdd, Bool.not_true, if_neg Bool.false_ne_true]
      change Ends (tree a >>= _) b _ _
      rw [Ends.bind_iff, ends_tree, owned.tree_eq, search]
      exact ⟨rfl, rfl⟩
  obtain ⟨_, _, run, rfl, rfl⟩ := ends.exists_ok
  exact run

end Work

variable {b : Bench} {root : Nat} {t : Tree}

/-- The search below an addition always has an answer. What it finds are equal factors of different
chains, the later one first, and it finds nothing only where there are no such factors. After
factoring no topmost addition has any, and factoring again changes nothing. -/
theorem matchingFactors_exact (h : b.forest.store.Owned (some root) t) (c : Classifier) :
    (∀ a label child, (Tree.node a label child).Sub t → label.isOp .add = true →
      Tree.bothThere child = true → ∃ found, Work.matchingFactors a b = .ok found b ∧
        (∀ p q, found = some (p, q) → (Tree.node a label child).Coupled p.tree q.tree ∧
          p.tree.id? = some p.id ∧ q.tree.id? = some q.id) ∧
        (found = none ↔ ¬ ∃ f g, (Tree.node a label child).Coupled f g) ∧
        (t.tagged = true → (found = none ↔
          ¬ ∃ f g, (Tree.node a label child).Across f g ∧ f.same? g = some true))) ∧
    Ends (Work.factorAll c root) b
      (fun _ b' => Work.factorAll c root b' = .ok false b' ∧
        ∃ u, b.Reworked (some root) t b' u ∧ ∀ a label child,
          (Tree.node a label child).Topmost u → Work.matchingFactors a b' = .ok none b')
      fun e _ => e.kind = .type := by
  constructor
  · intro a label child sub isAdd _
    have whole := sub.complete h.spans.complete
    have nodup := h.nodup.sublist sub.sublist
    have none_iff := (Tree.matchingFactors?_eq_none_iff whole nodup).trans
      (Tree.pairwise_unlike_iff whole nodup)
    obtain ⟨found, search⟩ : ∃ found, (Tree.node a label child).matchingFactors? = some found := by
      obtain none | ⟨f, g, found, -⟩ := Tree.matchingFactors?_eq whole
      · exact ⟨_, none⟩
      · exact ⟨_, found⟩
    rw [search, Option.some.injEq] at none_iff
    refine ⟨found, Work.matchingFactors_eq h sub isAdd search, ?_, none_iff, fun tagged => ?_⟩
    · rintro p q rfl
      exact Tree.coupled_of_matchingFactors? whole nodup search
    · rw [none_iff, Tree.exists_coupled_iff whole nodup (sub.tagged tagged)]
  · obtain ⟨n, b₁, u, made⟩ := Work.exists_factorings h
    have fails := (made.ends_factorAll c h).imp (fun _ _ _ => trivial) fun _ _ failed => failed.1
    refine ((Work.ends_factorAll_settles h).and fails).imp ?_ fun _ _ failed => failed.2
    rintro _ b' ⟨⟨-, v, reworked, -, -, settled, -⟩, -⟩
    have owned := reworked.owned
    obtain ⟨_, _, again, rfl, rfl⟩ := (Work.ends_factorAll_settled (c := c) owned settled).exists_ok
    refine ⟨again, v, reworked, ?_⟩
    intro a label child topmost
    have sub := topmost.sub
    refine Work.matchingFactors_eq owned sub topmost.isOp ?_
    exact (Tree.matchingFactors?_eq_none_iff (sub.complete owned.spans.complete)
      (owned.nodup.sublist sub.sublist)).mpr (topmost.pairwise_unlike settled)

/-- The sum of `$0 * ($1 * $2) + $3` and `$2 * $2`, of integers. -/
def Store.spreadFactors : Store :=
  let op (op : Operator) (left right : NodeId) : Node :=
    { op := some op, left := some left, right := some right }
  let read (v : VarId) : Node := { origin := some ⟨v, some .int, .var v⟩ }
  ⟨#[op .add 1 2, op .add 3 4, op .mul 5 6, op .mul 7 8, read 3, read 2, read 2, read 0, op .mul 9 10,
    read 1, read 2]⟩

theorem matchingFactors_exact_spreadFactors :
    ∃ (b b' : Bench) (t u : Tree) (p q : Factor), b.forest.store = .spreadFactors ∧
      b.forest.store.Owned (some 0) t ∧ t.tagged = true ∧
      Work.matchingFactors 0 b = .ok (some (p, q)) b ∧ p.id = 5 ∧ q.id = 10 ∧
      t.Coupled p.tree q.tree ∧ Work.factorAll (.ofPrefixes []) 0 b = .ok true b' ∧
      b.Reworked (some 0) t b' u ∧ u.isOp .add = true ∧
      Work.matchingFactors 0 b' = .ok none b' ∧
      Work.factorAll (.ofPrefixes []) 0 b' = .ok false b' := by
  obtain ⟨b, stored⟩ : ∃ b : Bench, b = { forest := { store := .spreadFactors } } := ⟨_, rfl⟩
  obtain ⟨t, isTree⟩ : ∃ t, t = b.forest.store.tree 0 := ⟨_, rfl⟩
  have owned : b.forest.store.Owned (some 0) t := by
    rw [isTree, stored]
    exact Store.owned_tree (by decide +kernel) (by decide +kernel)
  have tagged : t.tagged = true := by rw [isTree, stored]; decide +kernel
  have four : t.terms.length = 4 := by rw [isTree, stored]; decide +kernel
  have finds : ((answer? (Work.matchingFactors 0) b).any fun found =>
      found.any fun pair => pair.1.id == 5 && pair.2.id == 10) = true := by
    rw [stored]
    decide +kernel
  have changes : ((result? (Work.factorAll (.ofPrefixes []) 0) b).any fun result =>
      result.1 && (result.2.forest.store.tree 0).isOp .add) = true := by
    rw [stored]
    decide +kernel
  obtain ⟨search, ends⟩ := matchingFactors_exact owned (.ofPrefixes [])
  -- The root is an addition of two operands.
  obtain ⟨label, child, rfl, isAdd⟩ := Tree.exists_node_of_isOp
    (show t.isOp .add = true by rw [isTree, stored]; decide +kernel) owned.spans.id?_eq
  have both : Tree.bothThere child = true := by
    by_contra alone
    rw [Tree.terms, Bool.eq_false_iff.mpr alone, Bool.false_and, if_neg Bool.false_ne_true] at four
    cases four
  obtain ⟨found, run, sound, -⟩ := search 0 label child .refl isAdd both
  rw [answer?, result?, run, Option.map_some, Option.any_some] at finds
  obtain ⟨⟨p, q⟩, rfl, ids⟩ := Option.any_eq_true _ _ |>.mp finds
  simp only [Bool.and_eq_true, beq_iff_eq] at ids
  obtain ⟨⟨changed, b'⟩, result, sum⟩ := Option.any_eq_true _ _ |>.mp changes
  obtain ⟨rfl, sum⟩ := Bool.and_eq_true_iff.mp sum
  have factored := eq_ok_of_result? result
  obtain ⟨again, u, reworked, topmost⟩ := ends.of_ok factored
  rw [reworked.owned.tree_eq] at sum
  obtain ⟨label', child', rfl, isAdd'⟩ :=
    Tree.exists_node_of_isOp sum reworked.owned.spans.id?_eq
  exact ⟨b, b', _, _, p, q, by rw [stored], owned, tagged, run, ids.1, ids.2, (sound p q rfl).1,
    factored, reworked, sum, topmost 0 label' child' (.root sum), again⟩

end SecureArith
