import SecureArith.Proofs.Factoring.Merge
import SecureArith.Proofs.Meaning.Outline

set_option autoImplicit false

/-!
# Trees in which nothing can be factored

A tree is settled when no two products of one of its topmost sums have equal factors. The search for
equal factors finds none in exactly these trees: it visits the factors of the products one after the
other and compares each with all that were visited before it.
-/

namespace SecureArith

namespace Tree

def asFactor : Tree → List Tree
  | .node id label child => if label.isOp .mul then [] else [.node id label child]
  | _ => []

def bothThere (child : Side → Tree) : Bool := !(child .left).isNil && !(child .right).isNil

def factors : Tree → List Tree
  | .node _ label child =>
    if bothThere child && label.isOp .mul then
      (child .left).asFactor ++ ((child .right).asFactor ++
        ((child .left).factors ++ (child .right).factors))
    else []
  | _ => []

/-- The factors of each product of a sum. -/
def products : Tree → List (List Tree)
  | .node _ label child =>
    if bothThere child && label.isOp .add then
      ((child .left).factors :: (child .left).products) ++
        ((child .right).factors :: (child .right).products)
    else []
  | _ => []

/-- No factor of the second product equals one of the first. -/
def Unlike (fs gs : List Tree) : Prop := ∀ g ∈ fs, ∀ f ∈ gs, f.same? g ≠ some true

/-- In no topmost sum do two products have equal factors. -/
def Settled : Tree → Prop
  | .node id label child =>
    if label.isOp .add then (Tree.node id label child).products.Pairwise Unlike
    else (child .left).Settled ∧ (child .right).Settled
  | _ => True

end Tree

section Visits

variable {f g : Factor} {fs known : List Factor} {m : FactorSearch}

namespace Factor

/-- The later factor does not match the earlier one. -/
def Spares (g f : Factor) : Prop := f.matches? g = some false

theorem findM?_eq_none {p : Factor → Option Bool} {l : List Factor}
    (defined : ∀ g ∈ l, (p g).isSome) :
    l.findM? p = some none ↔ ∀ g ∈ l, p g = some false := by
  induction l with
  | nil => simp [List.findM?]
  | cons a l ih =>
    have rest := ih fun g mem => defined g (List.mem_cons_of_mem a mem)
    obtain ⟨b, here⟩ := Option.isSome_iff_exists.mp (defined a List.mem_cons_self)
    cases b with
    | false =>
      simp only [List.findM?, here, List.forall_mem_cons, true_and]
      exact rest
    | true => simp [List.findM?, here]

theorem map_moved (new : ∀ g ∈ known, g.id ≠ f.id) : known.map f.moved = known := by
  refine (List.map_congr_left fun g mem => ?_).trans (List.map_id' known)
  rw [moved, if_neg (new g mem)]

/-- Visiting new factors goes well where each spares all that come after it, and finds one that does
not where there is one. -/
theorem ends_visits (holds : m.Holds known) (fresh : ((known ++ fs).map (·.id)).Nodup)
    (complete : ∀ g ∈ known ++ fs, g.tree.complete = true) (unmatched : known.Pairwise Spares) :
    Ends (fs.forM visit) m (fun _ _ => (known ++ fs).Pairwise Spares)
      fun e m' => ∃ f g, m'.Finds e f g ∧ [g, f].Sublist (known ++ fs) ∧
        f.matches? g = some true := by
  induction fs generalizing known m with
  | nil =>
    rw [List.append_nil]
    exact unmatched
  | cons f rest ih =>
    have isKnown {g : Factor} (mem : g ∈ known) : g ∈ known ++ f :: rest :=
      List.mem_append_left _ mem
    have isNew : f ∈ known ++ f :: rest := List.mem_append_right _ List.mem_cons_self
    have new (g : Factor) (mem : g ∈ known) : g.id ≠ f.id := by
      rw [List.map_append, List.nodup_append] at fresh
      exact fresh.2.2 g.id (List.mem_map_of_mem mem) f.id (by simp)
    have defined (g : Factor) (mem : g ∈ known) : (f.matches? g).isSome :=
      isSome_matches? (complete f isNew) (complete g (isKnown mem))
    have next : known ++ f :: rest = known ++ [f] ++ rest := by simp
    rw [List.forM_eq_forM, List.forM_cons, Ends.bind_iff]
    apply holds.ends_visit
    · intro found m' holds'
      rw [map_moved new] at found holds'
      have spared := (findM?_eq_none defined).mp found
      rw [next] at fresh complete ⊢
      refine ih holds' fresh complete (List.pairwise_append.mpr ⟨unmatched,
        List.pairwise_singleton _ _, fun g mem f' last => ?_⟩)
      rw [List.mem_singleton.mp last]
      exact spared g mem
    · intro g found e m' finds
      rw [map_moved new] at found
      obtain ⟨mem, same⟩ := findM?_eq_some found
      have order := (List.singleton_sublist.mpr mem).append
        (List.singleton_sublist.mpr (List.mem_cons_self (a := f) (l := rest)))
      exact ⟨f, g, finds, order, same⟩
    · intro missing
      rw [map_moved new] at missing
      have some := isSome_findM? defined
      simp [missing] at some

end Factor

end Visits

namespace Tree

variable {t : Tree} {parent sibling product sum tail : NodeId}

def visited (parent sibling product sum tail : NodeId) (t : Tree) : List Factor :=
  t.asFactor.map fun u => ⟨u.id?.getD 0, u, parent, sibling, product, sum, tail⟩

/-- The factors of a product in the order in which they are visited. -/
def productVisits (product sum tail : NodeId) : Tree → List Factor
  | .node id label child =>
    if bothThere child && label.isOp .mul then
      (child .left).visited id ((child .right).id?.getD 0) product sum tail ++
        ((child .right).visited id ((child .left).id?.getD 0) product sum tail ++
          ((child .left).productVisits product sum tail ++
            (child .right).productVisits product sum tail))
    else []
  | _ => []

def sumVisits : Tree → List (List Factor)
  | .node id label child =>
    if bothThere child && label.isOp .add then
      ((child .left).productVisits ((child .left).id?.getD 0) id ((child .right).id?.getD 0) ::
          (child .left).sumVisits) ++
        ((child .right).productVisits ((child .right).id?.getD 0) id ((child .left).id?.getD 0) ::
          (child .right).sumVisits)
    else []
  | _ => []

theorem bothThere_iff {child : Side → Tree} :
    bothThere child = true ↔
      ∃ left right, (child .left).id? = some left ∧ (child .right).id? = some right := by
  have there (t : Tree) : t.isNil = false ↔ ∃ i, t.id? = some i := by
    cases t <;> simp [id?]
  simp [bothThere, there]

theorem map_tree_visited (t : Tree) :
    (t.visited parent sibling product sum tail).map (·.tree) = t.asFactor := by
  simp [visited, Function.comp_def]

theorem map_tree_productVisits (t : Tree) :
    (t.productVisits product sum tail).map (·.tree) = t.factors := by
  induction t with
  | nil | missing => rfl
  | node id label child ih =>
    rw [productVisits, factors]
    split
    · simp only [List.map_append, map_tree_visited, ih]
    · rfl

theorem map_tree_sumVisits (t : Tree) : t.sumVisits.map (·.map (·.tree)) = t.products := by
  induction t with
  | nil | missing => rfl
  | node id label child ih =>
    rw [sumVisits, products]
    split
    · simp only [List.map_append, List.map_cons, map_tree_productVisits, ih]
    · rfl

theorem product_eq_of_visited {f : Factor}
    (mem : f ∈ t.visited parent sibling product sum tail) : f.product = product := by
  obtain ⟨u, -, rfl⟩ := List.mem_map.mp mem
  rfl

theorem product_eq_of_productVisits {f : Factor} (mem : f ∈ t.productVisits product sum tail) :
    f.product = product := by
  induction t with
  | nil | missing => exact absurd mem List.not_mem_nil
  | node id label child ih =>
    rw [productVisits] at mem
    split at mem
    · simp only [List.mem_append] at mem
      rcases mem with mem | mem | mem | mem
      · exact product_eq_of_visited mem
      · exact product_eq_of_visited mem
      · exact ih .left mem
      · exact ih .right mem
    · exact absurd mem List.not_mem_nil

theorem searchProduct_eq (whole : t.complete = true) :
    t.searchProduct product sum tail = (t.productVisits product sum tail).forM Factor.visit := by
  have visit (u : Tree) (whole : u.complete = true) (parent sibling : NodeId) :
      u.visitFactor parent sibling product sum tail =
        (u.visited parent sibling product sum tail).forM Factor.visit := by
    cases u with
    | nil => rfl
    | missing => simp [complete] at whole
    | node id label child =>
      rw [visitFactor, visited, asFactor]
      split
      · rfl
      · exact (bind_pure_unit (x := Factor.visit _)).symm
  induction t with
  | nil => rfl
  | missing => simp [complete] at whole
  | node id label child ih =>
    simp only [complete, Bool.and_eq_true] at whole
    rw [searchProduct, productVisits]
    by_cases both : bothThere child = true
    · obtain ⟨left, right, isLeft, isRight⟩ := bothThere_iff.mp both
      rw [isLeft, isRight, both]
      simp only [Bool.true_and, Option.getD_some]
      split
      · rw [visit _ whole.1, visit _ whole.2, ih .left whole.1, ih .right whole.2]
        simp only [List.forM_eq_forM, List.forM_append]
      · rfl
    · have none : ∀ left right, (child .left).id? = some left → (child .right).id? ≠ some right :=
        fun left right isLeft isRight => both (bothThere_iff.mpr ⟨left, right, isLeft, isRight⟩)
      rw [Bool.eq_false_iff.mpr both]
      split
      · rename_i isLeft isRight
        exact absurd isRight (none _ _ isLeft)
      · rfl

theorem searchSum_eq (whole : t.complete = true) :
    t.searchSum = t.sumVisits.flatten.forM Factor.visit := by
  induction t with
  | nil => rfl
  | missing => simp [complete] at whole
  | node id label child ih =>
    simp only [complete, Bool.and_eq_true] at whole
    rw [searchSum, sumVisits]
    by_cases both : bothThere child = true
    · obtain ⟨left, right, isLeft, isRight⟩ := bothThere_iff.mp both
      rw [isLeft, isRight, both]
      simp only [Bool.true_and, Option.getD_some]
      split
      · rw [searchProduct_eq whole.1, searchProduct_eq whole.2, ih .left whole.1,
          ih .right whole.2]
        simp only [List.forM_eq_forM, List.flatten_append, List.flatten_cons, List.forM_append,
          bind_assoc]
      · rfl
    · have none : ∀ left right, (child .left).id? = some left → (child .right).id? ≠ some right :=
        fun left right isLeft isRight => both (bothThere_iff.mpr ⟨left, right, isLeft, isRight⟩)
      rw [Bool.eq_false_iff.mpr both]
      split
      · rename_i isLeft isRight
        exact absurd isRight (none _ _ isLeft)
      · rfl

/-- A tree is visited as a factor or searched as a product, and no node twice. -/
theorem count_productVisits (t : Tree) (parent sibling product sum tail i : NodeId) :
    ((t.visited parent sibling product sum tail).map (·.id)).count i +
      ((t.productVisits product sum tail).map (·.id)).count i ≤ t.preorder.count i := by
  induction t generalizing parent sibling with
  | nil | missing => exact Nat.zero_le _
  | node id label child ih =>
    rw [visited, asFactor, productVisits, count_preorder_node .left]
    by_cases isMul : label.isOp .mul = true
    · rw [if_pos isMul, isMul]
      split
      · have left := ih .left id ((child .right).id?.getD 0)
        have right := ih .right id ((child .left).id?.getD 0)
        simp only [List.map_append, List.count_append, List.map_nil, List.count_nil, Side.flip]
        omega
      · exact Nat.zero_le _
    · rw [if_neg isMul, Bool.eq_false_iff.mpr isMul, Bool.and_false, if_neg Bool.false_ne_true]
      simp only [List.map_cons, List.map_nil, List.count_cons, List.count_nil, id?,
        Option.getD_some, beq_iff_eq, eq_comm (a := id)]
      omega

theorem count_sumVisits (t : Tree) (product sum tail i : NodeId) :
    ((t.productVisits product sum tail).map (·.id)).count i +
      (t.sumVisits.flatten.map (·.id)).count i ≤ t.preorder.count i := by
  induction t generalizing product sum tail with
  | nil | missing => exact Nat.zero_le _
  | node id label child ih =>
    rw [sumVisits]
    split
    · rename_i isSum
      have isAdd := (Bool.and_eq_true_iff.mp isSum).2
      have notMul : label.isOp .mul = false := by
        rw [Label.isOp, Label.op_eq_of_isOp isAdd]
        rfl
      have left := ih .left ((child .left).id?.getD 0) id ((child .right).id?.getD 0)
      have right := ih .right ((child .right).id?.getD 0) id ((child .left).id?.getD 0)
      rw [productVisits, notMul, Bool.and_false, if_neg Bool.false_ne_true,
        count_preorder_node .left]
      simp only [List.flatten_append, List.flatten_cons, List.map_append, List.count_append,
        List.map_nil, List.count_nil, Side.flip]
      omega
    · have product := count_productVisits (.node id label child) 0 0 product sum tail i
      simp only [List.flatten_nil, List.map_nil, List.count_nil]
      omega

theorem sumVisits_eq_nil (product sum tail : NodeId) {f : Factor}
    (mem : f ∈ t.productVisits product sum tail) : t.sumVisits = [] := by
  cases t with
  | nil | missing => rfl
  | node id label child =>
    rw [productVisits] at mem
    split at mem
    · rename_i isProduct
      have isMul := (Bool.and_eq_true_iff.mp isProduct).2
      have notAdd : label.isOp .add = false := by
        rw [Label.isOp, Label.op_eq_of_isOp isMul]
        rfl
      rw [sumVisits, notAdd, Bool.and_false, if_neg Bool.false_ne_true]
    · exact absurd mem List.not_mem_nil

theorem exists_product_of_sumVisits {fs : List Factor} (group : fs ∈ t.sumVisits) :
    ∃ product ∈ t.preorder, ∀ f ∈ fs, f.product = product := by
  induction t with
  | nil | missing => exact absurd group List.not_mem_nil
  | node id label child ih =>
    rw [sumVisits] at group
    split at group
    · rename_i isSum
      obtain ⟨left, right, isLeft, isRight⟩ := bothThere_iff.mp (Bool.and_eq_true_iff.mp isSum).1
      have below (side : Side)
          (h : ∃ product ∈ (child side).preorder, ∀ f ∈ fs, f.product = product) :
          ∃ product ∈ (Tree.node id label child).preorder, ∀ f ∈ fs, f.product = product := by
        obtain ⟨product, mem, same⟩ := h
        exact ⟨product, (mem_preorder_node side).mpr (.inr (.inl mem)), same⟩
      simp only [List.cons_append, List.mem_cons, List.mem_append, isLeft, isRight,
        Option.getD_some] at group
      rcases group with rfl | group | rfl | group
      · exact below .left
          ⟨left, mem_preorder_of_id? isLeft, fun _ => product_eq_of_productVisits⟩
      · exact below .left (ih .left group)
      · exact below .right
          ⟨right, mem_preorder_of_id? isRight, fun _ => product_eq_of_productVisits⟩
      · exact below .right (ih .right group)
    · exact absurd group List.not_mem_nil

theorem pairwise_product_sumVisits (nodup : t.preorder.Nodup) :
    t.sumVisits.Pairwise fun fs gs => ∀ f ∈ fs, ∀ g ∈ gs, f.product ≠ g.product := by
  induction t with
  | nil | missing => exact .nil
  | node id label child ih =>
    rw [sumVisits]
    split
    · rename_i isSum
      obtain ⟨left, right, isLeft, isRight⟩ := bothThere_iff.mp (Bool.and_eq_true_iff.mp isSum).1
      have below (side : Side) : (child side).preorder.Nodup :=
        nodup.sublist (Sub.child (u := child side) side .refl).sublist
      have apart := (List.nodup_append.mp (List.nodup_cons.mp nodup).2).2.2
      -- A term is a product or a sum, so its own factors do not meet those of its products.
      have term (side : Side) (product sum tail : NodeId) :
          ((child side).productVisits product sum tail :: (child side).sumVisits).Pairwise
            fun fs gs => ∀ f ∈ fs, ∀ g ∈ gs, f.product ≠ g.product := by
        refine List.pairwise_cons.mpr ⟨fun gs group f mem => ?_, ih side (below side)⟩
        rw [sumVisits_eq_nil product sum tail mem] at group
        exact absurd group List.not_mem_nil
      have inside (side : Side) (sum tail : NodeId) (fs : List Factor)
          (group : fs ∈ (child side).productVisits ((child side).id?.getD 0) sum tail ::
            (child side).sumVisits) (f : Factor) (mem : f ∈ fs) :
          f.product ∈ (child side).preorder := by
        rcases List.mem_cons.mp group with rfl | group
        · rw [product_eq_of_productVisits mem]
          cases side with
          | left => exact isLeft ▸ mem_preorder_of_id? isLeft
          | right => exact isRight ▸ mem_preorder_of_id? isRight
        · obtain ⟨product, inside, same⟩ := exists_product_of_sumVisits group
          exact same f mem ▸ inside
      refine List.pairwise_append.mpr ⟨term .left _ _ _, term .right _ _ _,
        fun fs group gs group' f mem g mem' => ?_⟩
      exact apart _ (inside .left _ _ fs group f mem) _ (inside .right _ _ gs group' g mem')
    · exact .nil

theorem complete_of_asFactor {u : Tree} (whole : t.complete = true) (mem : u ∈ t.asFactor) :
    u.complete = true := by
  cases t with
  | nil | missing => exact absurd mem List.not_mem_nil
  | node id label child =>
    rw [asFactor] at mem
    split at mem
    · exact absurd mem List.not_mem_nil
    · rwa [List.mem_singleton.mp mem]

theorem complete_of_factors {u : Tree} (whole : t.complete = true) (mem : u ∈ t.factors) :
    u.complete = true := by
  induction t with
  | nil | missing => exact absurd mem List.not_mem_nil
  | node id label child ih =>
    simp only [complete, Bool.and_eq_true] at whole
    rw [factors] at mem
    split at mem
    · simp only [List.mem_append] at mem
      rcases mem with mem | mem | mem | mem
      · exact complete_of_asFactor whole.1 mem
      · exact complete_of_asFactor whole.2 mem
      · exact ih .left whole.1 mem
      · exact ih .right whole.2 mem
    · exact absurd mem List.not_mem_nil

theorem complete_of_products {us : List Tree} {u : Tree} (whole : t.complete = true)
    (group : us ∈ t.products) (mem : u ∈ us) : u.complete = true := by
  induction t with
  | nil | missing => exact absurd group List.not_mem_nil
  | node id label child ih =>
    simp only [complete, Bool.and_eq_true] at whole
    rw [products] at group
    split at group
    · simp only [List.cons_append, List.mem_cons, List.mem_append] at group
      rcases group with rfl | group | rfl | group
      · exact complete_of_factors whole.1 mem
      · exact ih .left whole.1 group
      · exact complete_of_factors whole.2 mem
      · exact ih .right whole.2 group
    · exact absurd group List.not_mem_nil

theorem complete_of_sumVisits {fs : List Factor} {f : Factor} (whole : t.complete = true)
    (group : fs ∈ t.sumVisits) (mem : f ∈ fs) : f.tree.complete = true := by
  refine complete_of_products whole (map_tree_sumVisits t ▸ List.mem_map_of_mem group) ?_
  exact List.mem_map_of_mem mem

theorem ends_searchSum (whole : t.complete = true) (nodup : t.preorder.Nodup) :
    Ends t.searchSum {} (fun _ _ => t.sumVisits.flatten.Pairwise Factor.Spares)
      fun e m => ∃ f g, m.Finds e f g ∧ [g, f].Sublist t.sumVisits.flatten ∧
        f.matches? g = some true := by
  have fresh : (([] ++ t.sumVisits.flatten).map Factor.id).Nodup := by
    refine List.nodup_iff_count_le_one.mpr fun i => ?_
    have counted := count_sumVisits t 0 0 0 i
    have once := List.nodup_iff_count_le_one.mp nodup i
    change (t.sumVisits.flatten.map (·.id)).count i ≤ 1
    omega
  have complete (f : Factor) (mem : f ∈ [] ++ t.sumVisits.flatten) : f.tree.complete = true := by
    obtain ⟨fs, group, mem⟩ := List.mem_flatten.mp mem
    exact complete_of_sumVisits whole group mem
  rw [searchSum_eq whole]
  exact Factor.ends_visits FactorSearch.holds_empty fresh complete .nil

/-- The search in a sum finds no equal factors exactly where there are none. -/
theorem matchingFactors?_eq_none_iff (whole : t.complete = true) (nodup : t.preorder.Nodup) :
    t.matchingFactors? = some none ↔ t.products.Pairwise Unlike := by
  have complete {fs : List Factor} {f : Factor} (group : fs ∈ t.sumVisits) (mem : f ∈ fs) :=
    complete_of_sumVisits whole group mem
  have searched : t.matchingFactors? = some none ↔ t.sumVisits.flatten.Pairwise Factor.Spares := by
    have search := ends_searchSum whole nodup
    cases run : t.searchSum {} with
    | ok => exact ⟨fun _ => search.of_ok run, fun _ => by simp [matchingFactors?, run]⟩
    | error e =>
      obtain ⟨f, g, finds, order, same⟩ := search.of_error run
      refine iff_of_false (by simp [matchingFactors?_of_finds run finds]) fun pairs => ?_
      have spares := (List.pairwise_cons.mp (pairs.sublist order)).1 f List.mem_cons_self
      exact absurd (same.symm.trans spares) (by simp)
  have spares {f g : Factor} (differ : g.product ≠ f.product) (hf : f.tree.complete = true)
      (hg : g.tree.complete = true) : g.Spares f ↔ f.tree.same? g.tree ≠ some true := by
    obtain ⟨b, same⟩ := Option.isSome_iff_exists.mp (isSome_same?_of_complete hf hg)
    have differ : (g.product != f.product) = true := by simpa using differ
    rw [Factor.Spares, Factor.matches?, same, differ]
    cases b <;> simp [andM, toBool]
  have distinct := pairwise_product_sumVisits nodup
  rw [searched, List.pairwise_flatten, ← map_tree_sumVisits, List.pairwise_map]
  constructor
  · rintro ⟨-, pairs⟩
    refine (pairs.and distinct).imp_of_mem fun {fs gs} group group' h => ?_
    rintro _ isTree _ isTree'
    obtain ⟨g, mem, rfl⟩ := List.mem_map.mp isTree
    obtain ⟨f, mem', rfl⟩ := List.mem_map.mp isTree'
    exact (spares (h.2 g mem f mem') (complete group' mem') (complete group mem)).mp
      (h.1 g mem f mem')
  · intro pairs
    refine ⟨fun fs group => ?_, (pairs.and distinct).imp_of_mem fun {fs gs} group group' h => ?_⟩
    · obtain ⟨product, -, same⟩ := exists_product_of_sumVisits group
      refine List.pairwise_of_forall_mem_list fun g mem f mem' => ?_
      rw [Factor.Spares, Factor.matches?, same g mem, same f mem', bne_self_eq_false]
      rfl
    · intro g mem f mem'
      exact (spares (h.2 g mem f mem') (complete group' mem') (complete group mem)).mpr
        (h.1 _ (List.mem_map_of_mem mem) _ (List.mem_map_of_mem mem'))

/-- Nothing can be factored in exactly the settled trees. -/
theorem factoring?_eq_none_iff (whole : t.complete = true) (nodup : t.preorder.Nodup) :
    t.factoring? = some none ↔ t.Settled := by
  induction t with
  | nil => simp [factoring?, Settled]
  | missing => simp [complete] at whole
  | node id label child ih =>
    rw [factoring?, Settled]
    by_cases isAdd : label.isOp .add = true
    · rw [if_pos isAdd, if_pos isAdd, ← matchingFactors?_eq_none_iff whole nodup]
      cases (Tree.node id label child).matchingFactors? with
      | none => simp
      | some found => cases found <;> simp
    · have below (side : Side) := ih side ((Sub.child (u := child side) side .refl).complete whole)
        (nodup.sublist (Sub.child (u := child side) side .refl).sublist)
      rw [if_neg isAdd, if_neg isAdd, ← below .left, ← below .right]
      cases (child .left).factoring? with
      | none => simp
      | some found => cases found <;> simp

theorem same?_outline (t u : Tree) : t.outline.same? u.outline = t.same? u := by
  induction t generalizing u with
  | nil => cases u <;> rfl
  | missing => cases u <;> rfl
  | node id a child ih =>
    cases u with
    | nil | missing => rfl
    | node id' b child' =>
      simp only [outline, same?, isNil_outline, ih]
      by_cases leaf : childless child = true
      · have leaf' := Bool.and_eq_true_iff.mp leaf
        by_cases both : childless child' = true
        · have both' := Bool.and_eq_true_iff.mp both
          simp only [leaf, both, leaf', both', Bool.and_self, if_true, Label.sameAtom, Label.atom?,
            Option.map_map]
          rfl
        · have both' : ((child' .left).isNil && (child' .right).isNil) = false :=
            Bool.eq_false_iff.mpr both
          simp only [leaf', both', Bool.and_self, Bool.false_and, if_true]
      · have leaf' : ((child .left).isNil && (child .right).isNil) = false :=
          Bool.eq_false_iff.mpr leaf
        simp only [leaf', Bool.false_eq_true, if_false]
        rfl

theorem bothThere_outline (child : Side → Tree) :
    bothThere (fun side => (child side).outline) = bothThere child := by
  simp [bothThere]

theorem asFactor_outline (t : Tree) : t.outline.asFactor = t.asFactor.map outline := by
  cases t with
  | nil | missing => rfl
  | node id label child =>
    rw [asFactor, outline, asFactor]
    change (if label.isOp .mul = true then _ else _) = _
    split <;> rfl

theorem factors_outline (t : Tree) : t.outline.factors = t.factors.map outline := by
  induction t with
  | nil | missing => rfl
  | node id label child ih =>
    rw [factors, outline, factors, bothThere_outline]
    change (if (_ && label.isOp .mul) = true then _ else _) = _
    split
    · simp only [List.map_append, asFactor_outline, ih]
    · rfl

theorem products_outline (t : Tree) : t.outline.products = t.products.map (·.map outline) := by
  induction t with
  | nil | missing => rfl
  | node id label child ih =>
    rw [products, outline, products, bothThere_outline]
    change (if (_ && label.isOp .add) = true then _ else _) = _
    split
    · simp only [List.map_append, List.map_cons, factors_outline, ih]
    · rfl

theorem settled_outline (t : Tree) : t.outline.Settled ↔ t.Settled := by
  induction t with
  | nil | missing => rfl
  | node id label child ih =>
    have products := products_outline (.node id label child)
    rw [Settled, outline, Settled]
    rw [outline] at products
    change (if label.isOp .add = true then _ else _) ↔ _
    split
    · rw [products, List.pairwise_map]
      refine List.Pairwise.iff_of_mem fun _ _ => ?_
      simp only [Unlike, List.forall_mem_map, same?_outline]
    · rw [ih, ih]

theorem settled_of_outline {t u : Tree} (same : u.outline = t.outline) (h : t.Settled) :
    u.Settled :=
  (settled_outline u).mp (same ▸ (settled_outline t).mpr h)

variable {a : NodeId} {u v : Tree}

theorem Sub.plain (h : u.Sub t) (whole : t.plain = true) : u.plain = true := by
  induction h with
  | refl => exact whole
  | child side _ ih => exact ih (plain_child whole side)

theorem plain_graft (there : v.isNil = false) (ht : t.plain = true) (hv : v.plain = true) :
    (t.graft a v).plain = true := by
  induction t with
  | nil | missing => exact ht
  | node id label child ih =>
    by_cases eq : id = a
    · rwa [eq, graft_root]
    · rw [graft_node eq]
      exact plain_congr ht (fun side => isNil_graft there (child side)) fun side => ih side

end Tree

theorem Factor.StandsAt.plain_rest {f : Factor} {s : Tree} {m : Spot} (h : f.StandsAt s m)
    (plain : s.plain = true) : (m.rest f.parent).plain = true := by
  refine Tree.plain_graft ?_ (h.term.sub.plain plain) ?_
  · rw [Tree.isNil_withId]
    exact Tree.isNil_of_id? h.sibling
  · rw [Tree.plain_eq_of_bare (Tree.bare_withId _ _)]
    exact h.sibling_sub.plain plain

theorem Tree.Factored.plain {t u : Tree} (h : t.Factored u) (plain : t.plain = true) :
    u.plain = true := by
  induction h with
  | @sum s rest f g m k sum expanded twins same fresh alike =>
    have bare := bare_eq_of_anonymous alike
    have there := (isNil_eq_of_bare bare).trans twins.later.isNil_rest
    have left := (plain_eq_of_bare bare).trans (twins.later.plain_rest plain)
    have right := twins.earlier.plain_rest plain
    have joint : (f.joint expanded sum rest (k.rest g.parent)).plain = true := by
      have tree := twins.later.tree_sub.plain plain
      have mul : Operator.mul = .ofName Operator.mul.name := by decide
      have add : Operator.add = .ofName Operator.add.name := by decide
      simpa [Factor.joint, Tree.plain, childless, there, tree, left, right, Label.opName] using
        ⟨mul, add⟩
    have tailSub : k.tail.Sub s := Sub.trans (.child k.side.flip .refl) twins.earlier.sum.sub
    have tailThere : (k.tail.graft f.product (f.joint expanded sum rest (k.rest g.parent))).isNil =
        false := (isNil_graft rfl _).trans (isNil_of_id? twins.earlier.tail)
    refine plain_graft ((isNil_withId _ _).trans tailThere) (plain_graft rfl
      (plain_graft twins.earlier.isNil_rest plain right) joint) ?_
    rw [plain_eq_of_bare (bare_withId _ _)]
    exact plain_graft rfl (tailSub.plain plain) joint
  | left id label r h ih =>
    refine plain_congr plain (fun side => ?_) fun side whole => ?_
    · cases side with
      | left => exact h.isNil_eq.2.trans h.isNil_eq.1.symm
      | right => rfl
    · cases side with
      | left => exact ih whole
      | right => exact whole
  | right id label l h ih =>
    refine plain_congr plain (fun side => ?_) fun side whole => ?_
    · cases side with
      | left => rfl
      | right => exact h.isNil_eq.2.trans h.isNil_eq.1.symm
    · cases side with
      | left => exact whole
      | right => exact ih whole

end SecureArith
