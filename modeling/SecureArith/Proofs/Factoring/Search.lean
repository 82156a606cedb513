import SecureArith.Pass.Factoring
import SecureArith.Proofs.Factoring.Terms

set_option autoImplicit false

/-!
# The search for equal factors

Every factor that the search keeps stands in a product of the sum. The search ends with two equal
factors of different products, or without any; it never comes upon a missing index in a tree that is
all there.
-/

namespace SecureArith

/-- An addition with a product among its two terms, and in the product a multiplication with a
factor among its two operands. -/
structure Spot where
  plus : Label
  term : Side → Tree
  side : Side
  times : Label
  factor : Side → Tree
  place : Side

namespace Spot

def product (m : Spot) : Tree := m.term m.side

def tail (m : Spot) : Tree := m.term m.side.flip

def tree (m : Spot) : Tree := m.factor m.place

def sibling (m : Spot) : Tree := m.factor m.place.flip

end Spot

namespace Factor

variable {f g : Factor} {s : Tree} {m : Spot}

/-- The factor stands there in the sum. -/
structure StandsAt (f : Factor) (s : Tree) (m : Spot) : Prop where
  sum : Tree.Term .add (.node f.sum m.plus m.term) s
  plus : m.plus.isOp .add = true
  product : m.product.id? = some f.product
  tail : m.tail.id? = some f.tail
  parent : Tree.Term .mul (.node f.parent m.times m.factor) m.product
  times : m.times.isOp .mul = true
  tree : m.tree = f.tree
  id : f.tree.id? = some f.id
  sibling : m.sibling.id? = some f.sibling

def Stands (s : Tree) (f : Factor) : Prop := ∃ m, f.StandsAt s m

namespace StandsAt

theorem product_isOp (h : f.StandsAt s m) : m.product.isOp .mul = true :=
  h.parent.isOp_root h.times

theorem term (h : f.StandsAt s m) : Tree.Term .add m.product s :=
  Tree.Term.trans (.step m.side h.plus (Tree.isNil_of_id? h.tail) .refl) h.sum

theorem tree_sub (h : f.StandsAt s m) : f.tree.Sub s := by
  rw [← h.tree]
  exact Tree.Sub.trans (Tree.Sub.trans (.child m.place .refl) h.parent.sub) h.term.sub

end StandsAt

/-- A node that is met again stands where it was met last. -/
def moved (f g : Factor) : Factor := if g.id = f.id then f else g

theorem moved_eq (f g : Factor) : f.moved g = f ∨ f.moved g = g := by
  unfold moved
  split
  · exact .inl rfl
  · exact .inr rfl

theorem findM?_eq_some {p : Factor → Option Bool} {l : List Factor} (h : l.findM? p = some (some g)) :
    g ∈ l ∧ p g = some true := by
  induction l with
  | nil => simp [List.findM?] at h
  | cons a l ih =>
    simp only [List.findM?] at h
    cases here : p a with
    | none => simp [here] at h
    | some b =>
      cases b with
      | false =>
        simp only [here] at h
        exact (ih h).imp_left (List.mem_cons_of_mem a)
      | true =>
        simp only [here] at h
        cases h
        exact ⟨List.mem_cons_self, here⟩

theorem isSome_findM? {p : Factor → Option Bool} {l : List Factor}
    (defined : ∀ g ∈ l, (p g).isSome) : (l.findM? p).isSome := by
  induction l with
  | nil => rfl
  | cons a l ih =>
    have rest := ih fun g mem => defined g (List.mem_cons_of_mem a mem)
    obtain ⟨b, here⟩ := Option.isSome_iff_exists.mp (defined a List.mem_cons_self)
    simp only [List.findM?, here]
    cases b with
    | false => exact rest
    | true => rfl

theorem isSome_matches? (hf : f.tree.complete = true) (hg : g.tree.complete = true) :
    (f.matches? g).isSome := by
  obtain ⟨b, same⟩ := Option.isSome_iff_exists.mp (Tree.isSome_same?_of_complete hf hg)
  rw [matches?, same]
  cases g.product != f.product <;> rfl

theorem matches?_eq_some_true (h : f.matches? g = some true) :
    g.product ≠ f.product ∧ f.tree.same? g.tree = some true := by
  obtain ⟨differ, same⟩ := Tree.andM_eq_some_true.mp h
  exact ⟨by simpa using differ, same⟩

end Factor

namespace FactorSearch

variable {m : FactorSearch} {f g : Factor} {known : List Factor}

/-- The factors that were visited, each where its node was met last. -/
structure Holds (m : FactorSearch) (known : List Factor) : Prop where
  visited : m.visited = known.map (·.id)
  place : ∀ g ∈ known, m.place? g.id = some g

/-- The search ended with these factors, whose places are known. -/
structure Finds (m : FactorSearch) (e : SearchEnd) (f g : Factor) : Prop where
  ended : e = .found f.id g.id
  later : m.place? f.id = some f
  earlier : m.place? g.id = some g

theorem holds_empty : Holds {} [] := ⟨rfl, fun _ mem => absurd mem List.not_mem_nil⟩

theorem place?_met (f : Factor) (m : FactorSearch) (id : NodeId) :
    (m.met f).place? id = if id = f.id then some f else m.place? id := by
  rw [met, place?, List.lookup_cons]
  by_cases same : id = f.id
  · rw [if_pos same, beq_iff_eq.mpr same]
  · rw [if_neg same, beq_false_of_ne same]
    rfl

theorem Holds.met (h : m.Holds known) (f : Factor) : (m.met f).Holds (known.map f.moved) where
  visited := by
    refine h.visited.trans ?_
    rw [List.map_map]
    refine List.map_congr_left fun g _ => ?_
    rw [Function.comp_apply, Factor.moved]
    by_cases same : g.id = f.id
    · rw [if_pos same, same]
    · rw [if_neg same]
  place := by
    intro g mem
    obtain ⟨g', mem', rfl⟩ := List.mem_map.mp mem
    rw [place?_met, Factor.moved]
    by_cases same : g'.id = f.id
    · rw [if_pos same, if_pos rfl]
    · rw [if_neg same, if_neg same]
      exact h.place g' mem'

theorem Holds.visit (h : m.Holds known) (place : m.place? f.id = some f) :
    Holds { m with visited := m.visited ++ [f.id] } (known ++ [f]) where
  visited := by rw [h.visited, List.map_append, List.map_singleton]
  place := by
    intro g mem
    rcases List.mem_append.mp mem with mem | mem
    · exact h.place g mem
    · rw [List.mem_singleton.mp mem]
      exact place

/-- Every visited node has a place, so its factor is what is compared. -/
theorem Holds.twin?_eq (h : m.Holds known) (f : Factor) :
    m.twin? f = (known.findM? f.matches?).map (·.map (·.id)) := by
  have place := h.place
  rw [twin?, h.visited]
  clear h
  induction known with
  | nil => rfl
  | cons g known ih =>
    rw [List.forall_mem_cons] at place
    have first : (do f.matches? (← m.place? g.id)) = f.matches? g := by rw [place.1]; rfl
    rw [List.map_cons, List.findM?, List.findM?, first]
    cases f.matches? g with
    | none => rfl
    | some found =>
      cases found with
      | true => rfl
      | false => exact ih place.2

/-- One factor is compared with all that were visited, and visited itself if it equals none. -/
theorem Holds.ends_visit {ok : Unit → FactorSearch → Prop}
    {failed : SearchEnd → FactorSearch → Prop} (h : m.Holds known)
    (kept : (known.map f.moved).findM? f.matches? = some none →
      ∀ m' : FactorSearch, m'.Holds (known.map f.moved ++ [f]) → ok () m')
    (found : ∀ g, (known.map f.moved).findM? f.matches? = some (some g) →
      ∀ (e : SearchEnd) (m' : FactorSearch), m'.Finds e f g → failed e m')
    (missing : (known.map f.moved).findM? f.matches? = none →
      ∀ m', failed .outOfRange m') : Ends f.visit m ok failed := by
  have holds := h.met f
  have here : (m.met f).place? f.id = some f := by rw [place?_met, if_pos rfl]
  rw [Factor.visit, Ends.bind_iff, Ends.modify_iff, Ends.bind_iff, Ends.get_iff, holds.twin?_eq]
  cases result : (known.map f.moved).findM? f.matches? with
  | none => exact missing result _
  | some result' =>
    cases result' with
    | none => exact kept result _ (holds.visit here)
    | some g =>
      exact found g result _ _ ⟨rfl, here, holds.place g (Factor.findM?_eq_some result).1⟩

end FactorSearch

namespace Tree

open Factor (Stands)

variable {s t p : Tree} {m : FactorSearch} {e : SearchEnd} {f g : Factor}

/-- What holds of a search in a sum: the visited factors stand in it, and two of them were found if
it ended early. -/
def Searches (s : Tree) (x : Search Unit) : Prop :=
  ∀ (m : FactorSearch) (known : List Factor), m.Holds known → (∀ g ∈ known, g.Stands s) →
    Ends x m (fun _ m' => ∃ known', m'.Holds known' ∧ ∀ g ∈ known', g.Stands s) fun e m' =>
      ∃ f g, m'.Finds e f g ∧ f.Stands s ∧ g.Stands s ∧ f.matches? g = some true

theorem searches_return (s : Tree) : s.Searches (pure ()) :=
  fun _ known holds stand => ⟨known, holds, stand⟩

theorem Searches.then {x y : Search Unit} (hx : s.Searches x) (hy : s.Searches y) :
    s.Searches (do x; y) := by
  intro m known holds stand
  rw [Ends.bind_iff]
  apply (hx m known holds stand).imp
  · rintro _ m' ⟨known', holds', stand'⟩
    exact hy m' known' holds' stand'
  · exact fun _ _ h => h

theorem searches_visit (whole : s.complete = true) {f : Factor} (h : f.Stands s) :
    s.Searches f.visit := by
  intro m known holds stand
  have moved : ∀ g ∈ known.map f.moved, g.Stands s := by
    intro g mem
    obtain ⟨g', mem', rfl⟩ := List.mem_map.mp mem
    rcases f.moved_eq g' with eq | eq
    · rw [eq]
      exact h
    · rw [eq]
      exact stand g' mem'
  have complete {g : Factor} (h : g.Stands s) : g.tree.complete = true := by
    obtain ⟨m, stands⟩ := h
    exact stands.tree_sub.complete whole
  apply holds.ends_visit
  · intro _ m' holds'
    refine ⟨_, holds', fun g mem => ?_⟩
    rcases List.mem_append.mp mem with mem | mem
    · exact moved g mem
    · exact List.mem_singleton.mp mem ▸ h
  · intro g found e m' finds
    obtain ⟨mem, same⟩ := Factor.findM?_eq_some found
    exact ⟨f, g, finds, h, moved g mem, same⟩
  · intro none
    have some := Factor.isSome_findM? fun g mem => Factor.isSome_matches? (complete h)
      (complete (moved g mem))
    simp [none] at some

section Product

variable {sum tail product parent sibling : NodeId} {plus : Label} {term : Side → Tree}
  {side : Side}

theorem searches_visitFactor (whole : s.complete = true)
    (inSum : Term .add (.node sum plus term) s) (isAdd : plus.isOp .add = true)
    (isProduct : (term side).id? = some product) (isTail : (term side.flip).id? = some tail)
    {times : Label} {factor : Side → Tree} (place : Side)
    (inProduct : Term .mul (.node parent times factor) (term side))
    (isMul : times.isOp .mul = true) (isSibling : (factor place.flip).id? = some sibling) :
    s.Searches ((factor place).visitFactor parent sibling product sum tail) := by
  have sub : (factor place).Sub s :=
    Sub.trans (.child place .refl) (inProduct.sub.trans (Sub.trans (.child side .refl) inSum.sub))
  cases found : factor place with
  | nil => exact searches_return s
  | missing =>
    have missing := sub.complete whole
    simp [found, complete] at missing
  | node id label child =>
    rw [visitFactor]
    split
    · exact searches_return s
    · exact searches_visit whole ⟨⟨plus, term, side, times, factor, place⟩, inSum, isAdd,
        isProduct, isTail, inProduct, isMul, found, rfl, isSibling⟩

theorem searches_searchProduct (whole : s.complete = true)
    (inSum : Term .add (.node sum plus term) s) (isAdd : plus.isOp .add = true)
    (isProduct : (term side).id? = some product) (isTail : (term side.flip).id? = some tail)
    (inProduct : Term .mul t (term side)) :
    s.Searches (t.searchProduct product sum tail) := by
  induction t with
  | nil => exact searches_return s
  | missing =>
    have missing := Sub.complete
      (inProduct.sub.trans (Sub.trans (.child side .refl) inSum.sub)) whole
    simp [complete] at missing
  | node id times factor ih =>
    rw [searchProduct]
    split
    · rename_i left right isLeft isRight
      split
      · rename_i isMul
        have visit (place : Side) {sibling : NodeId}
            (isSibling : (factor place.flip).id? = some sibling) :=
          searches_visitFactor whole inSum isAdd isProduct isTail place inProduct isMul isSibling
        have search (place : Side) {sibling : NodeId}
            (isSibling : (factor place.flip).id? = some sibling) :=
          ih place (Term.trans (.step place isMul (Tree.isNil_of_id? isSibling) .refl) inProduct)
        exact (visit .left isRight).then ((visit .right isLeft).then
          ((search .left isRight).then (search .right isLeft)))
      · exact searches_return s
    · exact searches_return s

end Product

theorem searches_searchSum (whole : s.complete = true) (inSum : Term .add t s) :
    s.Searches t.searchSum := by
  induction t with
  | nil | missing => exact searches_return s
  | node id plus term ih =>
    rw [searchSum]
    split
    · rename_i left right isLeft isRight
      split
      · rename_i isAdd
        have product (side : Side) {product tail : NodeId}
            (isProduct : (term side).id? = some product)
            (isTail : (term side.flip).id? = some tail) :=
          searches_searchProduct whole inSum isAdd isProduct isTail .refl
        have search (side : Side) {tail : NodeId} (isTail : (term side.flip).id? = some tail) :=
          ih side (Term.trans (.step side isAdd (Tree.isNil_of_id? isTail) .refl) inSum)
        exact (product .left isLeft isRight).then ((search .left isRight).then
          ((product .right isRight isLeft).then (search .right isLeft)))
      · exact searches_return s
    · exact searches_return s

theorem matchingFactors?_of_finds (run : s.searchSum {} = .error e m) (h : m.Finds e f g) :
    s.matchingFactors? = some (some (f, g)) := by
  rw [h.ended] at run
  simp only [matchingFactors?, run, h.later, h.earlier]
  rfl

/-- The search in a tree that is all there has an answer, and a pair that it finds stands in the
tree. -/
theorem matchingFactors?_eq (whole : s.complete = true) :
    s.matchingFactors? = some none ∨ ∃ f g, s.matchingFactors? = some (some (f, g)) ∧
      f.Stands s ∧ g.Stands s ∧ g.product ≠ f.product ∧ f.tree.same? g.tree = some true := by
  have search := searches_searchSum whole .refl {} [] FactorSearch.holds_empty
    fun _ mem => absurd mem List.not_mem_nil
  cases run : s.searchSum {} with
  | ok => exact .inl (by simp [matchingFactors?, run])
  | error e =>
    obtain ⟨f, g, finds, hf, hg, same⟩ := search.of_error run
    obtain ⟨differ, same⟩ := Factor.matches?_eq_some_true same
    exact .inr ⟨f, g, matchingFactors?_of_finds run finds, hf, hg, differ, same⟩

end Tree

end SecureArith
