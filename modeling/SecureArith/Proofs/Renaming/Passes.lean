import SecureArith.Proofs.Renaming

set_option autoImplicit false

/-!
# Transformations under other names

The transformations of a tree do the same where values have other names. They do not look at the
program, so it does not matter how the two programs are related.
-/

namespace SecureArith

/-- The programs are related, the stores are the same up to the names of values, and both journals
keep events of the level. -/
structure Bench.Renamed (ρ : Renaming) (level : Option Level) (P : Program → Program → Prop)
    (b c : Bench) : Prop where
  program : P b.program c.program
  store : b.forest.store.Renamed ρ c.forest.store
  roots : c.forest.roots = b.forest.roots
  level_left : b.journal.level = level
  level_right : c.journal.level = level

namespace Work

variable {ρ : Renaming} {level : Option Level} {P : Program → Program → Prop} {α β : Type}
  {Q : α → β → Prop}

theorem agrees_onStore {x : StoreM α} {y : StoreM β}
    (h : Agrees (Store.Renamed ρ) Failure.Like Q x y) :
    Agrees (Bench.Renamed ρ level P) Failure.Like Q (onStore x) (onStore y) := by
  rintro ⟨p, ⟨roots, s⟩, journal⟩ ⟨q, ⟨roots', t⟩, journal'⟩
    ⟨program, store, sameRoots, left, right⟩
  have edited := h s t store
  unfold Alike at edited ⊢
  unfold onStore
  cases first : x s <;> cases second : y t <;> simp only [first, second] at edited ⊢
  · exact ⟨edited.1, program, edited.2, sameRoots, left, right⟩
  · exact ⟨edited.1, program, edited.2, sameRoots, left, right⟩

theorem level_note (j : Journal) (e : Event) : (j.note e).level = j.level := by
  unfold Journal.note
  split <;> rfl

theorem agrees_note (e e' : Event) :
    Agrees (Bench.Renamed ρ level P) Failure.Like (fun _ _ => True) (note e) (note e') := by
  apply Agrees.modify
  intro b c related
  refine ⟨related.program, related.store, related.roots, ?_, ?_⟩
  · rw [level_note, related.level_left]
  · rw [level_note, related.level_right]

theorem agrees_noteAt (l : Level) {event event' : Work Event}
    (h : Agrees (Bench.Renamed ρ level P) Failure.Like (fun _ _ => True) event event') :
    Agrees (Bench.Renamed ρ level P) Failure.Like (fun _ _ => True) (noteAt l event)
      (noteAt l event') := by
  apply Agrees.get.bind
  intro b c related
  apply Agrees.ite
  · rw [Journal.keeps, Journal.keeps, related.level_left, related.level_right]
  · exact fun _ => h.bind fun e e' _ => agrees_note e e'
  · exact fun _ => .pure trivial

theorem agrees_demand {o : Option α} {o' : Option β} (h : Option.Rel Q o o') :
    Agrees (Bench.Renamed ρ level P) Failure.Like Q (demand o) (demand o') := by
  cases h with
  | some related => exact .pure related
  | none => exact .throw rfl

theorem agrees_node (id : NodeId) :
    Agrees (Bench.Renamed ρ level P) Failure.Like (Node.Renamed ρ) (node id) (node id) :=
  agrees_onStore (Store.agrees_read id)

theorem agrees_tree (id : NodeId) :
    Agrees (Bench.Renamed ρ level P) Failure.Like (fun t u => u = t.rename ρ) (tree id)
      (tree id) := by
  apply Agrees.get.bind
  intro b c related
  apply Agrees.pure
  rw [related.store.eq, Store.tree_rename]

theorem agrees_shown (id : NodeId) :
    Agrees (Bench.Renamed ρ level P) Failure.Like (fun _ _ => True) (shown id) (shown id) := by
  apply (agrees_tree id).bind
  rintro t _ rfl
  apply agrees_demand
  rw [Tree.text?, Tree.text?, Tree.printable_rename]
  split
  · exact .some trivial
  · exact .none

theorem agrees_event {f g : String → Event} (id : NodeId) :
    Agrees (Bench.Renamed ρ level P) Failure.Like (fun _ _ => True) (do return f (← shown id))
      (do return g (← shown id)) :=
  (agrees_shown id).bind fun _ _ _ => .pure trivial

theorem agrees_typeAt (c : Classifier) (force : Bool) (id : NodeId) :
    Agrees (Bench.Renamed ρ level P) Failure.Like Eq (typeAt c force id) (typeAt c force id) :=
  agrees_onStore (Store.agrees_typeAt c force id)

theorem agrees_isSecure (c : Classifier) (id : NodeId) :
    Agrees (Bench.Renamed ρ level P) Failure.Like Eq (isSecure c id) (isSecure c id) := by
  apply (agrees_typeAt c false id).bind
  rintro type _ rfl
  exact .pure rfl

theorem agrees_expand (id : NodeId) :
    Agrees (Bench.Renamed ρ level P) Failure.Like (fun _ _ => True) (expand id) (expand id) := by
  apply Agrees.get.bind
  intro b c related
  rw [related.roots]
  exact agrees_onStore (Store.agrees_expand b.forest.roots id)

theorem agrees_register (key : TreeKey) (root : NodeId) :
    Agrees (Bench.Renamed ρ level P) Failure.Like (fun _ _ => True) (register key root)
      (register key root) := by
  apply Agrees.modify
  intro b c related
  refine ⟨related.program, related.store, ?_, related.level_left, related.level_right⟩
  change (key, root) :: c.forest.roots.filter _ = (key, root) :: b.forest.roots.filter _
  rw [related.roots]

/-! ## Factoring -/

theorem agrees_factorOnce (root : NodeId) :
    Agrees (Bench.Renamed ρ level P) Failure.Like Eq (factorOnce root) (factorOnce root) := by
  apply (agrees_tree root).bind
  rintro t _ rfl
  have related : Option.Rel (fun found found' => found' = Option.map (Factoring.rename ρ) found)
      t.factoring? (t.rename ρ).factoring? := by
    rw [Tree.factoring?_rename]
    cases t.factoring? with
    | none => exact .none
    | some found => exact .some rfl
  apply (agrees_demand related).bind
  rintro found _ rfl
  cases found with
  | none => exact .pure rfl
  | some f =>
    apply (agrees_noteAt .debug
      ((agrees_shown f.later.id).bind fun _ _ _ => agrees_event f.sum)).bind
    intro _ _ _
    apply (agrees_onStore (Store.agrees_factorOut f)).bind
    intro _ _ _
    apply (agrees_noteAt .debug (agrees_event f.sum)).bind
    intro _ _ _
    exact .pure rfl

theorem agrees_factorUpTo (root : NodeId) (n : Nat) (changed : Bool) :
    Agrees (Bench.Renamed ρ level P) Failure.Like Eq (factorUpTo root n changed)
      (factorUpTo root n changed) := by
  induction n generalizing changed with
  | zero => exact .pure rfl
  | succ n ih =>
    apply (agrees_factorOnce root).bind
    rintro found _ rfl
    apply Agrees.ite Iff.rfl
    · exact fun _ => ih true
    · exact fun _ => .pure rfl

theorem agrees_factorAll (c : Classifier) (root : NodeId) :
    Agrees (Bench.Renamed ρ level P) Failure.Like Eq (factorAll c root) (factorAll c root) := by
  apply Agrees.get.bind
  intro b d related
  rw [related.store.size_eq]
  apply (agrees_factorUpTo root _ false).bind
  rintro changed _ rfl
  apply Agrees.ite Iff.rfl
  · intro _
    apply (agrees_typeAt c true root).bind
    intro _ _ _
    exact .pure rfl
  · exact fun _ => .pure rfl

/-! ## Powers -/

theorem agrees_replacePower (id base : NodeId) (k : Nat) :
    Agrees (Bench.Renamed ρ level P) Failure.Like (fun _ _ => True) (replacePower id base k)
      (replacePower id base k) := by
  match k with
  | 0 => exact agrees_onStore (Store.agrees_overwrite id base)
  | 1 => exact agrees_onStore (Store.agrees_overwrite id base)
  | extra + 2 =>
    apply (agrees_onStore (Store.agrees_product base extra)).bind
    rintro product _ rfl
    apply (agrees_onStore (Store.agrees_overwrite id product)).bind
    intro _ _ _
    exact agrees_noteAt .debug (agrees_event id)

theorem agrees_exponent (power id : NodeId) :
    Agrees (Bench.Renamed ρ level P) Failure.Like Eq (exponent power id) (exponent power id) := by
  apply (agrees_node id).bind
  rintro n _ ⟨rfl, -⟩
  rw [Node.int?_rename]
  cases n.int? with
  | none => exact (agrees_shown power).bind fun _ _ _ => .throw rfl
  | some k =>
    apply Agrees.ite Iff.rfl
    · exact fun _ => (agrees_shown power).bind fun _ _ _ => .throw rfl
    · intro _
      apply Agrees.ite Iff.rfl
      · exact fun _ => (agrees_shown power).bind fun _ _ _ => .throw rfl
      · exact fun _ => .pure rfl

theorem agrees_expandPowersTo (depth : Nat) (id : NodeId) :
    Agrees (Bench.Renamed ρ level P) Failure.Like Eq (expandPowersTo depth id)
      (expandPowersTo depth id) := by
  induction depth generalizing id with
  | zero => exact .throw rfl
  | succ depth ih =>
    rw [expandPowersTo]
    apply (agrees_node id).bind
    rintro ⟨label, left, right⟩ _ ⟨rfl, -⟩
    apply Agrees.ite Iff.rfl
    · exact fun _ => .pure rfl
    · intro _
      apply Agrees.ite Iff.rfl
      · intro _
        cases left with
        | none => exact (agrees_shown id).bind fun _ _ _ => .throw rfl
        | some base =>
          cases right with
          | none => exact (agrees_shown id).bind fun _ _ _ => .throw rfl
          | some power =>
            apply (ih base).bind
            intro _ _ _
            apply (agrees_exponent id power).bind
            rintro k _ rfl
            apply (agrees_replacePower id base k).bind
            intro _ _ _
            exact .pure rfl
      · intro _
        apply (Agrees.mapM_eq ih).bind
        rintro changed _ rfl
        exact .pure rfl

theorem agrees_expandPowers (id : NodeId) :
    Agrees (Bench.Renamed ρ level P) Failure.Like Eq (expandPowers id) (expandPowers id) := by
  apply Agrees.get.bind
  intro b d related
  rw [related.store.size_eq]
  exact agrees_expandPowersTo _ id

/-! ## Priorities -/

theorem agrees_exchange (c : Classifier) (root child sibling operand : NodeId) :
    Agrees (Bench.Renamed ρ level P) Failure.Like (fun _ _ => True)
      (exchange c root child sibling operand) (exchange c root child sibling operand) := by
  have put (id old new : NodeId) : Agrees (Bench.Renamed ρ level P) Failure.Like (fun _ _ => True)
      (onStore (Store.write id (·.withChild old new)))
      (onStore (Store.write id (·.withChild old new))) := by
    apply agrees_onStore
    apply Store.agrees_write
    · intro n
      unfold Node.withChild
      rw [apply_ite (Node.rename ρ)]
      rfl
    · intro n owns
      unfold Node.withChild
      split
      · exact owns
      · exact owns
  apply (put child operand sibling).bind
  intro _ _ _
  apply (put root sibling operand).bind
  intro _ _ _
  apply (agrees_onStore (Store.agrees_setMemo child none)).bind
  intro _ _ _
  apply (agrees_typeAt c false child).bind
  intro _ _ _
  exact agrees_noteAt .debug (agrees_event root)

theorem agrees_exchangeSecure (c : Classifier) (root child sibling : NodeId) (k : Node) :
    Agrees (Bench.Renamed ρ level P) Failure.Like Eq (exchangeSecure c root child sibling k)
      (exchangeSecure c root child sibling (k.rename ρ)) := by
  obtain ⟨label, left, right⟩ := k
  apply (agrees_isSecure c sibling).bind
  rintro secure _ rfl
  apply Agrees.ite Iff.rfl
  · exact fun _ => .pure rfl
  · intro _
    cases left with
    | none => exact .pure rfl
    | some a =>
      cases right with
      | none => exact .pure rfl
      | some b =>
        apply (agrees_isSecure c a).bind
        rintro secureA _ rfl
        apply (agrees_isSecure c b).bind
        rintro secureB _ rfl
        apply Agrees.ite Iff.rfl
        · exact fun _ => .pure rfl
        · intro _
          apply (agrees_exchange c root child sibling _).bind
          intro _ _ _
          exact .pure rfl

theorem agrees_swap (c : Classifier) (root child : NodeId) :
    Agrees (Bench.Renamed ρ level P) Failure.Like Eq (swap c root child) (swap c root child) := by
  apply (agrees_node root).bind
  rintro ⟨label, left, right⟩ _ ⟨rfl, -⟩
  apply Agrees.ite Iff.rfl
  · exact fun _ => .throw rfl
  · intro _
    apply (agrees_node child).bind
    rintro k _ ⟨rfl, -⟩
    apply Agrees.ite Iff.rfl
    · intro _
      apply (agrees_shown root).bind
      intro _ _ _
      apply (agrees_shown child).bind
      intro _ _ _
      exact .throw_bind rfl
    · intro _
      cases left with
      | none => exact .pure rfl
      | some l =>
        cases right with
        | none => exact .pure rfl
        | some r => exact agrees_exchangeSecure c root child _ k

theorem agrees_isConsecutive (id : NodeId) :
    Agrees (Bench.Renamed ρ level P) Failure.Like Eq (isConsecutive id) (isConsecutive id) := by
  apply (agrees_node id).bind
  rintro ⟨⟨origin, memo, op, expanded⟩, left, right⟩ _ ⟨rfl, -⟩
  cases op with
  | none => exact .pure rfl
  | some op =>
    apply Agrees.ite Iff.rfl
    · intro _
      apply Agrees.anyM
      intro child
      apply (agrees_node child).bind
      rintro k _ ⟨rfl, -⟩
      exact .pure rfl
    · exact fun _ => .pure rfl

theorem agrees_swapChild (c : Classifier) (root : NodeId) (op : Option Operator) (child : NodeId) :
    Agrees (Bench.Renamed ρ level P) Failure.Like Eq (swapChild c root op child)
      (swapChild c root op child) := by
  apply (agrees_node child).bind
  rintro k _ ⟨rfl, -⟩
  apply Agrees.ite Iff.rfl
  · exact fun _ => agrees_swap c root child
  · exact fun _ => .pure rfl

theorem agrees_reorderOnceTo (c : Classifier) (depth : Nat) (id : NodeId) :
    Agrees (Bench.Renamed ρ level P) Failure.Like Eq (reorderOnceTo c depth id)
      (reorderOnceTo c depth id) := by
  induction depth generalizing id with
  | zero => exact .throw rfl
  | succ depth ih =>
    rw [reorderOnceTo]
    apply (agrees_node id).bind
    rintro n _ ⟨rfl, -⟩
    apply Agrees.ite Iff.rfl
    · exact fun _ => .pure rfl
    · intro _
      apply (agrees_isSecure c id).bind
      rintro secure _ rfl
      apply Agrees.ite Iff.rfl
      · exact fun _ => .pure rfl
      · intro _
        have below : Agrees (Bench.Renamed ρ level P) Failure.Like Eq
            (n.children.anyM (reorderOnceTo c depth)) (n.children.anyM (reorderOnceTo c depth)) :=
          .anyM ih
        apply (agrees_isConsecutive id).bind
        rintro consecutive _ rfl
        apply Agrees.ite Iff.rfl
        · intro _
          apply (Agrees.anyM (agrees_swapChild c id n.op)).bind
          rintro swapped _ rfl
          apply Agrees.ite Iff.rfl
          · exact fun _ => .pure rfl
          · exact fun _ => below
        · exact fun _ => below

theorem agrees_reorderUpTo (c : Classifier) (root : NodeId) (limit n : Nat) :
    Agrees (Bench.Renamed ρ level P) Failure.Like Eq (reorderUpTo c root limit n)
      (reorderUpTo c root limit n) := by
  induction n with
  | zero =>
    apply (agrees_noteAt .warn (agrees_event root)).bind
    intro _ _ _
    exact .pure rfl
  | succ n ih =>
    have once : Agrees (Bench.Renamed ρ level P) Failure.Like Eq (reorderOnce c root)
        (reorderOnce c root) := by
      apply Agrees.get.bind
      intro b d related
      rw [related.store.size_eq]
      exact agrees_reorderOnceTo c _ root
    apply once.bind
    rintro swapped _ rfl
    apply Agrees.ite Iff.rfl
    · exact fun _ => ih
    · exact fun _ => .pure rfl

theorem agrees_reorderAll (c : Classifier) (root : NodeId) :
    Agrees (Bench.Renamed ρ level P) Failure.Like Eq (reorderAll c root) (reorderAll c root) := by
  have whole : Agrees (Bench.Renamed ρ level P) Failure.Like (fun t u => u = t.rename ρ)
      (completeTree root) (completeTree root) := by
    apply (agrees_tree root).bind
    rintro t _ rfl
    apply Agrees.ite
    · rw [Tree.complete_rename]
    · exact fun _ => .pure rfl
    · exact fun _ => .throw rfl
  apply whole.bind
  rintro t _ rfl
  rw [Tree.size_rename]
  apply (agrees_reorderUpTo c root _ _).bind
  rintro swaps _ rfl
  exact .pure rfl

theorem agrees_optional (on : Bool) {x : Work Bool}
    (h : Agrees (Bench.Renamed ρ level P) Failure.Like Eq x x) :
    Agrees (Bench.Renamed ρ level P) Failure.Like Eq (optional on x) (optional on x) := by
  cases on with
  | true => exact h
  | false => exact .pure rfl

theorem agrees_transform (s : Settings) (root : NodeId) :
    Agrees (Bench.Renamed ρ level P) Failure.Like Eq (transform s root) (transform s root) := by
  apply (agrees_optional s.expandPowers (agrees_expandPowers root)).bind
  rintro expanded _ rfl
  apply (agrees_optional s.factorize (agrees_factorAll s.classifier root)).bind
  rintro factored _ rfl
  apply (agrees_optional s.reorderPriorities (agrees_reorderAll s.classifier root)).bind
  rintro reordered _ rfl
  exact .pure rfl

end Work

end SecureArith
