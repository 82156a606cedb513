import SecureArith.Optimizer
import SecureArith.Proofs.Alike
import SecureArith.Proofs.Factoring.Search

set_option autoImplicit false

/-!
# Other names for values

The nodes of a store refer to values of a program. Where the same nodes refer to values by other
names, edits, searches and typing do the same: they look at what values are and not at their names,
which stand in nothing but the texts of failures.
-/

namespace SecureArith

/-- The values that may be referred to, and their names elsewhere. -/
structure Renaming where
  owns : ValueId → Prop
  name : ValueId → ValueId

/-- Failures of one kind. -/
def Failure.Like (e e' : Failure) : Prop := e.kind = e'.kind

variable {ρ : Renaming}

def Origin.rename (ρ : Renaming) (o : Origin) : Origin := { o with id := ρ.name o.id }

namespace Label

variable {l k : Label}

def rename (ρ : Renaming) (l : Label) : Label := { l with origin := l.origin.map (·.rename ρ) }

@[simp] theorem atom?_rename (l : Label) : (l.rename ρ).atom? = l.atom? := by
  unfold atom? rename
  cases l.origin <;> rfl

@[simp] theorem type?_rename (l : Label) : (l.rename ρ).type? = l.type? := by
  unfold type? rename
  cases l.origin <;> rfl

@[simp] theorem sameAtom_rename (l k : Label) :
    (l.rename ρ).sameAtom (k.rename ρ) = l.sameAtom k := by
  simp only [sameAtom, atom?_rename]

end Label

namespace Node

def rename (ρ : Renaming) (n : Node) : Node := { n with toLabel := n.toLabel.rename ρ }

@[simp] theorem var?_rename (n : Node) : (n.rename ρ).var? = n.var? := by
  have atom : (n.rename ρ).atom? = n.atom? := Label.atom?_rename n.toLabel
  rw [var?, leafAtom?, atom]
  rfl

@[simp] theorem int?_rename (n : Node) : (n.rename ρ).int? = n.int? := by
  have atom : (n.rename ρ).atom? = n.atom? := Label.atom?_rename n.toLabel
  rw [int?, leafAtom?, atom]
  rfl

/-- The node refers to an owned value, if to any, and the other node to the same by its other
name. -/
structure Renamed (ρ : Renaming) (n m : Node) : Prop where
  eq : m = n.rename ρ
  owns : ∀ o ∈ n.origin, ρ.owns o.id

theorem renamed_of_origin {n : Node} (absent : n.origin = none) : n.Renamed ρ n where
  eq := by
    obtain ⟨⟨origin, memo, op, expanded⟩, left, right⟩ := n
    cases absent
    rfl
  owns o mem := by
    rw [absent] at mem
    exact absurd mem (Option.not_mem_none o)

end Node

namespace Tree

def rename (ρ : Renaming) : Tree → Tree
  | .nil => .nil
  | .missing id => .missing id
  | .node id label child => .node id (label.rename ρ) fun side => (child side).rename ρ

variable {t u : Tree}

@[simp] theorem isNil_rename (t : Tree) : (t.rename ρ).isNil = t.isNil := by
  cases t <;> rfl

@[simp] theorem id?_rename (t : Tree) : (t.rename ρ).id? = t.id? := by
  cases t <;> rfl

@[simp] theorem complete_rename (t : Tree) : (t.rename ρ).complete = t.complete := by
  induction t with
  | nil | missing => rfl
  | node id label child ih => simp only [rename, complete, ih]

@[simp] theorem printable_rename (t : Tree) : (t.rename ρ).printable = t.printable := by
  induction t with
  | nil | missing => rfl
  | node id label child ih => simp only [rename, printable, ih, Label.rename]

@[simp] theorem size_rename (t : Tree) : (t.rename ρ).size = t.size := by
  induction t with
  | nil | missing => rfl
  | node id label child ih => simp only [rename, size, ih]

@[simp] theorem edges_rename (t : Tree) : (t.rename ρ).edges = t.edges := by
  induction t with
  | nil | missing => rfl
  | node id label child ih => simp only [rename, edges, ih, isNil_rename]

@[simp] theorem same?_rename (t u : Tree) : (t.rename ρ).same? (u.rename ρ) = t.same? u := by
  induction t generalizing u with
  | nil => cases u <;> rfl
  | missing => cases u <;> rfl
  | node id label child ih =>
    cases u with
    | nil => rfl
    | missing => rfl
    | node id' label' child' =>
      simp only [rename, same?, isNil_rename, Label.sameAtom_rename, ih]
      rfl

end Tree

namespace Store

def rename (ρ : Renaming) (s : Store) : Store := ⟨s.nodes.map (·.rename ρ)⟩

variable {s t : Store} {id : Nat} {n m : Node}

theorem get?_rename (s : Store) (id : NodeId) :
    (s.rename ρ).get? id = (s.get? id).map (·.rename ρ) := by
  simp [get?, rename]

@[simp] theorem size_rename (s : Store) : (s.rename ρ).size = s.size := by
  simp [size, rename]

theorem eq_of_get? (size : t.size = s.size) (same : ∀ id, t.get? id = s.get? id) : t = s := by
  obtain ⟨nodes⟩ := s
  obtain ⟨nodes'⟩ := t
  congr 1
  exact Array.ext_getElem? same

theorem rename_alloc (s : Store) (n : Node) :
    (s.alloc n).2.rename ρ = ((s.rename ρ).alloc (n.rename ρ)).2 := by
  simp [alloc, rename]

theorem rename_update {f g : Node → Node} (same : ∀ n, g (n.rename ρ) = (f n).rename ρ) (id : Nat) :
    (s.update id f).rename ρ = (s.rename ρ).update id g := by
  apply eq_of_get?
  · simp
  · intro j
    rw [get?_rename, get?_update, get?_update, get?_rename]
    split
    · cases s.get? j with
      | none => rfl
      | some n => exact congrArg some (same n).symm
    · rfl

theorem unfold_rename (s : Store) (depth : Nat) (id : NodeId) :
    (s.rename ρ).unfold depth id = (s.unfold depth id).rename ρ := by
  induction depth generalizing id with
  | zero => rfl
  | succ depth ih =>
    simp only [unfold, get?_rename]
    cases s.get? id with
    | none => rfl
    | some n =>
      simp only [Option.map_some, Tree.rename]
      congr 1
      funext side
      have place : (n.rename ρ).child side = n.child side := by cases side <;> rfl
      rw [place]
      cases n.child side with
      | none => rfl
      | some j => exact ih j

@[simp] theorem tree_rename (s : Store) (id : NodeId) :
    (s.rename ρ).tree id = (s.tree id).rename ρ := by
  rw [tree, tree, size_rename, unfold_rename]

/-- All nodes refer to owned values, and those of the other store to the same by their other
names. -/
structure Renamed (ρ : Renaming) (s t : Store) : Prop where
  eq : t = s.rename ρ
  owns : ∀ (id : Nat) (n : Node), s.get? id = some n → ∀ o ∈ n.origin, ρ.owns o.id

theorem Renamed.size_eq (h : s.Renamed ρ t) : t.size = s.size := by
  rw [h.eq, size_rename]

theorem Renamed.alloc (h : s.Renamed ρ t) (node : n.Renamed ρ m) :
    (s.alloc n).2.Renamed ρ (t.alloc m).2 where
  eq := by rw [h.eq, node.eq, rename_alloc]
  owns id k found := by
    rw [get?_alloc] at found
    split at found
    · cases found
      exact node.owns
    · exact h.owns id k found

theorem Renamed.update {f g : Node → Node} (h : s.Renamed ρ t)
    (same : ∀ n, g (n.rename ρ) = (f n).rename ρ)
    (owns : ∀ n, (∀ o ∈ n.origin, ρ.owns o.id) → ∀ o ∈ (f n).origin, ρ.owns o.id) (id : Nat) :
    (s.update id f).Renamed ρ (t.update id g) where
  eq := by rw [h.eq, rename_update same]
  owns j k found := by
    rw [get?_update] at found
    split at found
    · obtain ⟨n, there, rfl⟩ := Option.map_eq_some_iff.mp found
      exact owns n (h.owns j n there)
    · exact h.owns j k found

theorem agrees_read (id : NodeId) :
    Agrees (Renamed ρ) Failure.Like (Node.Renamed ρ) (read id) (read id) := by
  apply Agrees.get.bind
  intro s t related
  rw [related.eq, get?_rename]
  cases found : s.get? id with
  | none => exact .throw rfl
  | some n => exact .pure ⟨rfl, related.owns id n found⟩

theorem agrees_append (node : n.Renamed ρ m) :
    Agrees (Renamed ρ) Failure.Like Eq (append n) (append m) := by
  intro s t related
  refine ⟨?_, related.alloc node⟩
  exact related.size_eq.symm

theorem agrees_write {f g : Node → Node} (same : ∀ n, g (n.rename ρ) = (f n).rename ρ)
    (owns : ∀ n, (∀ o ∈ n.origin, ρ.owns o.id) → ∀ o ∈ (f n).origin, ρ.owns o.id) (id : Nat) :
    Agrees (Renamed ρ) Failure.Like (fun _ _ => True) (write id f) (write id g) := by
  apply (agrees_read id).bind
  intro _ _ _
  exact .modify fun _ _ related => related.update same owns id

theorem agrees_setMemo (id : NodeId) (memo : Option TypeName) :
    Agrees (Renamed ρ) Failure.Like (fun _ _ => True) (setMemo id memo) (setMemo id memo) := by
  apply agrees_write
  · exact fun _ => rfl
  · exact fun _ owns => owns

theorem agrees_overwrite (target source : NodeId) :
    Agrees (Renamed ρ) Failure.Like (fun _ _ => True) (overwrite target source)
      (overwrite target source) := by
  unfold overwrite
  apply Agrees.ite Iff.rfl
  · exact fun _ => .pure trivial
  · intro _
    apply (agrees_read source).bind
    intro n m node
    rw [node.eq]
    apply agrees_write
    · exact fun _ => rfl
    · exact fun _ _ => node.owns

theorem agrees_copyTo (depth : Nat) (id : NodeId) :
    Agrees (Renamed ρ) Failure.Like Eq (copyTo depth id) (copyTo depth id) := by
  induction depth generalizing id with
  | zero => exact .throw rfl
  | succ depth ih =>
    rw [copyTo]
    apply (agrees_read id).bind
    rintro n _ ⟨rfl, owns⟩
    apply (Agrees.optionMapM ih).bind
    rintro left _ rfl
    apply (Agrees.optionMapM ih).bind
    rintro right _ rfl
    exact agrees_append ⟨rfl, owns⟩

theorem agrees_copy (id : NodeId) :
    Agrees (Renamed ρ) Failure.Like Eq (copy id) (copy id) := by
  apply Agrees.get.bind
  intro s t related
  rw [related.size_eq]
  exact agrees_copyTo s.size id

theorem agrees_realize (c : Classifier) (force : Bool) (depth : Nat) (id : NodeId) :
    Agrees (Renamed ρ) Failure.Like Eq (realize c force depth id) (realize c force depth id) := by
  induction depth generalizing id with
  | zero => exact .throw rfl
  | succ depth ih =>
    rw [realize]
    apply (agrees_read id).bind
    rintro n _ ⟨rfl, -⟩
    have memo : (n.rename ρ).memo = n.memo := rfl
    rw [memo]
    cases (if force then none else n.memo : Option TypeName) with
    | some type => exact .pure rfl
    | none =>
      apply (Agrees.optionMapM ih).bind
      rintro left _ rfl
      apply (Agrees.optionMapM ih).bind
      rintro right _ rfl
      have type : (n.rename ρ).type? = n.type? := Label.type?_rename n.toLabel
      rw [type]
      cases (c.combine? left right).or n.type? with
      | some type =>
        exact Agrees.bind (agrees_setMemo id (some type)) fun _ _ _ => .pure rfl
      | none =>
        apply Agrees.get.bind
        intro _ _ _
        exact .throw rfl

theorem agrees_typeAt (c : Classifier) (force : Bool) (id : NodeId) :
    Agrees (Renamed ρ) Failure.Like Eq (typeAt c force id) (typeAt c force id) := by
  apply Agrees.get.bind
  intro s t related
  rw [related.size_eq]
  exact agrees_realize c force s.size id

theorem agrees_substitute {roots : List (TreeKey × NodeId)} (node : n.Renamed ρ m) (id : NodeId) :
    Agrees (Renamed ρ) Failure.Like (fun _ _ => True) (substitute roots id n)
      (substitute roots id m) := by
  unfold substitute
  rw [node.eq, Node.var?_rename]
  cases n.var?.bind fun v => roots.lookup (.var v) with
  | none => exact .pure trivial
  | some root =>
    apply (agrees_copy root).bind
    rintro copied _ rfl
    exact agrees_overwrite id copied

theorem agrees_expandTo (roots : List (TreeKey × NodeId)) (depth : Nat) (id : NodeId) :
    Agrees (Renamed ρ) Failure.Like (fun _ _ => True) (expandTo roots depth id)
      (expandTo roots depth id) := by
  induction depth generalizing id with
  | zero => exact .throw rfl
  | succ depth ih =>
    rw [expandTo]
    apply (agrees_read id).bind
    rintro n _ ⟨rfl, owns⟩
    apply Agrees.ite Iff.rfl
    · exact fun _ => .pure trivial
    · intro _
      have mark : Agrees (Renamed ρ) Failure.Like (fun _ _ => True)
          (write id fun n => { n with expanded := true })
          (write id fun n => { n with expanded := true }) := by
        apply agrees_write
        · exact fun _ => rfl
        · exact fun _ owns => owns
      apply Agrees.ite Iff.rfl
      · intro _
        exact (agrees_substitute ⟨rfl, owns⟩ id).bind fun _ _ _ => mark
      · intro _
        exact (Agrees.forM ih).bind fun _ _ _ => mark

theorem agrees_expand (roots : List (TreeKey × NodeId)) (id : NodeId) :
    Agrees (Renamed ρ) Failure.Like (fun _ _ => True) (expand roots id) (expand roots id) := by
  apply Agrees.get.bind
  intro s t related
  rw [related.size_eq]
  exact agrees_expandTo roots s.size id

theorem agrees_product (base : NodeId) (extra : Nat) :
    Agrees (Renamed ρ) Failure.Like Eq (product base extra) (product base extra) := by
  have multiply (left right : NodeId) : Agrees (Renamed ρ) Failure.Like Eq
      (append { op := some .mul, left := some left, right := some right })
      (append { op := some .mul, left := some left, right := some right }) :=
    agrees_append (Node.renamed_of_origin rfl)
  induction extra with
  | zero =>
    rw [product]
    apply (agrees_copy base).bind
    rintro left _ rfl
    apply (agrees_copy base).bind
    rintro right _ rfl
    exact multiply left right
  | succ extra ih =>
    rw [product]
    apply ih.bind
    rintro right _ rfl
    apply (agrees_copy base).bind
    rintro left _ rfl
    exact multiply left right

end Store

/-! ## Factoring -/

def Factor.rename (ρ : Renaming) (f : Factor) : Factor := { f with tree := f.tree.rename ρ }

def Factoring.rename (ρ : Renaming) (f : Factoring) : Factoring :=
  ⟨f.sum, f.later.rename ρ, f.earlier.rename ρ⟩

/-- Two searches that have visited the same nodes in the same places. -/
structure FactorSearch.Renamed (ρ : Renaming) (m m' : FactorSearch) : Prop where
  visited : m'.visited = m.visited
  place : ∀ id, m'.place? id = (m.place? id).map (·.rename ρ)

namespace Factor

theorem matches?_rename (f g : Factor) : (f.rename ρ).matches? (g.rename ρ) = f.matches? g := by
  unfold matches?
  rw [rename, rename, Tree.same?_rename]

theorem twin?_rename {m m' : FactorSearch} (h : m.Renamed ρ m') (f : Factor) :
    m'.twin? (f.rename ρ) = m.twin? f := by
  rw [FactorSearch.twin?, FactorSearch.twin?, h.visited]
  congr 1
  funext id
  rw [h.place id]
  cases m.place? id with
  | none => rfl
  | some g => exact matches?_rename f g

theorem agrees_visit (f : Factor) :
    Agrees (FactorSearch.Renamed ρ) Eq (fun _ _ => True) f.visit (f.rename ρ).visit := by
  unfold visit
  have meet : Agrees (FactorSearch.Renamed ρ) Eq (fun _ _ => True)
      (modify (·.met f) : Search Unit) (modify (·.met (f.rename ρ))) := by
    apply Agrees.modify
    intro m m' h
    refine ⟨h.visited, fun id => ?_⟩
    rw [FactorSearch.place?_met, FactorSearch.place?_met, h.place id]
    exact (apply_ite (Option.map (·.rename ρ)) (id = f.id) (some f) (m.place? id)).symm
  apply meet.bind
  intro _ _ _
  apply Agrees.get.bind
  intro m m' h
  rw [twin?_rename h]
  cases m.twin? f with
  | none => exact .throw rfl
  | some found =>
    cases found with
    | some id => exact .throw rfl
    | none =>
      apply Agrees.modify
      intro m m' h
      exact ⟨congrArg (· ++ [f.id]) h.visited, h.place⟩

end Factor

namespace Tree

theorem agrees_visitFactor (parent sibling product sum tail : NodeId) (t : Tree) :
    Agrees (FactorSearch.Renamed ρ) Eq (fun _ _ => True)
      (t.visitFactor parent sibling product sum tail)
      ((t.rename ρ).visitFactor parent sibling product sum tail) := by
  cases t with
  | nil => exact .pure trivial
  | missing => exact .throw rfl
  | node id label child =>
    apply Agrees.ite Iff.rfl
    · exact fun _ => .pure trivial
    · exact fun _ => Factor.agrees_visit ⟨id, .node id label child, _, _, _, _, _⟩

theorem agrees_searchProduct (product sum tail : NodeId) (t : Tree) :
    Agrees (FactorSearch.Renamed ρ) Eq (fun _ _ => True)
      (t.searchProduct product sum tail) ((t.rename ρ).searchProduct product sum tail) := by
  induction t with
  | nil => exact .pure trivial
  | missing => exact .throw rfl
  | node id label child ih =>
    rw [rename, searchProduct, searchProduct, id?_rename, id?_rename]
    cases (child .left).id? with
    | none => exact .pure trivial
    | some left =>
      cases (child .right).id? with
      | none => exact .pure trivial
      | some right =>
        apply Agrees.ite Iff.rfl
        · intro _
          apply (agrees_visitFactor id right product sum tail (child .left)).bind
          intro _ _ _
          apply (agrees_visitFactor id left product sum tail (child .right)).bind
          intro _ _ _
          apply (ih .left).bind
          intro _ _ _
          exact ih .right
        · exact fun _ => .pure trivial

theorem agrees_searchSum (t : Tree) :
    Agrees (FactorSearch.Renamed ρ) Eq (fun _ _ => True) t.searchSum
      (t.rename ρ).searchSum := by
  induction t with
  | nil => exact .pure trivial
  | missing => exact .pure trivial
  | node id label child ih =>
    rw [rename, searchSum, searchSum, id?_rename, id?_rename]
    cases (child .left).id? with
    | none => exact .pure trivial
    | some left =>
      cases (child .right).id? with
      | none => exact .pure trivial
      | some right =>
        apply Agrees.ite Iff.rfl
        · intro _
          apply (agrees_searchProduct left id right (child .left)).bind
          intro _ _ _
          apply (ih .left).bind
          intro _ _ _
          apply (agrees_searchProduct right id left (child .right)).bind
          intro _ _ _
          exact ih .right
        · exact fun _ => .pure trivial

theorem matchingFactors?_rename (t : Tree) :
    (t.rename ρ).matchingFactors? =
      t.matchingFactors?.map (·.map fun pair => (pair.1.rename ρ, pair.2.rename ρ)) := by
  have start : FactorSearch.Renamed ρ {} {} := ⟨rfl, fun _ => rfl⟩
  have searched := agrees_searchSum t {} {} start
  unfold matchingFactors?
  unfold Alike at searched
  cases first : t.searchSum {} with
  | ok _ m =>
    cases second : (t.rename ρ).searchSum {} with
    | ok => rfl
    | error => simp only [first, second] at searched
  | error e m =>
    cases second : (t.rename ρ).searchSum {} with
    | ok => simp only [first, second] at searched
    | error e' m' =>
      simp only [first, second] at searched
      obtain ⟨rfl, related⟩ := searched
      cases e with
      | outOfRange => rfl
      | found later earlier =>
        simp only [related.place]
        cases m.place? later with
        | none => rfl
        | some f => cases m.place? earlier <;> rfl

theorem factoring?_rename (t : Tree) :
    (t.rename ρ).factoring? = t.factoring?.map (·.map (·.rename ρ)) := by
  induction t with
  | nil | missing => rfl
  | node id label child ih =>
    have isOp : (label.rename ρ).isOp .add = label.isOp .add := rfl
    have whole : (Tree.node id (label.rename ρ) fun side => (child side).rename ρ).matchingFactors? =
        _ := matchingFactors?_rename (.node id label child)
    rw [rename, factoring?, factoring?, isOp, ih, ih, whole]
    split
    · cases (Tree.node id label child).matchingFactors? with
      | none => rfl
      | some found => cases found <;> rfl
    · cases (child .left).factoring? with
      | none => rfl
      | some found => cases found <;> rfl

end Tree

namespace Store

theorem agrees_rejoin (later earlier : Factor) :
    Agrees (Renamed ρ) Failure.Like (fun _ _ => True) (rejoin later earlier)
      (rejoin (later.rename ρ) (earlier.rename ρ)) := by
  apply (agrees_copy later.product).bind
  rintro rest _ rfl
  apply (agrees_append (Node.renamed_of_origin rfl)).bind
  rintro sum _ rfl
  apply agrees_write
  · exact fun _ => rfl
  · exact fun _ _ o mem => absurd mem (Option.not_mem_none o)

theorem agrees_factorOut (f : Factoring) :
    Agrees (Renamed ρ) Failure.Like (fun _ _ => True) (factorOut f) (factorOut (f.rename ρ)) := by
  apply (agrees_overwrite f.earlier.parent f.earlier.sibling).bind
  intro _ _ _
  apply (agrees_overwrite f.later.parent f.later.sibling).bind
  intro _ _ _
  apply (agrees_rejoin f.later f.earlier).bind
  intro _ _ _
  exact agrees_overwrite f.earlier.sum f.earlier.tail

end Store

end SecureArith
