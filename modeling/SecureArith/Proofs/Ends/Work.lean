import SecureArith.Proofs.Forest
import SecureArith.Proofs.Typing
import SecureArith.Work

set_option autoImplicit false

/-!
# How work on a bench ends

`Bench.Turned` says that a tree was changed and that the registered roots are as they were, and
`Bench.Reworked` that the program is as it was too. Of work that failed on the way `Bench.Confined`
says that it kept to the tree and to new nodes. The journal is not looked at.
-/

namespace SecureArith

variable {α : Type}

namespace Bench

def withStore (b : Bench) (s : Store) : Bench := { b with forest := { b.forest with store := s } }

@[simp] theorem program_withStore (b : Bench) (s : Store) :
    (b.withStore s).program = b.program := rfl

@[simp] theorem roots_withStore (b : Bench) (s : Store) :
    (b.withStore s).forest.roots = b.forest.roots := rfl

@[simp] theorem store_withStore (b : Bench) (s : Store) : (b.withStore s).forest.store = s := rfl

/-- The tree at a place has become another. -/
structure Turned (b : Bench) (p : Option NodeId) (t : Tree) (b' : Bench) (u : Tree) :
    Prop where
  roots : b'.forest.roots = b.forest.roots
  owned : b'.forest.store.Owned p u
  turns : b.forest.store.Turns t b'.forest.store u

/-- Nothing but a tree has changed. -/
structure Reworked (b : Bench) (p : Option NodeId) (t : Tree) (b' : Bench) (u : Tree) : Prop
    extends Turned b p t b' u where
  program : b'.program = b.program

/-- Nothing has changed but the nodes of a tree; what has become of it is left open. -/
structure Confined (b : Bench) (t : Tree) (b' : Bench) : Prop where
  roots : b'.forest.roots = b.forest.roots
  turns : b.forest.store.Turns t b'.forest.store .nil

variable {b b' b'' : Bench} {p : Option NodeId} {t u v : Tree} {s : Store}

theorem Turned.refl (owned : b.forest.store.Owned p t) : b.Turned p t b t :=
  ⟨rfl, owned, .refl _ _⟩

theorem Turned.trans (h : b.Turned p t b' u) (h' : b'.Turned p u b'' v) : b.Turned p t b'' v :=
  ⟨h'.roots.trans h.roots, h'.owned, h.turns.trans h'.turns⟩

theorem Reworked.refl (owned : b.forest.store.Owned p t) : b.Reworked p t b t :=
  ⟨.refl owned, rfl⟩

theorem Reworked.trans (h : b.Reworked p t b' u) (h' : b'.Reworked p u b'' v) :
    b.Reworked p t b'' v :=
  ⟨h.toTurned.trans h'.toTurned, h'.program.trans h.program⟩

theorem reworked_withStore (owned : s.Owned p u) (turns : b.forest.store.Turns t s u) :
    b.Reworked p t (b.withStore s) u :=
  ⟨⟨rfl, owned, turns⟩, rfl⟩

theorem Reworked.note (h : b.Reworked p t b' u) (journal : Journal) :
    b.Reworked p t { b' with journal } u :=
  ⟨⟨h.roots, h.owned, h.turns⟩, h.program⟩

theorem Confined.refl (b : Bench) (t : Tree) : b.Confined t b :=
  ⟨rfl, Nat.le_refl _, fun _ _ _ => rfl, nofun⟩

theorem Turned.confined (h : b.Turned p t b' u) : b.Confined t b' :=
  ⟨h.roots, h.turns.grows, h.turns.frame, nofun⟩

theorem Confined.after (h : b'.Confined u b'') (roots : b'.forest.roots = b.forest.roots)
    (turns : b.forest.store.Turns t b'.forest.store u) : b.Confined t b'' :=
  ⟨h.roots.trans roots, turns.trans h.turns⟩

theorem Turned.confined_after (h : b.Turned p t b' u) (h' : b'.Confined u b'') : b.Confined t b'' :=
  h'.after h.roots h.turns

theorem Confined.mono (h : b.Confined t b') (sub : ∀ i ∈ t.preorder, i ∈ u.preorder) :
    b.Confined u b' :=
  ⟨h.roots, h.turns.mono sub⟩

variable {id : Nat} {n : Node} {l r l' r' : Tree}

/-- Work on one subtree is work on the tree. -/
theorem Turned.child (split : b.forest.store.Split id n l r) (side : Side)
    (h : b.Turned (n.child side) (Tree.pair l r side) b' (Tree.pair l' r' side))
    (kept : Tree.pair l' r' side.flip = Tree.pair l r side.flip) :
    b'.forest.store.Split id n l' r' ∧
      b.Turned (some id) (.node id n.toLabel (Tree.pair l r)) b'
        (.node id n.toLabel (Tree.pair l' r')) := by
  obtain ⟨split', turns⟩ := split.turn side h.turns h.owned kept
  exact ⟨split', h.roots, split'.owned, turns⟩

theorem Reworked.child (split : b.forest.store.Split id n l r) (side : Side)
    (h : b.Reworked (n.child side) (Tree.pair l r side) b' (Tree.pair l' r' side))
    (kept : Tree.pair l' r' side.flip = Tree.pair l r side.flip) :
    b'.forest.store.Split id n l' r' ∧
      b.Reworked (some id) (.node id n.toLabel (Tree.pair l r)) b'
        (.node id n.toLabel (Tree.pair l' r')) := by
  obtain ⟨split', turned⟩ := h.toTurned.child split side kept
  exact ⟨split', turned, h.program⟩

end Bench

namespace Work

variable {b : Bench} {id : Nat} {n : Node} {t : Tree}

theorem ends_onStore {x : StoreM α} {ok : α → Bench → Prop} {failed : Failure → Bench → Prop} :
    Ends (onStore x) b ok failed ↔
      Ends x b.forest.store (fun a s => ok a (b.withStore s))
        fun e s => failed e (b.withStore s) := by
  obtain ⟨program, ⟨registry, store⟩, journal⟩ := b
  simp only [Ends, onStore]
  cases x store <;> rfl

theorem ends_node {ok : Node → Bench → Prop} {failed : Failure → Bench → Prop}
    (found : b.forest.store.get? id = some n) (h : ok n b) : Ends (node id) b ok failed := by
  rw [node, ends_onStore]
  exact Store.ends_read found h

theorem ends_value {v : Value} {ok : Value → Bench → Prop} {failed : Failure → Bench → Prop}
    (found : b.program.values[id]? = some v) (h : ok v b) : Ends (value id) b ok failed := by
  rw [value, Ends.bind_iff, Ends.get_iff, found]
  exact h

theorem ends_tree {ok : Tree → Bench → Prop} {failed : Failure → Bench → Prop} :
    Ends (tree id) b ok failed ↔ ok (b.forest.store.tree id) b := by
  rw [tree, Ends.bind_iff, Ends.get_iff]
  exact Iff.rfl

theorem ends_demand {x : Option α} {ok : α → Bench → Prop} {failed : Failure → Bench → Prop}
    (h : ∀ a, x = some a → ok a b) (absent : x = none → failed .outOfRange b) :
    Ends (demand x) b ok failed := by
  cases x with
  | none => exact absent rfl
  | some a => exact h a rfl

theorem ends_counts {ok : Nat × Nat → Bench → Prop} {failed : Failure → Bench → Prop}
    (h : ok b.forest.counts b) (missing : b.forest.complete ≠ true → failed .outOfRange b) :
    Ends counts b ok failed := by
  rw [counts, Ends.bind_iff, Ends.get_iff, Forest.counts?_eq]
  split
  · exact h
  · rename_i incomplete
    exact missing incomplete

theorem printable_of_complete {t : Tree} (h : t.complete = true) : t.printable = true := by
  induction t with
  | nil => rfl
  | missing => simp [Tree.complete] at h
  | node _ _ _ ih =>
    simp only [Tree.complete, Bool.and_eq_true] at h
    simp [Tree.printable, ih .left h.1, ih .right h.2]

theorem ends_shown (h : b.forest.store.Spans (some id) t)
    (deep : t.height ≤ b.forest.store.size) {ok : String → Bench → Prop}
    {failed : Failure → Bench → Prop} (text : ok t.text b) : Ends (shown id) b ok failed := by
  rw [Work.shown, Ends.bind_iff, ends_tree, Store.tree, h.unfold_eq deep]
  refine ends_demand (fun shownText eq => ?_) fun eq => ?_
  · rw [Tree.text?, if_pos (printable_of_complete h.complete)] at eq
    exact Option.some.inj eq ▸ text
  · rw [Tree.text?, if_pos (printable_of_complete h.complete)] at eq
    cases eq

theorem ends_note {e : Event} {ok : Unit → Bench → Prop} {failed : Failure → Bench → Prop}
    (h : ∀ journal, ok () { b with journal }) : Ends (note e) b ok failed := h _

theorem ends_noteAt {level : Level} {event : Work Event} {ok : Unit → Bench → Prop}
    {failed : Failure → Bench → Prop}
    (worked : Ends event b (fun _ b' => b' = b) fun e b' => b' = b ∧ failed e b)
    (h : ∀ journal, ok () { b with journal }) : Ends (noteAt level event) b ok failed := by
  rw [noteAt, Ends.bind_iff, Ends.get_iff, Ends.ite_iff]
  refine ⟨fun _ => ?_, fun _ => h b.journal⟩
  rw [Ends.bind_iff]
  refine worked.imp ?_ ?_
  · rintro e b' rfl
    exact ends_note h
  · rintro e b' ⟨rfl, failed⟩
    exact failed

theorem ends_typeAt {c : Classifier} {force : Bool}
    (h : b.forest.store.Owned (some id) t) :
    Ends (typeAt c force id) b
      (fun type b' => t.type? c force = some type ∧ b'.journal = b.journal ∧
        b.Reworked (some id) t b' (t.typed c force))
      fun e b' => t.type? c force = none ∧ e.kind = .type ∧
        ∃ u, b.Reworked (some id) t b' u ∧ u.untyped = t.untyped := by
  rw [typeAt, ends_onStore]
  refine (Store.ends_typeAt h).imp ?_ ?_
  · rintro type s ⟨found, owned, turns⟩
    exact ⟨found, rfl, Bench.reworked_withStore owned turns⟩
  · rintro e s ⟨absent, kind, u, owned, turns, same⟩
    exact ⟨absent, kind, u, Bench.reworked_withStore owned turns, same⟩

end Work

end SecureArith
