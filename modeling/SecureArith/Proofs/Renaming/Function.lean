import SecureArith.Proofs.Atomicity
import SecureArith.Proofs.Renaming.Chain

set_option autoImplicit false

/-!
# Functions under other names

A function is optimized in the same way by any names: with the same report and a body that is the
same up to names, or with a failure of the same kind.
-/

namespace SecureArith

variable {ρ : Renaming}

theorem Forest.counts?_congr {f g : Forest} (store : f.store.Renamed ρ g.store)
    (roots : g.roots = f.roots) : g.counts? = f.counts? := by
  have sum (count : Tree → Nat) (same : ∀ t : Tree, count (t.rename ρ) = count t) :
      total g.trees count = total f.trees count := by
    unfold total trees
    rw [store.eq, roots, List.foldr_map, List.foldr_map]
    simp only [Store.tree_rename, same]
  have whole : g.complete = f.complete := by
    unfold complete trees
    rw [store.eq, roots, List.all_map, List.all_map]
    simp only [Function.comp_def, Store.tree_rename, Tree.complete_rename]
  rw [counts?_eq, counts?_eq, whole, counts, counts, sum _ Tree.size_rename,
    sum _ Tree.edges_rename]

namespace Work

variable {α β : Type} {p q : Program} {forest forest' : Forest} {journal journal' : Journal}

theorem alike_aside {x : Work α} {y : Work β} {ok : α → β → Bench → Bench → Prop}
    {failed : Failure → Failure → Bench → Bench → Prop}
    (h : Alike x y ⟨p, {}, journal⟩ ⟨q, {}, journal'⟩
      (fun a b s t => ok a b { s with forest } { t with forest := forest' })
      fun e e' s t => failed e e' { s with forest } { t with forest := forest' }) :
    Alike (aside x) (aside y) ⟨p, forest, journal⟩ ⟨q, forest', journal'⟩ ok failed := by
  unfold Alike aside at *
  cases first : x ⟨p, {}, journal⟩ <;> cases second : y ⟨q, {}, journal'⟩ <;>
    simp only [first, second] at h ⊢
  · exact h
  · exact h

theorem alike_counts {level : Option Level} {good : Program → Program → Prop} {b c : Bench}
    (related : Bench.Renamed ρ level good b c) :
    Alike counts counts b c (fun n n' b c => n' = n ∧ Bench.Renamed ρ level good b c)
      fun e e' b c => e.Like e' ∧ Bench.Renamed ρ level good b c := by
  unfold counts
  apply Alike.get_bind
  rw [Forest.counts?_congr related.store related.roots]
  cases b.forest.counts? with
  | none => exact ⟨rfl, related⟩
  | some n => exact ⟨rfl, related⟩

theorem alike_optimizeFunction {s : Settings} {f : Function} {others : ValueId → Option Value}
    {level : Option Level} (abreast : Program.Abreast ρ others p p q) (wf : p.WellFormed)
    (wf' : q.WellFormed) (helpers : p.NamesHelpers)
    (renamed : List.Forall₂ (Instruction.Renamed ρ) f.body f.body)
    (inside : ∀ i ∈ f.body, i.value < p.values.size) (left : journal.level = level)
    (right : journal'.level = level) :
    Alike (optimizeFunction s f) (optimizeFunction s f) ⟨p, forest, journal⟩ ⟨q, forest', journal'⟩
      (fun out out' b c => out'.1 = out.1 ∧
        List.Forall₂ (Instruction.Renamed ρ) out.2 out'.2 ∧
        b.program.Renamed ρ others c.program ∧ c.journal.level = level)
      fun e e' b c =>
        e.Like e' ∧ b.program.Renamed ρ others c.program ∧ c.journal.level = level := by
  have helpers' : q.NamesHelpers := by
    unfold Program.NamesHelpers
    rw [abreast.helpers_eq, abreast.funcs_eq]
    exact helpers
  have inside' : ∀ i ∈ f.body, i.value < q.values.size := fun i mem =>
    Nat.lt_of_lt_of_le (inside i mem) abreast.room
  have empty : Store.Renamed ρ {} {} := by
    refine ⟨by simp [Store.rename], fun id n found => ?_⟩
    simp [Store.get?] at found
  have start : Bench.Renamed ρ level (Program.Abreast ρ others p) ⟨p, {}, journal⟩
      ⟨q, {}, journal'⟩ := ⟨abreast, empty, rfl, left, right⟩
  have minimized := agrees_minimizeFunction s wf renamed inside _ _ start
  unfold optimizeFunction
  apply alike_aside
  apply Alike.bind
  apply ((minimized.and_left
    (ends_minimizeFunction Interpretation.arithmetic_integers wf inside)).and_right
    (ends_minimizeFunction Interpretation.arithmetic_integers wf' inside')).imp
  · rintro ⟨body, _⟩ ⟨body', n⟩ b c
      ⟨⟨⟨⟨renamed', rfl⟩, related⟩, linked, inside₁, -⟩, linked', -⟩
    have ready := (linked.wellFormed wf).chainable (linked.extends.namesHelpers helpers)
    have ready' := (linked'.wellFormed wf').chainable (linked'.extends.namesHelpers helpers')
    have plain : Bench.Renamed ρ level (Program.Renamed ρ others) b c :=
      ⟨related.program.toRenamed, related.store, related.roots, related.level_left,
        related.level_right⟩
    apply Alike.bind
    apply (alike_replaceChainsOf plain ready ready' renamed' inside₁).imp
    · rintro chains _ b' c' ⟨rfl, related'⟩
      apply Alike.bind
      apply (alike_counts related').imp
      · rintro ⟨nodes, edges⟩ _ b'' c'' ⟨rfl, related''⟩
        exact ⟨rfl, renamed', related''.program, related''.level_right⟩
      · exact fun _ _ _ _ fails => ⟨fails.1, fails.2.program, fails.2.level_right⟩
    · exact fun _ _ _ _ fails => ⟨fails.1, fails.2.program, fails.2.level_right⟩
  · rintro e e' b c ⟨⟨⟨like, related⟩, -⟩, -⟩
    exact ⟨like, related.program.toRenamed, related.level_right⟩

end Work

end SecureArith
