import SecureArith.Proofs.Factoring.Saving
import SecureArith.Proofs.Preservation

set_option autoImplicit false

/-!
# How values are made anew

Where powers are not expanded, minimizing a value can be told value by value: an operation stays or
is emitted anew from its expanded and transformed tree, and a call of another number of operands
stays or is made again with operands that were made anew. `Program.Remade` says so of a value and
`Program.RemadeAlong` of a body, with the trees that are registered on the way.
-/

namespace SecureArith

theorem Interpretation.reorders_muls : Interpretation.muls.Reorders where
  comm op _ a b := by
    simp only [muls, List.sum_cons, List.sum_nil]
    omega
  assoc op _ a b c := by
    simp only [muls, List.sum_cons, List.sum_nil]
    omega

namespace Tree

variable {s : Settings} {changed : Bool} {t u v : Tree}

/-- What the transformations make of a tree where powers are not expanded. -/
structure Transformed (s : Settings) (changed : Bool) (t u : Tree) : Prop where
  isNil : u.isNil = t.isNil
  muls_le : ∀ env other, other none = 0 → u.eval .muls env other ≤ t.eval .muls env other
  leaves : ∀ o ∈ u.leaves, o ∈ t.leaves
  proper : u.proper = true
  complete : u.complete = true
  plain : s.reorderPriorities = false → t.plain = true → u.plain = true
  inner : s.reorderPriorities = false → t.inner = true → u.inner = true
  settled : s.reorderPriorities = false → s.factorize = true → u.Settled
  kept : s.reorderPriorities = false → changed = false → u.bare = t.bare

theorem Transformed.congr (h : t.Transformed s changed u) (same : v.bare = u.bare) :
    t.Transformed s changed v where
  isNil := (isNil_eq_of_bare same).trans h.isNil
  muls_le env other nothing := eval_eq_of_bare same ▸ h.muls_le env other nothing
  leaves o mem := h.leaves o (leaves_eq_of_bare same ▸ mem)
  proper := (proper_eq_of_bare same).trans h.proper
  complete := (complete_eq_of_bare same).trans h.complete
  plain off plain := (plain_eq_of_bare same).trans (h.plain off plain)
  inner off inner := (inner_eq_of_bare same).trans (h.inner off inner)
  settled off on := settled_of_outline (outline_eq_of_bare same) (h.settled off on)
  kept off unchanged := same.trans (h.kept off unchanged)

theorem transformed_refl (proper : t.proper = true) (complete : t.complete = true)
    (off : s.factorize = false) : t.Transformed s changed t where
  isNil := rfl
  muls_le _ _ _ := Nat.le_refl _
  leaves _ mem := mem
  proper := proper
  complete := complete
  plain _ plain := plain
  inner _ inner := inner
  settled _ on := absurd (off.symm.trans on) Bool.false_ne_true
  kept _ _ := rfl

theorem plain_of_factored (h : Relation.ReflTransGen Factored t u) (plain : t.plain = true) :
    u.plain = true := by
  induction h with
  | refl => exact plain
  | tail _ step ih => exact step.plain ih

theorem inner_of_factored (h : Relation.ReflTransGen Factored t u) (inner : t.inner = true) :
    u.inner = true := by
  cases h with
  | refl => exact inner
  | tail _ step => exact inner_of_muls_pos (step.muls_pos rfl _)

theorem transformed_of_factored (h : Relation.ReflTransGen Factored t u) (proper : t.proper = true)
    (same : v.bare = u.bare) (complete : v.complete = true) (settled : v.Settled)
    (kept : changed = false → v = t) : t.Transformed s changed v := by
  have refines : t.Refines .integers u :=
    refines_of_factored Interpretation.arithmetic_integers h proper
  refine ⟨(isNil_eq_of_bare same).trans refines.isNil, fun env other nothing => ?_,
    fun o mem => ?_, ?_, complete, fun _ plain => ?_, fun _ inner => ?_, fun _ _ => settled,
    fun _ unchanged => by rw [kept unchanged]⟩
  · rw [eval_eq_of_bare same]
    exact muls_le_of_factored nothing h env
  · exact refines.leaves o (leaves_eq_of_bare same ▸ mem)
  · exact (proper_eq_of_bare same).trans (refines.proper proper)
  · exact (plain_eq_of_bare same).trans (plain_of_factored h plain)
  · exact (inner_eq_of_bare same).trans (inner_of_factored h inner)

theorem Transformed.reordered {changed' : Bool} (h : t.Transformed s changed u)
    (on : s.reorderPriorities = true) (steps : Relation.ReflTransGen Reordered u v)
    (complete : v.complete = true) : t.Transformed s changed' v := by
  have refines : u.Refines .muls v := by
    clear complete
    induction steps with
    | refl => exact .refl _ u
    | tail _ step ih => exact ih.trans (step.refines Interpretation.reorders_muls)
  have notOff : s.reorderPriorities ≠ false := by simp [on]
  refine ⟨refines.isNil.trans h.isNil, fun env other nothing => ?_,
    fun o mem => h.leaves o (refines.leaves o mem),
    refines.proper h.proper, complete, fun off => absurd off notOff, fun off => absurd off notOff,
    fun off => absurd off notOff, fun off => absurd off notOff⟩
  rw [refines.eval]
  exact h.muls_le env other nothing

end Tree

namespace Work

variable {s : Settings} {b : Bench} {root : Nat} {t : Tree}

/-- The transformations that are switched on, when the expansion of powers is not. -/
theorem ends_transform_transformed (h : b.forest.store.Owned (some root) t)
    (proper : t.proper = true) (noPowers : s.expandPowers = false) :
    Ends (transform s root) b
      (fun changed b' => ∃ u, b.Reworked (some root) t b' u ∧ t.Transformed s changed u)
      fun _ _ => True := by
  have factored : Ends (optional s.factorize (factorAll s.classifier root)) b
      (fun changed b' => ∃ u, b.Reworked (some root) t b' u ∧ t.Transformed s changed u)
      fun _ _ => True := by
    rw [optional, Ends.ite_iff]
    refine ⟨fun _ => (ends_factorAll_settles h).imp ?_ fun _ _ _ => trivial, fun off => ?_⟩
    · rintro changed b' ⟨u, v, reworked, steps, same, settled, kept⟩
      exact ⟨v, reworked, Tree.transformed_of_factored steps proper (Tree.bare_eq_of_untyped same)
        reworked.owned.spans.complete settled kept⟩
    · exact ⟨t, .refl h, Tree.transformed_refl proper h.spans.complete (Bool.eq_false_iff.mpr off)⟩
  have reordered {b₁ : Bench} {u : Tree} {changed : Bool} (owned : b₁.forest.store.Owned (some root) u)
      (transformed : t.Transformed s changed u) :
      Ends (optional s.reorderPriorities (reorderAll s.classifier root)) b₁
        (fun changed' b' => ∃ v, b₁.Reworked (some root) u b' v ∧
          t.Transformed s (changed || changed') v)
        fun _ _ => True := by
    rw [optional, Ends.ite_iff]
    refine ⟨fun on => (ends_reorderAll owned).imp ?_ fun _ _ _ => trivial, fun off => ?_⟩
    · rintro changed' b' ⟨v, w, reworked, steps, same⟩
      have bare := Tree.bare_eq_of_untyped same
      have complete := (Tree.complete_eq_of_bare bare).symm.trans reworked.owned.spans.complete
      exact ⟨w, reworked, (transformed.reordered on steps complete).congr bare⟩
    · rw [Ends.pure_iff, Bool.or_false]
      exact ⟨u, .refl owned, transformed⟩
  rw [transform, noPowers, Ends.bind_iff]
  change Ends (optional s.factorize _ >>= _) b _ _
  rw [Ends.bind_iff]
  refine factored.imp ?_ fun _ _ _ => trivial
  rintro changed b₁ ⟨u, reworked, transformed⟩
  rw [Ends.bind_iff]
  refine (reordered reworked.owned transformed).imp ?_ fun _ _ _ => trivial
  rintro changed' b₂ ⟨v, reworked', transformed'⟩
  rw [Ends.pure_iff, Bool.false_or]
  exact ⟨v, reworked.trans reworked', transformed'⟩

end Work

universe u

variable {R : Type u} [Zero R]

namespace Program

/-- How a value is minimized: the value in its place, and its tree if it has one. New values are
found in the program `q`. -/
inductive Remade (s : Settings) (I : Interpretation R) (p : Program) (trees : VarId → Option Tree)
    (q : Program) : ValueId → ValueId → Option Tree → Prop
  | atom {id : ValueId} {v : Value} {t u : Tree} (found : p.values[id]? = some v)
      (atomic : v.isCall = false) (shows : p.Shows id t)
      (alike : u.bare = (t.expandWith trees).bare) : Remade s I p trees q id id (some u)
  | kept {id : ValueId} {v : Value} {t e u : Tree} (found : p.values[id]? = some v)
      (binary : v.isBinary = true) (shows : p.Shows id t)
      (alike : e.bare = (t.expandWith trees).bare) (transformed : e.Transformed s false u) :
      Remade s I p trees q id id (some u)
  | emitted {id new : ValueId} {v : Value} {t e u : Tree} (found : p.values[id]? = some v)
      (binary : v.isBinary = true) (shows : p.Shows id t)
      (alike : e.bare = (t.expandWith trees).bare) (transformed : e.Transformed s true u)
      (there : new < q.values.size)
      (computes : ∀ env, q.eval? I env new = some (p.evalTree I env u)) :
      Remade s I p trees q id new (some u)
  | same {id : ValueId} {v : Value} {func : FuncId}
      {parts : List (ValueId × ValueId × Option Tree)} (found : p.values[id]? = some v)
      (kind : v.kind = .call func (parts.map (·.1))) (other : parts.length ≠ 2)
      (operands : ∀ part ∈ parts, Remade s I p trees q part.1 part.2.1 part.2.2)
      (unchanged : parts.map (·.2.1) = parts.map (·.1)) : Remade s I p trees q id id none
  | again {id new : ValueId} {v w : Value} {func : FuncId}
      {parts : List (ValueId × ValueId × Option Tree)} (found : p.values[id]? = some v)
      (kind : v.kind = .call func (parts.map (·.1))) (other : parts.length ≠ 2)
      (operands : ∀ part ∈ parts, Remade s I p trees q part.1 part.2.1 part.2.2)
      (made : q.values[new]? = some w) (made_kind : w.kind = .call func (parts.map (·.2.1))) :
      Remade s I p trees q id new none

variable {s : Settings} {I : Interpretation R} {p q r : Program} {trees : VarId → Option Tree}
  {id new : Nat} {tree : Option Tree}

theorem Remade.mono (h : p.Remade s I trees q id new tree) (ext : q.Extends r)
    (wf : q.WellFormed) : p.Remade s I trees r id new tree := by
  induction h with
  | atom found atomic shows alike => exact .atom found atomic shows alike
  | kept found binary shows alike transformed => exact .kept found binary shows alike transformed
  | emitted found binary shows alike transformed there computes =>
    exact .emitted found binary shows alike transformed (Nat.lt_of_lt_of_le there ext.grows)
      fun env => (ext.eval?_eq wf there).trans (computes env)
  | same found kind other _ unchanged ih => exact .same found kind other ih unchanged
  | again found kind other _ made made_kind ih =>
    have lt := (Array.getElem?_eq_some_iff.mp made).1
    exact .again found kind other ih ((ext.kept _ lt).trans made) made_kind

theorem Remade.treeless_iff (h : p.Remade s I trees q id new tree) :
    tree = none ↔ p.treeless id = true := by
  cases h with
  | atom found atomic => simp [treeless_eq_false found (.inl atomic)]
  | kept found binary => simp [treeless_eq_false found (.inr binary)]
  | emitted found binary => simp [treeless_eq_false found (.inr binary)]
  | same found kind other => simp [treeless_of_call found kind (by simpa using other)]
  | again found kind other => simp [treeless_of_call found kind (by simpa using other)]

theorem Remade.isNil_eq {t : Tree} (present : ∀ v u, trees v = some u → u.isNil = false)
    (h : p.Remade s I trees q id new (some t)) : t.isNil = false := by
  have expanded {t e : Tree} (shows : p.Shows id t) (alike : e.bare = (t.expandWith trees).bare) :
      e.isNil = false := by
    rw [Tree.isNil_eq_of_bare alike, Tree.isNil_expandWith present]
    exact shows.isNil_eq
  cases h with
  | atom found atomic shows alike => exact expanded shows alike
  | kept found binary shows alike transformed => exact transformed.isNil.trans (expanded shows alike)
  | emitted found binary shows alike transformed =>
    exact transformed.isNil.trans (expanded shows alike)

/-- What the trees of variables stand for after an instruction, each read of a variable with a tree
standing for the tree. An assignment of a value without a tree leaves the tree that was there. -/
def definitionsAfter (I : Interpretation R) (p : Program) (env : Env R) (i : Instruction) : Env R :=
  if p.treeless i.value then env else i.after env ((p.eval? I env i.value).getD 0)

/-- The statements of a body, minimized one after the other. -/
inductive RemadeAlong (s : Settings) (I : Interpretation R) (p q : Program) :
    (VarId → Option Tree) → List Instruction → List Instruction → Prop
  | nil (trees : VarId → Option Tree) : RemadeAlong s I p q trees [] []
  | cons {trees : VarId → Option Tree} {i : Instruction} {new : ValueId} {tree : Option Tree}
      {rest rest' : List Instruction} (head : p.Remade s I trees q i.value new tree)
      (tail : RemadeAlong s I p q (i.treesAfter trees tree) rest rest') :
      RemadeAlong s I p q trees (i :: rest) (i.withValue new :: rest')

end Program

namespace Work

open Program (Remade RemadeAlong)

variable {s : Settings} {I : Interpretation R} {p : Program} {b : Bench}
  {trees : VarId → Option Tree} {id : Nat}

variable (I) in
theorem ends_minimizeBinary_remade {v : Value} (wf : p.WellFormed)
    (keeps : b.Keeps s.classifier p trees) (found : p.values[id]? = some v)
    (binary : v.isBinary = true) (noPowers : s.expandPowers = false) :
    Ends (minimizeBinary s id) b
      (fun m b' => p.Remade s I trees b'.program id m.value (m.tree.map b'.forest.store.tree))
      fun _ _ => True := by
  have lt := (Array.getElem?_eq_some_iff.mp found).1
  refine ends_minimizeBinary_of wf keeps lt fun root s₁ t b₁ e shows turns reworked₁ alike => ?_
  have stands : p.Stands .integers trees id e := Program.stands_of_shows wf keeps shows alike
  have alike := Tree.bare_eq_of_anonymous alike
  refine (ends_transform_transformed reworked₁.owned stands.proper noPowers).imp ?_
    fun _ _ _ => trivial
  rintro changed b₂ ⟨u, reworked₂, transformed⟩
  constructor
  · rintro rfl
    change p.Remade s I trees _ id id (some (b₂.forest.store.tree root))
    rw [reworked₂.owned.tree_eq]
    exact .kept found binary shows alike transformed
  · rintro rfl
    have linked₂ : p.Linked s.classifier b₂.program :=
      (reworked₁.trans reworked₂).program ▸ keeps.linked
    refine (ends_typeAt reworked₂.owned).imp ?_ fun _ _ _ => trivial
    rintro type b₃ ⟨isType, -, typed⟩
    have transformed₃ : e.Transformed s true (u.typed s.classifier true) :=
      transformed.congr (Tree.bare_typed u)
    refine (ends_emit I wf (typed.program ▸ linked₂) typed.owned transformed₃.proper
      (stands.grounds.mono transformed₃.leaves)
      (Tree.realized_typed (Option.isSome_of_eq_some isType))).imp ?_ fun _ _ _ => trivial
    rintro new b₄ ⟨-, -, computes, w, turned, bare⟩
    refine ⟨⟨w, turned.owned⟩, fun journal => ?_⟩
    change p.Remade s I trees _ id new (some (b₄.forest.store.tree root))
    rw [turned.owned.tree_eq]
    refine .emitted found binary shows alike (transformed₃.congr bare) computes.there fun env => ?_
    rw [computes.meaning env, Program.evalTree, Program.evalTree, Tree.eval_eq_of_bare bare]

variable (s I) in
theorem ends_minimizeLeaf_remade {v : Value} (keeps : b.Keeps s.classifier p trees)
    (found : p.values[id]? = some v) (atomic : v.isCall = false) :
    Ends (minimizeLeaf id v) b
      (fun m b' => p.Remade s I trees b'.program id m.value (m.tree.map b'.forest.store.tree))
      fun _ _ => True := by
  refine ends_minimizeLeaf_of keeps found atomic fun leaf s₁ t b₁ e shows _ reworked alike => ?_
  change p.Remade s I trees _ id id (some (b₁.forest.store.tree leaf))
  rw [reworked.owned.tree_eq]
  exact .atom found atomic shows (Tree.bare_eq_of_anonymous alike)

/-- A value was minimized, and this is how. -/
def Remakes (s : Settings) (I : Interpretation R) (p : Program) (trees : VarId → Option Tree)
    (b : Bench) (id : ValueId) (m : Minimized) (b' : Bench) : Prop :=
  Minimizes .integers s.classifier p trees b id m b' ∧
    p.Remade s I trees b'.program id m.value (m.tree.map b'.forest.store.tree)

variable (I) in
theorem ends_mapM_remade {f : ValueId → Work Minimized} {args : List ValueId} (wf : p.WellFormed)
    (keeps : b.Keeps s.classifier p trees)
    (step : ∀ a ∈ args, ∀ b : Bench, b.Keeps s.classifier p trees →
      Ends (f a) b (fun m b' => Remakes s I p trees b a m b') fun _ _ => True) :
    Ends (args.mapM f) b
      (fun done b' => p.Linked s.classifier b'.program ∧ b.program.Extends b'.program ∧
        ∃ parts : List (ValueId × ValueId × Option Tree), parts.map (·.1) = args ∧
          parts.map (·.2.1) = done.map (·.value) ∧
          ∀ part ∈ parts, p.Remade s I trees b'.program part.1 part.2.1 part.2.2)
      fun _ _ => True := by
  induction args generalizing b with
  | nil => exact ⟨keeps.linked, .refl _, [], rfl, rfl, fun _ mem => absurd mem List.not_mem_nil⟩
  | cons a rest ih =>
    rw [List.mapM_cons, Ends.bind_iff]
    refine (step a List.mem_cons_self b keeps).imp ?_ fun _ _ _ => trivial
    rintro m b₁ ⟨minimizes, remade⟩
    rw [Ends.bind_iff]
    refine (ih (keeps.mono minimizes.linked minimizes.roots minimizes.turns) fun a mem =>
      step a (List.mem_cons_of_mem _ mem)).imp ?_ fun _ _ _ => trivial
    rintro done b₂ ⟨linked, grown, parts, args, values, all⟩
    have remade := remade.mono grown (minimizes.linked.wellFormed wf)
    refine ⟨linked, minimizes.grown.trans grown, (a, m.value, _) :: parts, ?_, ?_,
      List.forall_mem_cons.mpr ⟨remade, all⟩⟩
    · rw [List.map_cons, args]
    · rw [List.map_cons, List.map_cons, values]

variable (I) in
theorem ends_minimizeTo_remade {rank : Nat → Nat} {depth : Nat} (wf : p.WellFormed)
    (ranked : p.RankedBy rank) (keeps : b.Keeps s.classifier p trees) (lt : id < p.values.size)
    (deep : rank id < depth) (noPowers : s.expandPowers = false) :
    Ends (minimizeTo s depth id) b (fun m b' => Remakes s I p trees b id m b')
      fun _ _ => True := by
  induction depth generalizing b id with
  | zero => omega
  | succ depth ih =>
    suffices remade : Ends (minimizeTo s (depth + 1) id) b
        (fun m b' => p.Remade s I trees b'.program id m.value (m.tree.map b'.forest.store.tree))
        fun _ _ => True from
      ((ends_minimizeTo Interpretation.arithmetic_integers wf ranked keeps lt deep).and remade).imp
        (fun _ _ h => h) fun _ _ _ => trivial
    obtain ⟨v, found⟩ : ∃ v, p.values[id]? = some v := ⟨_, Array.getElem?_eq_getElem lt⟩
    have ext := keeps.linked.extends
    refine ends_minimizeTo_succ ((ext.kept id lt).trans found) (fun binary => ?_)
      (fun func args kind length => ?_) fun atomic => ?_
    · exact ends_minimizeBinary_remade I wf keeps found binary noPowers
    · have operands : v.operands = args := by simp [Value.operands, kind]
      refine (ends_mapM_remade I wf keeps fun a mem b' keeps' => ?_).imp ?_ fun _ _ _ => trivial
      · have mem : a ∈ v.operands := operands ▸ mem
        have less := ranked id v found a mem
        exact ih keeps' (wf.closed id v found a mem) (by omega)
      · rintro done b₁ ⟨linked, -, parts, rfl, values, all⟩
        rw [List.length_map] at length
        rw [← values]
        refine ⟨fun unchanged => ?_, fun _ => ?_⟩
        · exact .same found kind length all unchanged
        · have there := (linked.extends.kept id lt).trans found
          refine ⟨v, there, ?_⟩
          rw [Program.withArgs_eq there kind (parts.map (·.2.1))]
          have grown := Program.extends_push b₁.program v.type (.call func (parts.map (·.2.1)))
          exact .again found kind length
            (fun part mem => (all part mem).mono grown (linked.wellFormed wf))
            (Program.getElem?_push_self _ _ _) rfl
    · exact ends_minimizeLeaf_remade s I keeps found atomic

variable (I) in
theorem ends_minimizeInstruction_remade {i : Instruction} (wf : p.WellFormed)
    (keeps : b.Keeps s.classifier p trees) (lt : i.value < p.values.size)
    (noPowers : s.expandPowers = false) :
    Ends (minimizeInstruction s i) b
      (fun m b' => ∃ tree, b'.Keeps s.classifier p (i.treesAfter trees tree) ∧
        p.Remade s I trees b'.program i.value m.value tree)
      fun _ _ => True := by
  obtain ⟨rank, ranked, bounded⟩ := wf.exists_rank
  rw [minimizeInstruction, Ends.bind_iff, minimize, Ends.bind_iff, Ends.get_iff]
  refine (ends_minimizeTo_remade I wf ranked keeps lt
    (Nat.lt_of_lt_of_le (bounded _ lt) keeps.linked.extends.grows) noPowers).imp ?_
    fun _ _ _ => trivial
  rintro m b₁ ⟨minimizes, remade⟩
  have tree := minimizes.tree
  cases isTree : m.tree with
  | none =>
    rw [isTree] at tree remade
    have same : i.treesAfter trees none = trees := by cases i <;> rfl
    refine ⟨none, ?_, remade⟩
    rw [same]
    exact keeps.mono minimizes.linked minimizes.roots tree.2
  | some root =>
    rw [isTree] at tree remade
    obtain ⟨-, t, owned, turns, stands⟩ := tree
    rw [Option.map_some, owned.tree_eq] at remade
    refine ⟨some t, ?_, remade⟩
    exact (keeps.mono minimizes.linked minimizes.roots turns).add owned stands.proper
      stands.grounds i

variable (I) in
theorem ends_minimizeBody_remade {body : List Instruction} (wf : p.WellFormed)
    (keeps : b.Keeps s.classifier p trees) (inside : ∀ i ∈ body, i.value < p.values.size)
    (noPowers : s.expandPowers = false) :
    Ends (minimizeBody s body) b
      (fun out b' => p.RemadeAlong s I b'.program trees body out.1) fun _ _ => True := by
  induction body generalizing b trees with
  | nil => exact .nil trees
  | cons i rest ih =>
    have lt := inside i List.mem_cons_self
    have below := fun j mem => inside j (List.mem_cons_of_mem i mem)
    rw [minimizeBody, Ends.bind_iff]
    refine (ends_minimizeInstruction_remade I wf keeps lt noPowers).imp ?_ fun _ _ _ => trivial
    rintro m b₁ ⟨tree, keeps₁, remade⟩
    rw [Ends.bind_iff]
    refine ((ends_minimizeBody Interpretation.arithmetic_integers wf keeps₁ below).and
      (ih keeps₁ below)).imp ?_ fun _ _ _ => trivial
    rintro ⟨body', n⟩ b₂ ⟨⟨-, -, grown, -⟩, along⟩
    exact .cons (remade.mono grown (keeps₁.linked.wellFormed wf)) along

variable (I) in
theorem ends_optimizeFunction_remade {f : Function} {forest : Forest} {journal : Journal}
    (wf : p.WellFormed) (inside : ∀ i ∈ f.body, i.value < p.values.size)
    (noPowers : s.expandPowers = false) (noChains : s.reorderMatmuls = false) :
    Ends (optimizeFunction s f) ⟨p, forest, journal⟩
      (fun out b' => if s.changesTreesOf f
        then p.RemadeAlong s I b'.program (fun _ => none) f.body out.2
        else b'.program = p ∧ out.2 = f.body)
      fun _ _ => True := by
  have minimized : Ends (minimizeFunction s f) ⟨p, {}, journal⟩
      (fun out b' => if s.changesTreesOf f
        then p.RemadeAlong s I b'.program (fun _ => none) f.body out.1
        else b'.program = p ∧ out.1 = f.body)
      fun _ _ => True := by
    rw [minimizeFunction]
    split
    · exact ends_minimizeBody_remade I wf (Bench.keeps_empty _ p journal) inside noPowers
    · exact ⟨rfl, rfl⟩
  rw [optimizeFunction, ends_aside, Ends.bind_iff]
  refine minimized.imp ?_ fun _ _ _ => trivial
  rintro ⟨body, regenerated⟩ b' done
  dsimp only
  rw [replaceChainsOf_eq noChains, pure_bind, Ends.bind_iff]
  exact ends_counts done fun _ => trivial

end Work

end SecureArith
