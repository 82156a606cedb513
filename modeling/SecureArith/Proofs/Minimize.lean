import SecureArith.Optimizer
import SecureArith.Proofs.Emission
import SecureArith.Proofs.Factoring
import SecureArith.Proofs.Power
import SecureArith.Proofs.Priority
import SecureArith.Proofs.Registry

set_option autoImplicit false

/-!
# Minimizing values and bodies

Minimizing a value computes it anew from its expanded and transformed tree. Where the registry is
coherent, the new value and the tree that is registered for it compute what the old value does.
Where minimizing fails, all nodes that were there before are as they were.
-/

namespace SecureArith

universe u

variable {R : Type u} {I : Interpretation R}

namespace Work

variable {b : Bench} {root : Nat} {t u : Tree}

/-- The tree has become one that computes the same. -/
def Improves (I : Interpretation R) (b : Bench) (root : NodeId) (t : Tree) (b' : Bench) : Prop :=
  ∃ u, b.Reworked (some root) t b' u ∧ t.Refines I u

/-- A transformation failed for some reason, and nothing but the tree has changed. -/
structure Halts (reason : Failure → Prop) (b : Bench) (t : Tree) (e : Failure) (b' : Bench) :
    Prop where
  program : b'.program = b.program
  confined : b.Confined t b'
  reason : reason e

/-- Some power of the tree cannot be expanded because of its exponent. -/
def Unexpanded (t : Tree) (e : Failure) : Prop := e.ofExponent = true ∧ t.expandPowers? = none

theorem Halts.of_reworked {reason : Failure → Prop} {b' : Bench} {e : Failure}
    (h : b.Reworked (some root) t b' u) (holds : reason e) : Halts reason b t e b' :=
  ⟨h.program, h.confined, holds⟩

theorem Halts.after {reason reason' : Failure → Prop} {b₁ b' : Bench} {e : Failure}
    (h : Halts reason b₁ u e b') (reworked : b.Reworked (some root) t b₁ u)
    (imp : reason e → reason' e) : Halts reason' b t e b' :=
  ⟨h.program.trans reworked.program, reworked.confined_after h.confined, imp h.reason⟩

theorem ends_optional {reason : Failure → Prop} {pass : Work Bool} (on : Bool)
    (owned : b.forest.store.Owned (some root) t)
    (passed : Ends pass b (fun _ b' => Improves I b root t b') (Halts reason b t)) :
    Ends (optional on pass) b (fun _ b' => Improves I b root t b')
      (Halts (fun e => on = true ∧ reason e) b t) := by
  rw [optional, Ends.ite_iff]
  refine ⟨fun isOn => passed.imp (fun _ _ h => h) fun e b' halts => ?_,
    fun _ => ⟨t, .refl owned, .refl I t⟩⟩
  exact ⟨halts.program, halts.confined, isOn, halts.reason⟩

theorem improves_of_untyped {b' : Bench} {v : Tree} (reworked : b.Reworked (some root) t b' v)
    (refines : t.Refines I u) (same : v.untyped = u.untyped) : Improves I b root t b' :=
  ⟨v, reworked, refines.trans (Tree.refines_of_bare (Tree.bare_eq_of_untyped same))⟩

end Work

variable [CommRing R]

namespace Tree

variable {t u : Tree}

theorem refines_of_factored (laws : I.Arithmetic) (h : Relation.ReflTransGen Factored t u)
    (proper : t.proper = true) : t.Refines I u := by
  induction h with
  | refl => exact .refl I t
  | tail _ step ih => exact ih.trans (step.refines laws (ih.proper proper))

theorem refines_of_reordered (laws : I.Arithmetic) (h : Relation.ReflTransGen Reordered t u) :
    t.Refines I u := by
  induction h with
  | refl => exact .refl I t
  | tail _ step ih => exact ih.trans (step.refines laws.reorders)

end Tree

namespace Work

variable {s : Settings} {c : Classifier} {b : Bench} {root : Nat} {t : Tree}

theorem ends_expandPowers_improves (laws : I.Arithmetic)
    (h : b.forest.store.Owned (some root) t) (proper : t.proper = true) :
    Ends (expandPowers root) b (fun _ b' => Improves I b root t b') (Halts (Unexpanded t) b t) := by
  refine (ends_expandPowers h).imp ?_ ?_
  · rintro _ b' ⟨-, -, u, v, reworked, expanded, alike⟩
    exact ⟨u, reworked, ((Tree.expands_of_expandPowers? expanded).refines laws).trans
      (Tree.refines_of_bare (Tree.bare_eq_of_anonymous alike))⟩
  · rintro e b' ⟨none, -, cause, u, reworked⟩
    exact .of_reworked reworked ⟨cause proper, none⟩

theorem ends_factorAll_improves (laws : I.Arithmetic) (h : b.forest.store.Owned (some root) t)
    (proper : t.proper = true) :
    Ends (factorAll c root) b (fun _ b' => Improves I b root t b') (Halts (·.kind = .type) b t) := by
  obtain ⟨n, b₁, u, made⟩ := exists_factorings h
  refine (made.ends_factorAll c h).imp ?_ ?_
  · rintro _ b' ⟨-, v, reworked, same, -⟩
    exact improves_of_untyped reworked (Tree.refines_of_factored laws made.factored proper) same
  · rintro e b' ⟨kind, -, v, reworked, -⟩
    exact .of_reworked reworked kind

theorem ends_reorderAll_improves (laws : I.Arithmetic) (h : b.forest.store.Owned (some root) t) :
    Ends (reorderAll c root) b (fun _ b' => Improves I b root t b') (Halts (·.kind = .type) b t) := by
  refine (ends_reorderAll h).imp ?_ ?_
  · rintro _ b' ⟨u, v, reworked, steps, same⟩
    exact improves_of_untyped reworked (Tree.refines_of_reordered laws steps) same
  · rintro e b' ⟨kind, u, v, reworked, -⟩
    exact .of_reworked reworked kind

/-- Whichever transformations are switched on, the tree computes what it did. -/
theorem ends_transform (laws : I.Arithmetic) (h : b.forest.store.Owned (some root) t)
    (proper : t.proper = true) :
    Ends (transform s root) b (fun _ b' => Improves I b root t b')
      (Halts (fun e => e.kind = .type ∨ s.expandPowers = true ∧ Unexpanded t e) b t) := by
  rw [transform, Ends.bind_iff]
  refine (ends_optional s.expandPowers h (ends_expandPowers_improves laws h proper)).imp ?_
    fun _ _ halts => halts.after (.refl h) .inr
  rintro expanded b₁ ⟨t₁, reworked₁, refines₁⟩
  rw [Ends.bind_iff]
  refine (ends_optional s.factorize reworked₁.owned
    (ends_factorAll_improves laws reworked₁.owned (refines₁.proper proper))).imp ?_
    fun _ _ halts => halts.after reworked₁ fun untyped => .inl untyped.2
  rintro factored b₂ ⟨t₂, reworked₂, refines₂⟩
  rw [Ends.bind_iff]
  refine (ends_optional s.reorderPriorities reworked₂.owned
    (ends_reorderAll_improves laws reworked₂.owned)).imp ?_
    fun _ _ halts => halts.after (reworked₁.trans reworked₂) fun untyped => .inl untyped.2
  rintro reordered b₃ ⟨t₃, reworked₃, refines₃⟩
  exact ⟨t₃, (reworked₁.trans reworked₂).trans reworked₃,
    (refines₁.trans refines₂).trans refines₃⟩

end Work

namespace Program

theorem withArgs_eq {q : Program} {id : ValueId} {v : Value} {func : FuncId}
    {args : List ValueId} (found : q.values[id]? = some v) (kind : v.kind = .call func args)
    (values : List ValueId) : q.withArgs id values = q.push v.type (.call func values) := by
  obtain ⟨_, _, _⟩ := v
  cases kind
  rw [withArgs, found]

/-- Minimizing a value minimizes the value itself and, where it has no tree, its operands. -/
inductive Descends (p : Program) : ValueId → ValueId → Prop
  | self (id : ValueId) : Descends p id id
  | operand {id a x : ValueId} {v : Value} {func : FuncId} {args : List ValueId}
      (found : p.values[id]? = some v) (kind : v.kind = .call func args) (other : args.length ≠ 2)
      (mem : a ∈ args) (h : Descends p a x) : Descends p id x

variable {p : Program} {trees : VarId → Option Tree} {id : Nat} {t u : Tree}

/-- Given the trees of variables, the tree computes the value, and reads what is known of it. -/
structure Stands (I : Interpretation R) (p : Program) (trees : VarId → Option Tree) (id : ValueId)
    (t : Tree) : Prop where
  proper : t.proper = true
  grounds : p.Grounds t
  meaning : ∀ env, p.Coherent I env trees → p.eval? I env id = some (p.evalTree I env t)
  reads : ∀ deps, p.Tracks deps trees → ∀ x ∈ p.readsOf t, x ∈ p.treeReads deps id

theorem Stands.refine (h : p.Stands I trees id t) (refines : t.Refines I u) :
    p.Stands I trees id u where
  proper := refines.proper h.proper
  grounds := h.grounds.mono refines.leaves
  meaning env coherent := by
    rw [h.meaning env coherent, evalTree, evalTree, refines.eval]
  reads deps tracks x mem := h.reads deps tracks x (readsOf_subset refines.leaves x mem)

theorem stands_of_shows {c : Classifier} {b : Bench} (wf : p.WellFormed)
    (keeps : b.Keeps c p trees) (h : p.Shows id t)
    (alike : u.anonymous = (t.expandWith trees).anonymous) : p.Stands I trees id u := by
  have expanded : p.Stands I trees id (t.expandWith trees) := by
    refine ⟨Tree.proper_expandWith keeps.isNil_eq keeps.proper h.proper, fun o mem => ?_,
      fun env coherent => ?_, fun deps tracks => h.readsOf_expandWith wf tracks keeps.isNil_eq⟩
    · rcases Tree.mem_leaves_expandWith keeps.isNil_eq mem with own | ⟨v, w, found, inserted⟩
      · exact h.grounds wf o own
      · exact keeps.grounds v w found o inserted
    · rw [h.eval?_eq wf, evalTree, evalTree, Tree.eval_expandWith keeps.isNil_eq coherent]
  exact expanded.refine (Tree.refines_of_bare (Tree.bare_eq_of_anonymous alike))

end Program

namespace Work

variable {s : Settings} {c : Classifier} {p : Program} {b b' : Bench}
  {trees : VarId → Option Tree} {id root : Nat} {t : Tree} {m : Minimized}

/-- A value of the grown program computes an old one, where the registry is coherent. -/
def Replaces (I : Interpretation R) (p : Program) (trees : VarId → Option Tree) (q : Program)
    (id v : ValueId) : Prop :=
  v < q.values.size ∧ ∀ env, p.Coherent I env trees → q.eval? I env v = p.eval? I env id

theorem Replaces.mono {q r : Program} {v : ValueId} (h : Replaces I p trees q id v)
    (ext : q.Extends r) (wf : q.WellFormed) : Replaces I p trees r id v :=
  ⟨Nat.lt_of_lt_of_le h.1 ext.grows, fun env coherent =>
    (ext.eval?_eq wf h.1).trans (h.2 env coherent)⟩

theorem replaces_self {q : Program} (wf : p.WellFormed) (ext : p.Extends q)
    (lt : id < p.values.size) : Replaces I p trees q id id :=
  ⟨Nat.lt_of_lt_of_le lt ext.grows, fun _ _ => ext.eval?_eq wf lt⟩

/-- A value was minimized: the new value computes the old one, and so does its tree. -/
structure Minimizes (I : Interpretation R) (c : Classifier) (p : Program)
    (trees : VarId → Option Tree) (b : Bench) (id : ValueId) (m : Minimized) (b' : Bench) :
    Prop where
  linked : p.Linked c b'.program
  grown : b.program.Extends b'.program
  roots : b'.forest.roots = b.forest.roots
  replaces : Replaces I p trees b'.program id m.value
  tree : match m.tree with
    | none => p.treeless id = true ∧ b.forest.store.Turns .nil b'.forest.store .nil
    | some root => p.treeless id = false ∧ ∃ t, b'.forest.store.Owned (some root) t ∧
        b.forest.store.Turns .nil b'.forest.store t ∧ p.Stands I trees id t

theorem Minimizes.turns (h : Minimizes I c p trees b id m b') :
    b.forest.store.Turns .nil b'.forest.store .nil := by
  have tree := h.tree
  split at tree
  · exact tree.2
  · obtain ⟨-, t, -, turns, -⟩ := tree
    exact ⟨turns.grows, turns.frame, fun _ mem => .inl mem⟩

/-- Why an operation is not minimized: a leaf has no type, an operation no callee, or powers are to
be expanded and the expanded tree has one that cannot be. -/
inductive Prevents (s : Settings) (p : Program) (trees : VarId → Option Tree) (e : Failure)
    (id : ValueId) : Prop
  | untyped (kind : e.kind = .type)
  | unlinked (kind : e.kind = .link)
  | unexpanded {t u : Tree} (on : s.expandPowers = true) (shows : p.Shows id t)
      (alike : u.anonymous = (t.expandWith trees).anonymous) (refused : Unexpanded u e)

/-- Minimizing failed in one of the values that it goes through. What was appended to the program
until then is linked, and all nodes that were there are as they were. -/
structure Abandons (s : Settings) (p : Program) (trees : VarId → Option Tree) (id : ValueId)
    (b : Bench) (e : Failure) (b' : Bench) : Prop where
  linked : p.Linked s.classifier b'.program
  kept : b.Confined .nil b'
  cause : ∃ x, p.Descends id x ∧ Prevents s p trees e x

theorem Prevents.kind {e : Failure} (h : Prevents s p trees e id) : e.kind ≠ .range := by
  cases h with
  | untyped kind | unlinked kind => rw [kind]; nofun
  | unexpanded _ _ _ refused => rw [Failure.kind_of_ofExponent refused.1]; nofun

theorem Abandons.kind {e : Failure} (h : Abandons s p trees id b e b') : e.kind ≠ .range := by
  obtain ⟨x, -, prevents⟩ := h.cause
  exact prevents.kind

theorem Abandons.after {b₁ : Bench} {e : Failure} (h : Abandons s p trees id b₁ e b')
    (kept : b.Confined .nil b₁) : Abandons s p trees id b e b' :=
  ⟨h.linked, h.kept.after kept.roots kept.turns, h.cause⟩

theorem ends_expand_alike (keeps : b.Keeps c p trees) (roots : b'.forest.roots = b.forest.roots)
    (owned : b'.forest.store.Owned (some root) t)
    (turns : b.forest.store.Turns .nil b'.forest.store t) :
    Ends (expand root) b'
      (fun _ b'' => ∃ u, b'.Reworked (some root) t b'' u ∧
        u.anonymous = (t.expandWith trees).anonymous)
      fun _ _ => False := by
  rw [expand, Ends.bind_iff, Ends.get_iff, ends_onStore]
  have registered := keeps.registered.turn turns
  rw [← roots] at registered
  refine (Store.ends_expand owned registered).imp ?_ fun _ _ h => h
  rintro _ s' ⟨u, owned', turns', alike⟩
  exact ⟨u, Bench.reworked_withStore owned' turns', alike⟩

/-- The tree of an operation is built, expanded and transformed. If that changed it, its type is
found again and it is emitted. -/
theorem ends_minimizeBinary_of {ok : Minimized → Bench → Prop} {failed : Failure → Bench → Prop}
    (wf : p.WellFormed) (keeps : b.Keeps s.classifier p trees) (lt : id < p.values.size)
    (step : ∀ root s₁ t b₁ e, p.Shows id t → b.forest.store.Turns .nil s₁ t →
      (b.withStore s₁).Reworked (some root) t b₁ e →
      e.anonymous = (t.expandWith trees).anonymous →
      Ends (transform s root) b₁
        (fun changed b₂ => (changed = false → ok ⟨id, some root, 0⟩ b₂) ∧
          (changed = true → Ends (typeAt s.classifier true root) b₂
            (fun _ b₃ => Ends (emit s.classifier root) b₃
              (fun v b₄ => (∃ u, b₄.forest.store.Owned (some root) u) ∧
                ∀ journal, ok ⟨v, some root, 1⟩ { b₄ with journal })
              failed)
            failed))
        failed) :
    Ends (minimizeBinary s id) b ok failed := by
  have ext := keeps.linked.extends
  rw [minimizeBinary, Ends.bind_iff, Ends.get_iff, Ends.bind_iff, ends_onStore]
  refine (Store.ends_buildBinary (keeps.linked.wellFormed wf)
    (Nat.lt_of_lt_of_le lt ext.grows)).imp ?_ fun _ _ h => h.elim
  rintro root s₁ ⟨t, shows, owned, turns⟩
  rw [Ends.bind_iff]
  refine (ends_expand_alike keeps (b.roots_withStore s₁) owned turns).imp ?_ fun _ _ h => h.elim
  rintro _ b₁ ⟨e, reworked, alike⟩
  rw [Ends.bind_iff]
  refine ends_shown reworked.owned.spans reworked.owned.height_le ?_
  rw [Ends.bind_iff]
  refine (step root s₁ t b₁ e (ext.shows wf lt shows) turns reworked alike).imp ?_ fun _ _ h => h
  rintro changed b₂ ⟨kept, emitted⟩
  cases changed with
  | false => exact kept rfl
  | true =>
    change Ends (typeAt s.classifier true root >>= _) b₂ _ _
    rw [Ends.bind_iff]
    refine (emitted rfl).imp (fun _ b₃ emits => ?_) fun _ _ h => h
    rw [Ends.bind_iff]
    refine emits.imp ?_ fun _ _ h => h
    rintro v b₄ ⟨⟨u, owned⟩, done⟩
    rw [Ends.bind_iff]
    refine ends_noteAt ?_ fun journal => done journal
    rw [Ends.bind_iff]
    exact ends_shown owned.spans owned.height_le rfl

theorem ends_minimizeBinary (laws : I.Arithmetic) (wf : p.WellFormed)
    (keeps : b.Keeps s.classifier p trees) (lt : id < p.values.size)
    (binary : p.treeless id = false) :
    Ends (minimizeBinary s id) b (fun m b' => Minimizes I s.classifier p trees b id m b')
      (Abandons s p trees id b) := by
  refine ends_minimizeBinary_of wf keeps lt fun root s₁ t b₁ t₁ shows turns reworked₁ alike => ?_
  have stands₁ : p.Stands I trees id t₁ := Program.stands_of_shows wf keeps shows alike
  refine (ends_transform laws reworked₁.owned stands₁.proper).imp ?_ ?_
  · rintro changed b₂ ⟨t₂, reworked₂, refines⟩
    have reworked := reworked₁.trans reworked₂
    have stands₂ := stands₁.refine refines
    have linked₂ : p.Linked s.classifier b₂.program := reworked.program ▸ keeps.linked
    refine ⟨fun _ => ?_, fun _ => ?_⟩
    · exact ⟨linked₂, reworked.program ▸ .refl _, reworked.roots,
        replaces_self wf linked₂.extends lt, binary, t₂, reworked.owned,
        turns.trans reworked.turns, stands₂⟩
    · refine (ends_typeAt reworked₂.owned).imp ?_ ?_
      · rintro type b₃ ⟨found, -, typed⟩
        have whole := reworked.trans typed
        have stands₃ : p.Stands I trees id (t₂.typed s.classifier true) :=
          stands₂.refine (Tree.refines_of_bare (Tree.bare_typed t₂))
        have linked₃ : p.Linked s.classifier b₃.program := typed.program ▸ linked₂
        refine (ends_emit I wf linked₃ typed.owned stands₃.proper stands₃.grounds
          (Tree.realized_typed (Option.isSome_of_eq_some found))).imp ?_ ?_
        · rintro v b₄ ⟨linked₄, ext₄, computes, t₄, turned, bare⟩
          have whole' := whole.toTurned.trans turned
          refine ⟨⟨t₄, turned.owned⟩, fun journal => ?_⟩
          refine ⟨linked₄, ?_, whole'.roots, ⟨computes.there, fun env coherent => ?_⟩, binary, t₄,
            whole'.owned, turns.trans whole'.turns, stands₃.refine (Tree.refines_of_bare bare)⟩
          · rwa [whole.program] at ext₄
          · rw [stands₃.meaning env coherent]
            exact computes.meaning env
        · rintro e b₄ ⟨linked₄, confined, kind⟩
          exact ⟨linked₄, confined.after whole.roots (turns.trans whole.turns), id, .self id,
            .unlinked kind⟩
      · rintro e b₃ ⟨-, kind, u, typed, -⟩
        exact ⟨typed.program ▸ linked₂,
          typed.confined.after reworked.roots (turns.trans reworked.turns), id, .self id,
          .untyped kind⟩
  · rintro e b₂ ⟨program, confined, reason⟩
    refine ⟨(program.trans reworked₁.program) ▸ keeps.linked,
      confined.after reworked₁.roots (turns.trans reworked₁.turns), id, .self id, ?_⟩
    rcases reason with kind | ⟨on, refused⟩
    · exact .untyped kind
    · exact .unexpanded on shows alike refused

variable (I) in
theorem ends_mapM_minimize {f : ValueId → Work Minimized} {args : List ValueId} (wf : p.WellFormed)
    (keeps : b.Keeps s.classifier p trees)
    (step : ∀ a ∈ args, ∀ b : Bench, b.Keeps s.classifier p trees →
      Ends (f a) b (fun m b' => Minimizes I s.classifier p trees b a m b') (Abandons s p trees a b)) :
    Ends (args.mapM f) b
      (fun done b' => p.Linked s.classifier b'.program ∧ b.program.Extends b'.program ∧
        b'.forest.roots = b.forest.roots ∧ b.forest.store.Turns .nil b'.forest.store .nil ∧
        List.Forall₂ (fun a m => Replaces I p trees b'.program a m.value) args done)
      fun e b' => ∃ a ∈ args, Abandons s p trees a b e b' := by
  induction args generalizing b with
  | nil => exact ⟨keeps.linked, .refl _, rfl, .refl _ _, .nil⟩
  | cons a rest ih =>
    rw [List.mapM_cons, Ends.bind_iff]
    refine (step a List.mem_cons_self b keeps).imp ?_ fun _ _ h => ⟨a, List.mem_cons_self, h⟩
    rintro m b₁ minimizes
    have turns := minimizes.turns
    rw [Ends.bind_iff]
    refine (ih (keeps.mono minimizes.linked minimizes.roots turns) fun a mem =>
      step a (List.mem_cons_of_mem _ mem)).imp ?_ ?_
    · rintro done b₂ ⟨linked, grown, roots, turns', replaced⟩
      exact ⟨linked, minimizes.grown.trans grown, roots.trans minimizes.roots, turns.trans turns',
        .cons (minimizes.replaces.mono grown (minimizes.linked.wellFormed wf)) replaced⟩
    · rintro e b₂ ⟨x, mem, abandons⟩
      exact ⟨x, List.mem_cons_of_mem _ mem, abandons.after ⟨minimizes.roots, turns⟩⟩

theorem mapM_eval?_replaced {q : Program} {args values : List ValueId} {env : Env R}
    (coherent : p.Coherent I env trees)
    (h : List.Forall₂ (Replaces I p trees q) args values) :
    values.mapM (q.eval? I env) = args.mapM (p.eval? I env) := by
  induction h with
  | nil => rfl
  | cons head _ ih => rw [List.mapM_cons, List.mapM_cons, head.2 env coherent, ih]

theorem replaces_again {q : Program} {v : Value} {func : FuncId} {args values : List ValueId}
    (wf : p.WellFormed) (linked : p.Linked c q) (found : p.values[id]? = some v)
    (kind : v.kind = .call func args) (other : args.length ≠ 2)
    (replaced : List.Forall₂ (Replaces I p trees q) args values) :
    p.Linked c (q.push v.type (.call func values)).2 ∧
      Replaces I p trees (q.push v.type (.call func values)).2 id q.values.size := by
  have lt := (Array.getElem?_eq_some_iff.mp found).1
  have ext := linked.extends
  have grown : q.Extends (q.push v.type (.call func values)).2 := Program.extends_push q _ _
  have there : ∀ a : Nat, a ∈ values → a < q.values.size :=
    (List.forall₂_and_left _ _ |>.mp (replaced.flip.imp fun _ _ h => ⟨h.1, h⟩)).1
  have linked' : p.Linked c (q.push v.type (.call func values)).2 :=
    linked.again found kind (replaced.length_eq ▸ other) there
  refine ⟨linked', by simp [Program.size_push], fun env coherent => ?_⟩
  have replaced' := replaced.imp fun _ _ h => h.mono grown (linked.wellFormed wf)
  rw [(linked'.wellFormed wf).eval?_eq (Program.getElem?_push_self q _ _), wf.eval?_eq found]
  simp only [Program.evalWith, kind, mapM_eval?_replaced coherent replaced', Program.funcName?,
    (ext.trans grown).funcs_eq]

theorem ends_minimizeLeaf_of {v : Value} {ok : Minimized → Bench → Prop}
    {failed : Failure → Bench → Prop} (keeps : b.Keeps c p trees) (found : p.values[id]? = some v)
    (atomic : v.isCall = false)
    (done : ∀ leaf s₁ t b₁ e, p.Shows id t → b.forest.store.Turns .nil s₁ t →
      (b.withStore s₁).Reworked (some leaf) t b₁ e →
      e.anonymous = (t.expandWith trees).anonymous → ok ⟨id, some leaf, 0⟩ b₁) :
    Ends (minimizeLeaf id v) b ok failed := by
  rw [minimizeLeaf, Ends.bind_iff, ends_onStore]
  refine Store.ends_append_new (Store.owned_nil _) (Store.owned_nil _) (.refl _ _) (.refl _ _)
    (fun _ mem => absurd mem List.not_mem_nil) fun leaf s₁ owned turns _ => ?_
  rw [Ends.bind_iff]
  refine (ends_expand_alike keeps (b.roots_withStore s₁) owned turns).imp ?_ fun _ _ h => h.elim
  rintro _ b₁ ⟨e, reworked, alike⟩
  refine done leaf s₁ _ b₁ e ?_ turns reworked alike
  exact .leaf leaf found (Value.isBinary_eq_false atomic) rfl rfl fun _ => rfl

theorem ends_minimizeLeaf {v : Value} (wf : p.WellFormed) (keeps : b.Keeps c p trees)
    (found : p.values[id]? = some v) (atomic : v.isCall = false) :
    Ends (minimizeLeaf id v) b (fun m b' => Minimizes I c p trees b id m b') fun _ _ => False := by
  have lt := (Array.getElem?_eq_some_iff.mp found).1
  refine ends_minimizeLeaf_of keeps found atomic fun leaf s₁ t b₁ e shows turns reworked alike => ?_
  have linked : p.Linked c b₁.program := reworked.program ▸ keeps.linked
  exact ⟨linked, reworked.program ▸ .refl _, reworked.roots, replaces_self wf linked.extends lt,
    Program.treeless_eq_false found (.inl atomic), e, reworked.owned, turns.trans reworked.turns,
    Program.stands_of_shows wf keeps shows alike⟩

/-- A value is a call of two operands, a call of another number of them, or no call. -/
theorem ends_minimizeTo_succ {v : Value} {depth : Nat} {ok : Minimized → Bench → Prop}
    {failed : Failure → Bench → Prop} (found : b.program.values[id]? = some v)
    (binary : v.isBinary = true → Ends (minimizeBinary s id) b ok failed)
    (call : ∀ func args, v.kind = .call func args → args.length ≠ 2 →
      Ends (args.mapM (minimizeTo s depth)) b
        (fun done b' =>
          (done.map (·.value) = args → ok ⟨id, none, done.foldr (·.regenerated + ·) 0⟩ b') ∧
          (done.map (·.value) ≠ args →
            ∃ w, b'.program.values[id]? = some w ∧
              ok ⟨(b'.program.withArgs id (done.map (·.value))).1, none,
                  done.foldr (·.regenerated + ·) 0⟩
                { b' with program := (b'.program.withArgs id (done.map (·.value))).2 }))
        failed)
    (leaf : v.isCall = false → Ends (minimizeLeaf id v) b ok failed) :
    Ends (minimizeTo s (depth + 1) id) b ok failed := by
  rw [minimizeTo, Ends.bind_iff]
  refine ends_value found ?_
  split
  · rename_i kind
    exact binary (by simp [Value.isBinary, kind])
  · rename_i func args other kind
    have length : args.length ≠ 2 := fun two => by
      obtain ⟨a, a', rfl⟩ := List.length_eq_two.mp two
      exact other a a' rfl
    rw [Ends.bind_iff]
    refine (call func args kind length).imp ?_ fun _ _ h => h
    rintro done b₁ ⟨same, again⟩
    dsimp only
    rw [Ends.ite_iff]
    refine ⟨same, fun differ => ?_⟩
    obtain ⟨w, there, remade⟩ := again differ
    rw [Ends.bind_iff, withArgs, Ends.bind_iff]
    exact ends_value there remade
  · rename_i notCall
    apply leaf
    obtain ⟨_, _, kind⟩ := v
    cases kind with
    | int | float | var | tuple => rfl
    | call func args => exact absurd rfl (notCall func args)

theorem ends_minimizeTo {rank : Nat → Nat} {depth : Nat} (laws : I.Arithmetic) (wf : p.WellFormed)
    (ranked : p.RankedBy rank) (keeps : b.Keeps s.classifier p trees) (lt : id < p.values.size)
    (deep : rank id < depth) :
    Ends (minimizeTo s depth id) b (fun m b' => Minimizes I s.classifier p trees b id m b')
      (Abandons s p trees id b) := by
  induction depth generalizing b id with
  | zero => omega
  | succ depth ih =>
    obtain ⟨v, found⟩ : ∃ v, p.values[id]? = some v := ⟨_, Array.getElem?_eq_getElem lt⟩
    have ext := keeps.linked.extends
    refine ends_minimizeTo_succ ((ext.kept id lt).trans found) (fun binary => ?_)
      (fun func args kind length => ?_) fun atomic => ?_
    · exact ends_minimizeBinary laws wf keeps lt (Program.treeless_eq_false found (.inr binary))
    · have treeless := Program.treeless_of_call found kind length
      have operands : v.operands = args := by simp [Value.operands, kind]
      refine (ends_mapM_minimize I wf keeps fun a mem b' keeps' => ?_).imp ?_ ?_
      · have mem : a ∈ v.operands := operands ▸ mem
        have less := ranked id v found a mem
        exact ih keeps' (wf.closed id v found a mem) (by omega)
      · rintro done b₁ ⟨linked, grown, roots, turns, replaced⟩
        refine ⟨fun _ => ?_, fun _ => ?_⟩
        · exact ⟨linked, grown, roots, replaces_self wf linked.extends lt, treeless, turns⟩
        · have there := (linked.extends.kept id lt).trans found
          refine ⟨v, there, ?_⟩
          rw [Program.withArgs_eq there kind (done.map (·.value))]
          obtain ⟨linked', replaces⟩ := replaces_again wf linked found kind length
            (List.forall₂_map_right_iff.mpr replaced)
          exact ⟨linked', grown.trans (Program.extends_push _ _ _), roots, replaces, treeless, turns⟩
      · rintro e b₁ ⟨a, mem, linked, kept, x, below, prevents⟩
        exact ⟨linked, kept, x, .operand found kind length mem below, prevents⟩
    · exact (ends_minimizeLeaf wf keeps found atomic).imp (fun _ _ h => h)
        fun _ _ fails => fails.elim

theorem ends_minimize (laws : I.Arithmetic) (wf : p.WellFormed)
    (keeps : b.Keeps s.classifier p trees) (lt : id < p.values.size) :
    Ends (minimize s id) b (fun m b' => Minimizes I s.classifier p trees b id m b')
      (Abandons s p trees id b) := by
  obtain ⟨rank, ranked, bounded⟩ := wf.exists_rank
  rw [minimize, Ends.bind_iff, Ends.get_iff]
  exact ends_minimizeTo laws wf ranked keeps lt
    (Nat.lt_of_lt_of_le (bounded id lt) keeps.linked.extends.grows)

/-- The new tree of an instruction, if it has one, was registered, and all nodes that were there are
as they were. -/
def Plants (b : Bench) (i : Instruction) (tree : Option Tree) (b' : Bench) : Prop :=
  match tree with
  | none => b.Confined .nil b'
  | some t => ∃ root, b'.forest = Forest.add { b.forest with store := b'.forest.store }
      (.ofInstruction i) root ∧ b'.forest.store.Owned (some root) t ∧
        b.forest.store.Turns .nil b'.forest.store t

/-- An instruction was minimized and its tree, if it has one, registered. -/
structure Registers (I : Interpretation R) (c : Classifier) (p : Program)
    (trees : VarId → Option Tree) (b : Bench) (i : Instruction) (m : Minimized) (b' : Bench)
    (tree : Option Tree) : Prop where
  keeps : b'.Keeps c p (i.treesAfter trees tree)
  grown : b.program.Extends b'.program
  replaces : Replaces I p trees b'.program i.value m.value
  shape : tree = none ↔ p.treeless i.value = true
  stands : ∀ t, tree = some t → p.Stands I trees i.value t
  forest : Plants b i tree b'

theorem ends_minimizeInstruction {i : Instruction} (laws : I.Arithmetic) (wf : p.WellFormed)
    (keeps : b.Keeps s.classifier p trees) (lt : i.value < p.values.size) :
    Ends (minimizeInstruction s i) b
      (fun m b' => ∃ tree, Registers I s.classifier p trees b i m b' tree)
      (Abandons s p trees i.value b) := by
  rw [minimizeInstruction, Ends.bind_iff]
  refine (ends_minimize laws wf keeps lt).imp ?_ fun _ _ h => h
  rintro m b₁ minimizes
  have tree := minimizes.tree
  cases isTree : m.tree with
  | none =>
    rw [isTree] at tree
    have same : i.treesAfter trees none = trees := by cases i <;> rfl
    refine ⟨none, ?_, minimizes.grown, minimizes.replaces, by simp [tree.1], nofun,
      minimizes.roots, tree.2⟩
    rw [same]
    exact keeps.mono minimizes.linked minimizes.roots tree.2
  | some root =>
    rw [isTree] at tree
    obtain ⟨hasTree, t, owned, turns, stands⟩ := tree
    refine ⟨some t, ?_, minimizes.grown, minimizes.replaces, by simp [hasTree], ?_, root, ?_, owned,
      turns⟩
    · exact (keeps.mono minimizes.linked minimizes.roots turns).add owned stands.proper
        stands.grounds i
    · rintro _ ⟨⟩
      exact stands
    · simp only [Forest.add, Registry.eq_of_roots minimizes.roots]

/-- The trees after an instruction are coherent again if no tree reads what was assigned. -/
theorem Registers.coherent {i : Instruction} {tree : Option Tree} {env : Env R} {x : R}
    {deps : List (VarId × List VarId)} (h : Registers I c p trees b i m b' tree)
    (tracks : p.Tracks deps trees) (coherent : p.Coherent I env trees)
    (yields : p.eval? I env i.value = some x) (stable : p.StableAt deps i) :
    p.Tracks (p.depsAfter deps i) (i.treesAfter trees tree) ∧
      p.Coherent I (i.after env x) (i.treesAfter trees tree) := by
  have tracks' := tracks.after h.shape fun t isTree => (h.stands t isTree).reads deps tracks
  refine ⟨tracks', coherent.after tracks' tracks h.shape (fun t isTree => ?_) stable⟩
  have meaning := (h.stands t isTree).meaning env coherent
  exact (Option.some.inj (yields.symm.trans meaning)).symm

theorem ends_minimizeBody {body : List Instruction} (laws : I.Arithmetic) (wf : p.WellFormed)
    (keeps : b.Keeps s.classifier p trees) (inside : ∀ i ∈ body, i.value < p.values.size) :
    Ends (minimizeBody s body) b
      (fun out b' => ∃ trees', b'.Keeps s.classifier p trees' ∧ b.program.Extends b'.program ∧
        (∀ i ∈ out.1, i.value < b'.program.values.size) ∧
        ∀ deps env, p.Tracks deps trees → p.Coherent I env trees →
          p.Stable deps body → b'.program.trace? I env out.1 = p.trace? I env body ∧
          ∀ env', p.finalEnv? I env body = some env' → p.Coherent I env' trees')
      fun e b' => p.Linked s.classifier b'.program ∧ e.kind ≠ .range := by
  induction body generalizing b trees with
  | nil =>
    refine ⟨trees, keeps, .refl _, nofun, fun deps env _ coherent _ => ⟨rfl, ?_⟩⟩
    rintro _ ⟨⟩
    exact coherent
  | cons i rest ih =>
    have lt := inside i List.mem_cons_self
    rw [minimizeBody, Ends.bind_iff]
    refine (ends_minimizeInstruction laws wf keeps lt).imp ?_ fun _ _ h => ⟨h.linked, h.kind⟩
    rintro m b₁ ⟨tree, registers⟩
    rw [Ends.bind_iff]
    refine (ih registers.keeps fun j mem => inside j (List.mem_cons_of_mem i mem)).imp ?_
      fun _ _ h => h
    rintro ⟨body', n⟩ b₂ ⟨trees', keeps', grown, inside', run⟩
    have replaces := registers.replaces.mono grown (registers.keeps.linked.wellFormed wf)
    refine ⟨trees', keeps', registers.grown.trans grown, ?_, fun deps env tracks coherent stable => ?_⟩
    · exact List.forall_mem_cons.mpr ⟨by simpa using replaces.1, inside'⟩
    have defined : (p.eval? I env i.value).isSome := wf.isSome_eval? lt
    obtain ⟨x, yields⟩ := Option.isSome_iff_exists.mp defined
    obtain ⟨tracks₁, coherent₁⟩ := registers.coherent tracks coherent yields stable.1
    obtain ⟨traced, last⟩ := run _ _ tracks₁ coherent₁ stable.2
    have value : b₂.program.eval? I env m.value = some x := (replaces.2 env coherent).trans yields
    refine ⟨?_, fun env' final => last env' ?_⟩
    · simp only [Program.trace?, Instruction.value_withValue, value, yields, Option.bind_some,
        Instruction.after_withValue, traced]
    · simpa only [Program.finalEnv?, yields, Option.bind_some] using final

end Work

end SecureArith
