import SecureArith.Proofs.Preservation

set_option autoImplicit false

/-!
# When the registry is coherent

A registered tree is put in the place of a variable, so it has to compute what the variable holds.
An assignment may break that: a tree that reads the assigned variable computes something else from
then on, and a variable that is assigned a value without a tree keeps the tree that it had. The
registry is coherent throughout a body exactly where no assignment does either.
-/

namespace SecureArith

universe u

variable {R : Type u} {I : Interpretation R} {env : Env R}

namespace Program

variable {p q : Program}

theorem finalEnv?_concat (p : Program) (before : List Instruction) (i : Instruction)
    (env : Env R) :
    p.finalEnv? I env (before ++ [i]) =
      (p.finalEnv? I env before).bind fun last =>
        (p.eval? I last i.value).map (i.after last) := by
  induction before generalizing env with
  | nil =>
    simp only [List.nil_append, finalEnv?, Option.bind_some]
    cases p.eval? I env i.value <;> rfl
  | cons j rest ih =>
    simp only [List.cons_append, finalEnv?, ih, Option.bind_assoc]

variable [Zero R]

/-- What a tree computes does not depend on values that its leaves are not. -/
theorem Extends.evalTree_eq (ext : p.Extends q) (wf : p.WellFormed) {t : Tree}
    (grounds : p.Grounds t) : q.evalTree I env t = p.evalTree I env t := by
  induction t with
  | nil | missing => rfl
  | node id label child ih =>
    by_cases leaf : Tree.childless child = true
    · obtain ⟨v, origin, found⟩ := grounds label.origin (by simp [Tree.leaves, leaf])
      have lt := (Array.getElem?_eq_some_iff.mp found).1
      have same : q.eval? I env v.id = p.eval? I env v.id := ext.eval?_eq wf lt
      rw [evalTree, evalTree, Tree.eval_leaf leaf, Tree.eval_leaf leaf]
      obtain ⟨_, _, kind⟩ := v
      cases kind <;> simp [Label.eval, origin, Origin.ofValue, Atom.ofKind, other, same]
    · have inner := Bool.eq_false_iff.mpr leaf
      rw [Grounds, Tree.leaves_node inner] at grounds
      have left := ih .left fun o mem => grounds o (List.mem_append_left _ mem)
      have right := ih .right fun o mem => grounds o (List.mem_append_right _ mem)
      unfold evalTree at left right ⊢
      rw [Tree.eval, Tree.eval, if_neg leaf, if_neg leaf, left, right]

end Program

def Bench.Coherent [Zero R] (I : Interpretation R) (env : Env R) (b : Bench) : Prop :=
  ∀ v root, b.forest.root? (.var v) = some root →
    b.program.evalTree I env (b.forest.store.tree root) = env v

/-- An instruction that yields `x` spares the trees that are registered after it: an assignment
changes what none of them computes, except that a variable which has a tree and is assigned a value
without one needs a tree that computes the new value. -/
def Bench.Spares [Zero R] (I : Interpretation R) (env : Env R) (x : R) (p : Program)
    (i : Instruction) (b : Bench) : Prop :=
  ∀ v id, i = .assign v id → ∀ w root, b.forest.root? (.var w) = some root →
    b.program.evalTree I (i.after env x) (b.forest.store.tree root) =
      if w = v ∧ p.treeless id = true then x
      else b.program.evalTree I env (b.forest.store.tree root)

namespace Bench

variable [Zero R] {c : Classifier} {p : Program} {b : Bench} {trees : VarId → Option Tree}

theorem Keeps.evalTree_eq (keeps : b.Keeps c p trees) (wf : p.WellFormed) {v : VarId}
    {root : NodeId} {t : Tree} (tree : trees v = some t)
    (owned : b.forest.store.Owned (some root) t) :
    b.program.evalTree I env (b.forest.store.tree root) = p.evalTree I env t := by
  rw [owned.tree_eq]
  exact keeps.linked.extends.evalTree_eq wf (keeps.grounds v t tree)

theorem Keeps.coherent_iff (keeps : b.Keeps c p trees) (wf : p.WellFormed) :
    b.Coherent I env ↔ p.Coherent I env trees := by
  constructor
  · intro coherent v t tree
    obtain ⟨root, isRoot, owned⟩ := keeps.exists_root tree
    rw [← keeps.evalTree_eq wf tree owned]
    exact coherent v root isRoot
  · intro coherent v root isRoot
    obtain ⟨t, tree, owned⟩ := keeps.exists_tree isRoot
    rw [keeps.evalTree_eq wf tree owned]
    exact coherent v t tree

end Bench

namespace Work

variable [CommRing R] {s : Settings} {c : Classifier} {p : Program} {b b' : Bench}
  {trees : VarId → Option Tree} {i : Instruction} {m : Minimized} {tree : Option Tree} {x : R}

/-- Where the registry was coherent, it is coherent after an instruction that spares its trees, and
after no other. -/
theorem Registers.coherent_iff (h : Registers I c p trees b i m b' tree) (wf : p.WellFormed)
    (coherent : p.Coherent I env trees) (yields : p.eval? I env i.value = some x) :
    b'.Coherent I (i.after env x) ↔ b'.Spares I env x p i := by
  cases i with
  | ret | eval => exact ⟨fun _ => nofun, fun _ => (h.keeps.coherent_iff wf).mpr coherent⟩
  | assign v id =>
    -- What has to be computed is what the variable holds afterwards.
    have held (w : VarId) (root : NodeId) (isRoot : b'.forest.root? (.var w) = some root) :
        (if w = v ∧ p.treeless id = true then x
          else b'.program.evalTree I env (b'.forest.store.tree root)) =
          (Instruction.assign v id).after env x w := by
      obtain ⟨t, isTree, owned⟩ := h.keeps.exists_tree isRoot
      rw [h.keeps.evalTree_eq wf isTree owned]
      by_cases same : w = v
      · subst same
        rw [Instruction.after, Function.update_self]
        by_cases treeless : p.treeless id = true
        · rw [if_pos ⟨rfl, treeless⟩]
        · rw [if_neg fun both => treeless both.2]
          rcases Instruction.treesAfter_assign isTree with ⟨-, new⟩ | ⟨-, none⟩
          · have meaning := (h.stands t new).meaning env coherent
            exact (Option.some.inj (yields.symm.trans meaning)).symm
          · exact absurd (h.shape.mp (none rfl)) treeless
      · rw [if_neg fun both => same both.1, Instruction.after, Function.update_of_ne same]
        rcases Instruction.treesAfter_assign isTree with ⟨eq, -⟩ | ⟨old, -⟩
        · exact absurd eq same
        · exact coherent w t old
    constructor
    · intro coherent' v' id' eq w root isRoot
      cases eq
      rw [held w root isRoot]
      exact coherent' w root isRoot
    · intro spares w root isRoot
      rw [← held w root isRoot]
      exact spares v id rfl w root isRoot

theorem minimizeBody_concat (s : Settings) (before : List Instruction) (i : Instruction) :
    minimizeBody s (before ++ [i]) = do
      let (body, n) ← minimizeBody s before
      let m ← minimizeInstruction s i
      return (body ++ [i.withValue m.value], n + m.regenerated) := by
  induction before with
  | nil => simp [minimizeBody]
  | cons j rest ih =>
    simp only [List.cons_append, minimizeBody, ih, bind_assoc, pure_bind, Nat.add_assoc]

theorem exists_of_minimizeBody_concat {before : List Instruction} {out : List Instruction × Nat}
    (run : minimizeBody s (before ++ [i]) b = .ok out b') :
    ∃ out₁ b₁ m, minimizeBody s before b = .ok out₁ b₁ ∧ minimizeInstruction s i b₁ = .ok m b' := by
  rw [minimizeBody_concat] at run
  cases first : minimizeBody s before b with
  | error e b₁ => simp [bind, EStateM.bind, first] at run
  | ok out₁ b₁ =>
    cases second : minimizeInstruction s i b₁ with
    | error e b₂ => simp [bind, EStateM.bind, first, second] at run
    | ok m b₂ =>
      simp only [bind, EStateM.bind, first, second, pure, EStateM.pure] at run
      cases run
      exact ⟨out₁, b₁, m, rfl, second⟩

/-- The registry is coherent after each instruction of a body. -/
def CoherentAlong (I : Interpretation R) (env : Env R) (s : Settings) (p : Program)
    (journal : Journal) (body : List Instruction) : Prop :=
  ∀ before after, body = before ++ after → ∀ out b last,
    minimizeBody s before ⟨p, {}, journal⟩ = .ok out b → p.finalEnv? I env before = some last →
      b.Coherent I last

/-- Each instruction of a body spares the trees that are registered after it. -/
def SparesAlong (I : Interpretation R) (env : Env R) (s : Settings) (p : Program)
    (journal : Journal) (body : List Instruction) : Prop :=
  ∀ before i after, body = before ++ i :: after → ∀ out b last x,
    minimizeBody s (before ++ [i]) ⟨p, {}, journal⟩ = .ok out b →
    p.finalEnv? I env before = some last → p.eval? I last i.value = some x →
      b.Spares I last x p i

theorem coherent_concat_iff {before : List Instruction} {journal : Journal}
    {out : List Instruction × Nat} {last : Env R} (laws : I.Arithmetic) (wf : p.WellFormed)
    (inside : ∀ j ∈ before ++ [i], j.value < p.values.size)
    (run : minimizeBody s (before ++ [i]) ⟨p, {}, journal⟩ = .ok out b')
    (earlier : ∀ out b, minimizeBody s before ⟨p, {}, journal⟩ = .ok out b → b.Coherent I last)
    (yields : p.eval? I last i.value = some x) :
    b'.Coherent I (i.after last x) ↔ b'.Spares I last x p i := by
  obtain ⟨_, b, m, first, second⟩ := exists_of_minimizeBody_concat run
  have start : Bench.Keeps s.classifier p ⟨p, {}, journal⟩ fun _ => none := Bench.keeps_empty _ p _
  obtain ⟨trees, keeps, -⟩ := (ends_minimizeBody laws wf start fun j mem =>
    inside j (List.mem_append_left _ mem)).of_ok first
  obtain ⟨tree, registers⟩ := (ends_minimizeInstruction laws wf keeps
    (inside i (List.mem_append_right _ List.mem_cons_self))).of_ok second
  have coherent := (keeps.coherent_iff wf).mp (earlier _ b first)
  exact registers.coherent_iff wf coherent yields

variable {journal : Journal} {body : List Instruction}

theorem CoherentAlong.spares (laws : I.Arithmetic) (wf : p.WellFormed)
    (inside : ∀ i ∈ body, i.value < p.values.size) (h : CoherentAlong I env s p journal body) :
    SparesAlong I env s p journal body := by
  intro before i after eq out b last x run reached yields
  have split : body = (before ++ [i]) ++ after := by simp [eq]
  refine (coherent_concat_iff laws wf (fun j mem => inside j ?_) run ?_ yields).mp ?_
  · rw [split]
    exact List.mem_append_left _ mem
  · intro out b run
    exact h before (i :: after) eq out b last run reached
  · refine h (before ++ [i]) after split out b _ run ?_
    rw [Program.finalEnv?_concat, reached, Option.bind_some, yields]
    rfl

theorem SparesAlong.coherent (laws : I.Arithmetic) (wf : p.WellFormed)
    (inside : ∀ i ∈ body, i.value < p.values.size) (h : SparesAlong I env s p journal body) :
    CoherentAlong I env s p journal body := by
  intro before
  induction before using List.reverseRecOn with
  | nil =>
    rintro after - out b last ⟨⟩ -
    exact nofun
  | append_singleton before i ih =>
    intro after eq out b last run reached
    have split : body = before ++ i :: after := by simp [eq]
    rw [Program.finalEnv?_concat] at reached
    obtain ⟨last', reached', next⟩ := Option.bind_eq_some_iff.mp reached
    obtain ⟨x, yields, rfl⟩ := Option.map_eq_some_iff.mp next
    refine (coherent_concat_iff laws wf (fun j mem => inside j ?_) run ?_ yields).mpr ?_
    · rw [eq]
      exact List.mem_append_left _ mem
    · intro out b run
      exact ih (i :: after) split out b last' run reached'
    · exact h before i after split out b last' x run reached' yields

end Work

namespace Program

theorem Stable.left {p : Program} {deps : List (VarId × List VarId)}
    {before after : List Instruction} (h : p.Stable deps (before ++ after)) :
    p.Stable deps before := by
  induction before generalizing deps with
  | nil => trivial
  | cons i rest ih => exact ⟨h.1, ih h.2⟩

end Program

theorem Work.coherentAlong_of_stable [CommRing R] {s : Settings} {p : Program} {journal : Journal}
    {body : List Instruction} (laws : I.Arithmetic) (wf : p.WellFormed)
    (inside : ∀ i ∈ body, i.value < p.values.size) (stable : p.Stable [] body) :
    CoherentAlong I env s p journal body := by
  intro before after eq out b last run reached
  have start : Bench.Keeps s.classifier p ⟨p, {}, journal⟩ fun _ => none := Bench.keeps_empty _ p _
  subst eq
  obtain ⟨trees, keeps, -, -, coherent⟩ := (ends_minimizeBody laws wf start fun i mem =>
    inside i (List.mem_append_left _ mem)).of_ok run
  apply (keeps.coherent_iff wf).mpr
  apply (coherent [] env ?_ ?_ stable.left).2 last reached
  · exact fun _ => rfl
  · exact nofun

/-- The registry is coherent throughout a body exactly where each instruction spares the trees that
are registered after it, and it is so for every stable body. -/
theorem coherentAlong_iff_sparesAlong [CommRing R] {s : Settings} {p : Program} {f : Function}
    {journal : Journal} (described : p.Described) (mem : f ∈ p.functions) (laws : I.Arithmetic)
    (env : Env R) :
    (Work.CoherentAlong I env s p journal f.body ↔ Work.SparesAlong I env s p journal f.body) ∧
      (p.Stable [] f.body → Work.CoherentAlong I env s p journal f.body) := by
  have sound := described.sound
  have inside := sound.bodies f mem
  exact ⟨⟨fun h => h.spares laws sound.toWellFormed inside,
    fun h => h.coherent laws sound.toWellFormed inside⟩,
    Work.coherentAlong_of_stable laws sound.toWellFormed inside⟩

/-- A function of two integers whose body has these statements. Calls of `g` have no tree. -/
def Description.ofBody (body : List Description.Statement) : Description where
  vars := ["x", "y"].map fun name => ⟨name, some .int⟩
  operators := ["__add__", "__mul__"].map fun name => ⟨.int, name, [.int, .int], .int⟩
  helpers := [⟨"g", some .int⟩]
  functions := [{
    name := "f"
    mpc := none
    params := ["x", "y"]
    attributes := { minimize := true }
    body }]

/-- A variable is assigned again after another one was computed from it. -/
def Description.reassigning : Description := .ofBody [
  .assign "s" (.call "__add__" [.var "x", .int 1]),
  .assign "t" (.call "__mul__" [.var "s", .var "y"]),
  .assign "s" (.call "__add__" [.var "y", .var "y"])]

theorem coherentAlong_reassigning :
    ∃ (p : Program) (f : Function) (out : List Instruction × Nat) (b : Bench),
      Description.reassigning.lower = .ok p ∧ f ∈ p.functions ∧ p.Stable [] f.body ∧
      Work.minimizeBody (.ofPreset .basic) f.body ⟨p, {}, {}⟩ = .ok out b ∧
      ∀ env, Work.CoherentAlong .integers env (.ofPreset .basic) p {} f.body := by
  have checked : (Description.reassigning.first?.any fun (p, f) =>
      (result? (Work.minimizeBody (.ofPreset .basic) f.body) ⟨p, {}, {}⟩).any fun _ =>
        decide (p.Stable [] f.body)) = true := by
    decide +kernel
  obtain ⟨⟨p, f⟩, isFirst, checked⟩ := Option.any_eq_true _ _ |>.mp checked
  obtain ⟨⟨out, b⟩, result, checked⟩ := Option.any_eq_true _ _ |>.mp checked
  obtain ⟨lowered, mem⟩ := Description.lower_of_first? isFirst
  have stable := of_decide_eq_true checked
  refine ⟨p, f, out, b, lowered, mem, stable, eq_ok_of_result? result, fun env => ?_⟩
  exact (coherentAlong_iff_sparesAlong ⟨_, lowered⟩ mem Interpretation.arithmetic_integers env).2
    stable

/-- A variable that has a tree is assigned a value that has none. -/
def Description.forgetting : Description := .ofBody [
  .assign "s" (.call "__add__" [.var "x", .int 1]),
  .assign "s" (.call "g" [.var "x"])]

theorem not_coherentAlong_forgetting :
    ∃ (p : Program) (f : Function), Description.forgetting.lower = .ok p ∧ f ∈ p.functions ∧
      ¬ Work.CoherentAlong .integers (fun _ => 0) (.ofPreset .basic) p {} f.body := by
  have checked : (Description.forgetting.first?.any fun (p, f) =>
      (result? (Work.minimizeBody (.ofPreset .basic) f.body) ⟨p, {}, {}⟩).any fun (_, b) =>
        (p.finalEnv? .integers (fun _ => 0) f.body).any fun last =>
          (p.varNamed? "s").any fun v => (b.forest.root? (.var v)).any fun root =>
            b.program.evalTree .integers last (b.forest.store.tree root) != last v) = true := by
    decide +kernel
  obtain ⟨⟨p, f⟩, isFirst, checked⟩ := Option.any_eq_true _ _ |>.mp checked
  obtain ⟨⟨out, b⟩, result, checked⟩ := Option.any_eq_true _ _ |>.mp checked
  obtain ⟨last, reached, checked⟩ := Option.any_eq_true _ _ |>.mp checked
  obtain ⟨v, -, checked⟩ := Option.any_eq_true _ _ |>.mp checked
  obtain ⟨root, isRoot, differs⟩ := Option.any_eq_true _ _ |>.mp checked
  obtain ⟨lowered, mem⟩ := Description.lower_of_first? isFirst
  refine ⟨p, f, lowered, mem, fun coherent => bne_iff_ne.mp differs ?_⟩
  exact coherent f.body [] (List.append_nil _).symm out b last (eq_ok_of_result? result) reached v
    root isRoot

end SecureArith
