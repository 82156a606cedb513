import SecureArith.Proofs.Build
import SecureArith.Proofs.Ends.Work
import SecureArith.Proofs.Expansion
import SecureArith.Proofs.Linking

set_option autoImplicit false

/-!
# The trees of variables

A registry is coherent with an environment where the tree of each variable computes what the
variable holds. What is registered for a body can be told from the body: `Program.Stable` follows
which variables the registered trees read, and asks that none of them is assigned while a tree
reads it, and that a variable with a tree is assigned only by instructions that have a tree too.
-/

namespace SecureArith

theorem lookup_put {α β : Type} [DecidableEq α] (l : List (α × β)) (key k : α) (b : β) :
    ((key, b) :: l.filter (·.1 != key)).lookup k = if k = key then some b else l.lookup k := by
  by_cases same : k = key
  · subst same
    simp
  · have other : (k == key) = false := beq_false_of_ne same
    have rest : (l.filter (·.1 != key)).lookup k = l.lookup k := by
      induction l with
      | nil => rfl
      | cons entry l ih =>
        obtain ⟨a, b'⟩ := entry
        by_cases eq : a = key
        · subst eq
          simpa [List.lookup_cons, other] using ih
        · have kept : ((a, b') :: l).filter (·.1 != key) = (a, b') :: l.filter (·.1 != key) :=
            List.filter_cons_of_pos (by simpa using eq)
          rw [kept, List.lookup_cons, List.lookup_cons, ih]
    rw [List.lookup_cons, other, rest, if_neg same]

theorem Value.isBinary_eq_false {v : Value} (atomic : v.isCall = false) : v.isBinary = false := by
  obtain ⟨_, _, kind⟩ := v
  cases kind with
  | int | float | var | tuple => rfl
  | call => cases atomic

namespace Program

variable {p : Program} {id : Nat}

/-- The variables that the tree of a value reads, down to a depth, where the reads of variables with
a tree are replaced by what the tree reads. -/
def treeReadsTo (p : Program) (deps : List (VarId × List VarId)) : Nat → ValueId → List VarId
  | 0, _ => []
  | depth + 1, id =>
    match p.values[id]? with
    | some ⟨_, _, .var x⟩ => (deps.lookup x).getD [x]
    | some ⟨_, _, .call _ [a, b]⟩ => p.treeReadsTo deps depth a ++ p.treeReadsTo deps depth b
    | _ => p.reads id

def treeReads (p : Program) (deps : List (VarId × List VarId)) (id : ValueId) : List VarId :=
  p.treeReadsTo deps p.values.size id

/-- Calls of any other number of operands than two have no tree. -/
def treeless (p : Program) (id : ValueId) : Bool :=
  match p.values[id]? with
  | some ⟨_, _, .call _ args⟩ => args.length != 2
  | _ => false

theorem treeless_of_call {v : Value} {func : FuncId} {args : List ValueId}
    (found : p.values[id]? = some v) (kind : v.kind = .call func args) (other : args.length ≠ 2) :
    p.treeless id = true := by
  obtain ⟨_, _, _⟩ := v
  cases kind
  simpa [treeless, found] using other

theorem treeless_eq_false {v : Value} (found : p.values[id]? = some v)
    (other : v.isCall = false ∨ v.isBinary = true) : p.treeless id = false := by
  rw [treeless, found]
  obtain ⟨_, _, kind⟩ := v
  cases kind with
  | int | float | var | tuple => rfl
  | call func args => simpa [Value.isCall, Value.isBinary] using other

/-- The variables that the registered trees read after an instruction. -/
def depsAfter (p : Program) (deps : List (VarId × List VarId)) :
    Instruction → List (VarId × List VarId)
  | .assign v id =>
    if p.treeless id then deps else (v, p.treeReads deps id) :: deps.filter (·.1 != v)
  | _ => deps

/-- No registered tree reads the variable that is assigned, and a variable with a tree is given a
new one. -/
def StableAt (p : Program) (deps : List (VarId × List VarId)) (i : Instruction) : Prop :=
  match i with
  | .assign v id => (∀ entry ∈ p.depsAfter deps i, v ∉ entry.2) ∧
      (p.treeless id = true → deps.lookup v = none)
  | _ => True

/-- Each instruction of the body leaves the trees before it and its own tree as they are. -/
def Stable (p : Program) : List (VarId × List VarId) → List Instruction → Prop
  | _, [] => True
  | deps, i :: rest => p.StableAt deps i ∧ p.Stable (p.depsAfter deps i) rest

instance (p : Program) (deps : List (VarId × List VarId)) (i : Instruction) :
    Decidable (p.StableAt deps i) :=
  match i with
  | .assign v id => inferInstanceAs (Decidable ((∀ entry ∈ p.depsAfter deps (.assign v id),
      v ∉ entry.2) ∧ (p.treeless id = true → deps.lookup v = none)))
  | .ret _ | .eval _ => .isTrue trivial

instance decidableStable (p : Program) :
    (deps : List (VarId × List VarId)) → (body : List Instruction) →
      Decidable (p.Stable deps body)
  | _, [] => .isTrue trivial
  | deps, i :: rest =>
    have := decidableStable p (p.depsAfter deps i) rest
    inferInstanceAs (Decidable (p.StableAt deps i ∧ p.Stable (p.depsAfter deps i) rest))

/-- Each variable with a tree is known to read no more than the tree reads. -/
def Tracks (p : Program) (deps : List (VarId × List VarId)) (trees : VarId → Option Tree) : Prop :=
  ∀ v, match trees v with
    | none => deps.lookup v = none
    | some t => ∃ reads, deps.lookup v = some reads ∧ ∀ x ∈ p.readsOf t, x ∈ reads

variable {deps : List (VarId × List VarId)} {trees : VarId → Option Tree} {t : Tree}

theorem readsOf_leaf (i : NodeId) {label : Label} {o : Origin} (origin : label.origin = some o) :
    p.readsOf (.node i label (Tree.pair .nil .nil)) = o.reads p := by
  simp [readsOf, Tree.leaves, Tree.childless, origin]

theorem readsOf_expandWith_leaf (i : NodeId) {v : Value} {label : Label}
    (origin : label.origin = some (.ofValue v))
    (fresh : v.isRead = true → label.expanded = false) :
    p.readsOf ((Tree.node i label (Tree.pair .nil .nil)).expandWith trees) =
      match v.kind with
      | .var x => (trees x).elim [x] p.readsOf
      | _ => (Origin.ofValue v).reads p := by
  have stays : p.readsOf (Tree.node i label (Tree.pair .nil .nil)).marked =
      (Origin.ofValue v).reads p := readsOf_leaf i origin
  obtain ⟨id, type, kind⟩ := v
  have other (noRead : label.var? = none) :
      p.readsOf ((Tree.node i label (Tree.pair .nil .nil)).expandWith trees) =
        (Origin.ofValue ⟨id, type, kind⟩).reads p := by
    rw [Tree.expandWith, noRead]
    split
    · exact readsOf_leaf i origin
    · exact stays
  cases kind with
  | int | float | call | tuple =>
    exact other (by simp [Label.var?, Label.atom?, origin, Origin.ofValue, Atom.ofKind])
  | var x =>
    have read : label.var? = some x := by
      simp [Label.var?, Label.atom?, origin, Origin.ofValue, Atom.ofKind]
    have unexpanded : label.expanded = false := fresh rfl
    rw [Tree.expandWith, unexpanded, read]
    cases tree : trees x with
    | none => simpa [Tree.childless, tree, Origin.reads, Origin.ofValue, Atom.ofKind] using stays
    | some u =>
      have leaves : (u.withId i).marked.leaves = u.leaves := by
        rw [Tree.leaves_eq_of_bare (Tree.bare_marked _), Tree.leaves_eq_of_bare (Tree.bare_withId _ _)]
      simp [Tree.childless, tree, readsOf, leaves]

/-- The expanded tree of a value reads what is known of it. -/
theorem Shows.readsOf_expandWith (wf : p.WellFormed) (tracks : p.Tracks deps trees)
    (present : ∀ v u, trees v = some u → u.isNil = false) (h : p.Shows id t) :
    ∀ x ∈ p.readsOf (t.expandWith trees), x ∈ p.treeReads deps id := by
  obtain ⟨rank, ranked, bounded⟩ := wf.exists_rank
  have go (depth : Nat) (deep : rank id < depth) :
      ∀ x ∈ p.readsOf (t.expandWith trees), x ∈ p.treeReadsTo deps depth id := by
    induction h generalizing depth with
    | @leaf id v label i found atomic origin _ fresh =>
      obtain ⟨depth, rfl⟩ : ∃ k, depth = k + 1 := ⟨depth - 1, by omega⟩
      intro x mem
      rw [readsOf_expandWith_leaf i origin fresh] at mem
      rw [treeReadsTo, found]
      have whole := reads_eq_of_found wf found
      obtain ⟨_, _, kind⟩ := v
      cases kind with
      | int | float | tuple => exact whole ▸ mem
      | call func args =>
        match args with
        | [] | [_] | _ :: _ :: _ :: _ => exact whole ▸ mem
        | [_, _] => cases atomic
      | var y =>
        have known := tracks y
        cases tree : trees y with
        | none =>
          simp only [tree] at known mem
          simpa [known] using mem
        | some u =>
          simp only [tree] at known mem
          obtain ⟨reads, known, sub⟩ := known
          simpa [known] using sub x mem
    | @call id a b v func f l r i found kind callee left right ihl ihr =>
      obtain ⟨depth, rfl⟩ : ∃ k, depth = k + 1 := ⟨depth - 1, by omega⟩
      have below (a : Nat) (mem : a ∈ v.operands) : rank a < depth := by
        have := ranked id v found a mem
        omega
      have inner := left.childless_eq right
      have inner' := (Tree.childless_congr fun side =>
        Tree.isNil_expandWith present (Tree.pair l r side)).trans inner
      intro x mem
      rw [Tree.expandWith, if_neg Bool.false_ne_true, if_neg (Bool.eq_false_iff.mp inner), readsOf,
        Tree.leaves_eq_of_bare (Tree.bare_marked _), ← readsOf, readsOf_node inner'] at mem
      have operands : v.operands = [a, b] := by simp [Value.operands, kind]
      have reads : p.treeReadsTo deps (depth + 1) id =
          p.treeReadsTo deps depth a ++ p.treeReadsTo deps depth b := by
        obtain ⟨_, _, _⟩ := v
        cases kind
        rw [treeReadsTo, found]
      rw [reads]
      exact List.mem_append.mpr ((List.mem_append.mp mem).imp
        (ihl depth (below a (by simp [operands])) x) (ihr depth (below b (by simp [operands])) x))
  intro x mem
  cases h with
  | leaf _ found => exact go _ (bounded id (Array.getElem?_eq_some_iff.mp found).1) x mem
  | call _ found => exact go _ (bounded id (Array.getElem?_eq_some_iff.mp found).1) x mem

end Program

/-- The trees of variables after an instruction with or without a tree. -/
def Instruction.treesAfter (i : Instruction) (trees : VarId → Option Tree) (tree : Option Tree) :
    VarId → Option Tree :=
  match i, tree with
  | .assign v _, some t => Function.update trees v (some t)
  | _, _ => trees

/-- After an assignment a tree is the new one, or an old one of another variable, or an old one of
the variable for which there is no new one. -/
theorem Instruction.treesAfter_assign {trees : VarId → Option Tree} {tree : Option Tree} {t : Tree}
    {v w : VarId} {id : ValueId}
    (found : (Instruction.assign v id).treesAfter trees tree w = some t) :
    (w = v ∧ tree = some t) ∨ (trees w = some t ∧ (w = v → tree = none)) := by
  cases tree with
  | none => exact .inr ⟨found, fun _ => rfl⟩
  | some u =>
    by_cases same : w = v
    · subst same
      rw [treesAfter, Function.update_self] at found
      exact .inl ⟨rfl, found⟩
    · rw [treesAfter, Function.update_of_ne same] at found
      exact .inr ⟨found, fun eq => absurd eq same⟩

theorem Instruction.treesAfter_withValue (i : Instruction) (id : ValueId)
    (trees : VarId → Option Tree) (tree : Option Tree) :
    (i.withValue id).treesAfter trees tree = i.treesAfter trees tree := by
  cases i <;> cases tree <;> rfl

theorem Instruction.forall_treesAfter {good : Tree → Prop} {trees : VarId → Option Tree}
    {tree : Option Tree} (i : Instruction) (old : ∀ v t, trees v = some t → good t)
    (new : ∀ t, tree = some t → good t) : ∀ v t, i.treesAfter trees tree v = some t → good t := by
  intro v t found
  cases i with
  | ret | eval => exact old v t found
  | assign w id =>
    rcases Instruction.treesAfter_assign found with ⟨-, isNew⟩ | ⟨isOld, -⟩
    · exact new t isNew
    · exact old v t isOld

namespace Program

universe u

variable {R : Type u} [Zero R] {I : Interpretation R} {env : Env R} {x : R} {p : Program}
  {deps : List (VarId × List VarId)} {trees : VarId → Option Tree} {tree : Option Tree}
  {i : Instruction}

/-- The tree of each variable computes what the variable holds. -/
def Coherent (I : Interpretation R) (env : Env R) (p : Program) (trees : VarId → Option Tree) :
    Prop :=
  ∀ v t, trees v = some t → p.evalTree I env t = env v

theorem Tracks.after (tracks : p.Tracks deps trees) (shape : tree = none ↔ p.treeless i.value)
    (reads : ∀ t, tree = some t → ∀ x ∈ p.readsOf t, x ∈ p.treeReads deps i.value) :
    p.Tracks (p.depsAfter deps i) (i.treesAfter trees tree) := by
  cases i with
  | ret | eval => exact tracks
  | assign v id =>
    rw [Instruction.value] at shape reads
    cases tree with
    | none =>
      rw [depsAfter, if_pos (shape.mp rfl)]
      exact tracks
    | some t =>
      rw [depsAfter, if_neg fun treeless => nomatch shape.mpr treeless]
      intro w
      by_cases same : w = v
      · subst same
        simp only [Instruction.treesAfter, Function.update_self]
        exact ⟨_, by rw [lookup_put, if_pos rfl], reads t rfl⟩
      · simp only [Instruction.treesAfter, Function.update_of_ne same]
        rw [lookup_put, if_neg same]
        exact tracks w

theorem StableAt.unread {v w : VarId} {id : ValueId} {t : Tree}
    (stable : p.StableAt deps (.assign v id)) {trees : VarId → Option Tree}
    (tracks : p.Tracks (p.depsAfter deps (.assign v id)) trees) (found : trees w = some t) :
    v ∉ p.readsOf t := by
  have known := tracks w
  simp only [found] at known
  obtain ⟨reads, known, sub⟩ := known
  exact fun mem => stable.1 _ (mem_of_lookup known) (sub v mem)

/-- Where no tree reads what is assigned, the trees stay coherent. -/
theorem Coherent.after (coherent : p.Coherent I env trees)
    (tracks : p.Tracks (p.depsAfter deps i) (i.treesAfter trees tree))
    (before : p.Tracks deps trees) (shape : tree = none ↔ p.treeless i.value)
    (computes : ∀ t, tree = some t → p.evalTree I env t = x) (stable : p.StableAt deps i) :
    p.Coherent I (i.after env x) (i.treesAfter trees tree) := by
  cases i with
  | ret | eval => exact coherent
  | assign v id =>
    intro w t found
    have notRead : v ∉ p.readsOf t := StableAt.unread stable tracks found
    have same : p.evalTree I ((Instruction.assign v id).after env x) t = p.evalTree I env t :=
      evalTree_congr fun y mem => Function.update_of_ne (ne_of_mem_of_not_mem mem notRead) _ _
    rw [same]
    rcases Instruction.treesAfter_assign found with ⟨rfl, new⟩ | ⟨old, replaced⟩
    · rw [computes t new, Instruction.after, Function.update_self]
    · have other : w ≠ v := by
        rintro rfl
        have absent := stable.2 (shape.mp (replaced rfl))
        have known := before w
        simp only [old] at known
        obtain ⟨_, known, -⟩ := known
        exact absurd (absent.symm.trans known) nofun
      rw [coherent w t old, Instruction.after, Function.update_of_ne other]

end Program

namespace Bench

variable {c : Classifier} {p : Program} {b b' : Bench} {trees : VarId → Option Tree} {t : Tree}
  {root : NodeId}

/-- The bench holds a program that has grown by linked calls, and these trees of variables, whose
leaves are values of the program that it has grown from. -/
structure Keeps (c : Classifier) (p : Program) (b : Bench) (trees : VarId → Option Tree) :
    Prop where
  linked : p.Linked c b.program
  registered : b.forest.store.Registered b.forest.roots trees .nil
  nodup : ∀ v t, trees v = some t → t.preorder.Nodup
  proper : ∀ v t, trees v = some t → t.proper = true
  grounds : ∀ v t, trees v = some t → p.Grounds t

theorem keeps_empty (c : Classifier) (p : Program) (journal : Journal) :
    Keeps c p ⟨p, {}, journal⟩ fun _ => none where
  linked := .refl
  registered _ := rfl
  nodup _ _ h := by cases h
  proper _ _ h := nomatch h
  grounds _ _ h := nomatch h

theorem Keeps.exists_root (h : b.Keeps c p trees) {v : VarId} (found : trees v = some t) :
    ∃ root, b.forest.root? (.var v) = some root ∧ b.forest.store.Owned (some root) t := by
  have registered := h.registered v
  split at registered
  · exact absurd (found.symm.trans registered) nofun
  · rename_i root isRoot
    obtain ⟨u, found', spans, -⟩ := registered
    cases found.symm.trans found'
    exact ⟨root, isRoot, spans, h.nodup v t found⟩

theorem Keeps.exists_tree (h : b.Keeps c p trees) {v : VarId}
    (found : b.forest.root? (.var v) = some root) :
    ∃ t, trees v = some t ∧ b.forest.store.Owned (some root) t := by
  have registered := h.registered v
  rw [show b.forest.roots.lookup (.var v) = some root from found] at registered
  obtain ⟨t, tree, spans, -⟩ := registered
  exact ⟨t, tree, spans, h.nodup v t tree⟩

theorem Keeps.isNil_eq (h : b.Keeps c p trees) (v : VarId) (t : Tree) (found : trees v = some t) :
    t.isNil = false := by
  obtain ⟨root, -, owned⟩ := h.exists_root found
  obtain ⟨_, _, _, rfl, -⟩ := owned.split
  rfl

theorem Keeps.mono (h : b.Keeps c p trees) (linked : p.Linked c b'.program)
    (roots : b'.forest.roots = b.forest.roots)
    (turns : b.forest.store.Turns .nil b'.forest.store t) : b'.Keeps c p trees where
  linked := linked
  registered := by
    rw [roots]
    exact (h.registered.turn turns).mono fun _ mem => absurd mem List.not_mem_nil
  nodup := h.nodup
  proper := h.proper
  grounds := h.grounds

theorem Keeps.add (h : b.Keeps c p trees) (owned : b.forest.store.Owned (some root) t)
    (proper : t.proper = true) (grounds : p.Grounds t) (i : Instruction) :
    Keeps c p { b with forest := b.forest.add (.ofInstruction i) root }
      (i.treesAfter trees (some t)) := by
  have other (key : TreeKey) (notVar : ∀ v, TreeKey.var v ≠ key) :
      Keeps c p { b with forest := b.forest.add key root } trees := by
    refine ⟨h.linked, fun v => ?_, h.nodup, h.proper, h.grounds⟩
    rw [Forest.roots_add, lookup_put, if_neg (notVar v)]
    exact h.registered v
  cases i with
  | ret => exact other .ret nofun
  | eval => exact other .none nofun
  | assign v id =>
    refine ⟨h.linked, fun w => ?_, Instruction.forall_treesAfter _ h.nodup ?_,
      Instruction.forall_treesAfter _ h.proper ?_, Instruction.forall_treesAfter _ h.grounds ?_⟩
    · rw [Forest.roots_add, TreeKey.ofInstruction, lookup_put]
      by_cases same : w = v
      · subst same
        rw [if_pos rfl, Instruction.treesAfter]
        exact ⟨t, Function.update_self .., owned.spans, fun _ _ => List.not_mem_nil⟩
      · rw [if_neg fun eq => same (TreeKey.var.inj eq), Instruction.treesAfter,
          Function.update_of_ne same]
        exact h.registered w
    · rintro _ ⟨⟩
      exact owned.nodup
    · rintro _ ⟨⟩
      exact proper
    · rintro _ ⟨⟩
      exact grounds

end Bench

end SecureArith
