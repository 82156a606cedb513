import SecureArith.Proofs.Atomicity
import SecureArith.Proofs.Remaking

set_option autoImplicit false

/-!
# Bodies that stay as they are

Where nothing but factoring is switched on, a body that was minimized is minimized to itself. Its
values look like the trees that they were emitted from: `Program.Fixed` says so by means of
outlines, in an environment of the outlines of variables. Nothing is left to be taken out of such an
outline, and it reads no variable that has one, so that writing trees in a second time finds the
same trees.
-/

namespace SecureArith

namespace Tree

variable {t u : Tree} {id : NodeId} {label : Label} {child : Side → Tree}

theorem inner_outline (t : Tree) : t.outline.inner = t.inner := by
  cases t with
  | nil | missing => rfl
  | node id label child =>
    simp only [outline, inner, childless_congr fun side => isNil_outline (child side)]

theorem reads_subset (h : ∀ o ∈ u.leaves, o ∈ t.leaves) : ∀ x ∈ u.reads, x ∈ t.reads := by
  intro x mem
  obtain ⟨id, type, leaf⟩ := mem_reads.mp mem
  exact mem_reads.mpr ⟨id, type, h _ leaf⟩

theorem reads_eq_of_bare (h : t.bare = u.bare) : t.reads = u.reads := by
  rw [reads, reads, leaves_eq_of_bare h]

theorem reads_node (inner : childless child = false) :
    (Tree.node id label child).reads = (child .left).reads ++ (child .right).reads := by
  rw [reads, leaves_node inner, List.filterMap_append]
  rfl

theorem reads_leaf {v : Value} (origin : label.origin = some (.ofValue v)) :
    (Tree.node id label (pair .nil .nil)).reads = match v.kind with
      | .var x => [x]
      | _ => [] := by
  obtain ⟨_, _, kind⟩ := v
  cases kind <;> simp [reads, leaves, childless, origin, Origin.ofValue, Atom.ofKind]

theorem reads_outline (t : Tree) : t.outline.reads = t.reads := by
  induction t with
  | nil | missing => rfl
  | node id label child ih =>
    have same := childless_congr fun side => isNil_outline (child side)
    by_cases leaf : childless child = true
    · simp only [outline, reads, leaves, same, leaf, if_true]
      cases label.origin <;> rfl
    · have inner := Bool.eq_false_iff.mpr leaf
      rw [outline, reads_node (same.trans inner), reads_node inner, ih, ih]

theorem bare_expandWith_leaf {v : Value} (origin : label.origin = some (.ofValue v))
    (fresh : v.isRead = true → label.expanded = false) (trees : VarId → Option Tree) :
    (((Tree.node id label (pair .nil .nil)).expandWith trees).bare =
        (Tree.node id label (pair .nil .nil)).bare ∧ ∀ x, v.kind = .var x → trees x = none) ∨
      ∃ x u, trees x = some u ∧
        ((Tree.node id label (pair .nil .nil)).expandWith trees).bare = u.bare := by
  have leaf : childless (pair .nil .nil) = true := rfl
  rw [expandWith, if_pos leaf]
  cases tree : label.var?.bind trees with
  | none =>
    refine .inl ⟨?_, fun x kind => ?_⟩
    · split
      · rfl
      · exact bare_marked _
    · have read : label.var? = some x := by
        simp [Label.var?, Label.atom?, origin, Origin.ofValue, Atom.ofKind, kind]
      rwa [read] at tree
  | some u =>
    obtain ⟨x, read, found⟩ := Option.bind_eq_some_iff.mp tree
    have isRead : v.isRead = true := by
      obtain ⟨_, _, kind⟩ := v
      cases kind with
      | int | float | call | tuple =>
        simp [Label.var?, Label.atom?, origin, Origin.ofValue, Atom.ofKind] at read
      | var => rfl
    refine .inr ⟨x, u, found, ?_⟩
    rw [fresh isRead, if_neg Bool.false_ne_true]
    exact (bare_marked _).trans (bare_withId id u)

end Tree

/-- The outlines of some variables. -/
abbrev Outlines := VarId → Option Tree

namespace Outlines

def of (trees : VarId → Option Tree) : Outlines := fun x => (trees x).map Tree.outline

/-- A variable without an outline looks like itself. -/
def env (outlines : Outlines) : Env Tree := fun x => (outlines x).getD (.ofAtom (.var x))

/-- No outline reads a variable that has one. -/
def Closed (outlines : Outlines) : Prop :=
  ∀ v o, outlines v = some o → ∀ x ∈ o.reads, outlines x = none

variable {trees : VarId → Option Tree} {t : Tree}

theorem of_treesAfter (i : Instruction) (trees : VarId → Option Tree) (tree : Option Tree) :
    of (i.treesAfter trees tree) = i.treesAfter (of trees) (tree.map Tree.outline) := by
  cases i with
  | ret | eval => rfl
  | assign v id =>
    cases tree with
    | none => rfl
    | some t =>
      funext x
      by_cases same : x = v
      · subst same
        simp only [of, Instruction.treesAfter, Option.map_some, Function.update_self]
      · simp only [of, Instruction.treesAfter, Option.map_some, Function.update_of_ne same]

theorem closed_none : (of fun _ => none).Closed := fun _ o found =>
  absurd found (Option.some_ne_none o).symm

theorem Closed.of_eq_none (closed : (of trees).Closed) {v x : VarId} (found : trees v = some t)
    (read : x ∈ t.reads) : of trees x = none := by
  refine closed v t.outline ?_ x ?_
  · rw [of, found]
    rfl
  · rwa [Tree.reads_outline]

theorem Closed.after {i : Instruction} {tree : Option Tree} (closed : (of trees).Closed)
    (free : ∀ t, tree = some t → ∀ x ∈ t.reads, of trees x = none)
    (unread : ∀ v id, i = .assign v id → ∀ w t, i.treesAfter trees tree w = some t → v ∉ t.reads) :
    (of (i.treesAfter trees tree)).Closed := by
  cases i with
  | ret | eval => exact closed
  | assign v id =>
    intro w o found x mem
    obtain ⟨t, isTree, rfl⟩ := Option.map_eq_some_iff.mp found
    rw [Tree.reads_outline] at mem
    have other : x ≠ v := ne_of_mem_of_not_mem mem (unread v id rfl w t isTree)
    have same : of ((Instruction.assign v id).treesAfter trees tree) x = of trees x := by
      cases tree with
      | none => rfl
      | some u => rw [of, of, Instruction.treesAfter, Function.update_of_ne other]
    rw [same]
    rcases Instruction.treesAfter_assign isTree with ⟨-, new⟩ | ⟨old, -⟩
    · exact free t new x mem
    · exact closed.of_eq_none old mem

end Outlines

namespace Program

variable {p q : Program} {trees : VarId → Option Tree} {t u : Tree} {id : Nat}

/-- The tree can be told from its outline: it is all there, its operators are those that their names
stand for, and its leaves are values that are not looked into. -/
structure Legible (p : Program) (t : Tree) : Prop where
  there : t.isNil = false
  proper : t.proper = true
  complete : t.complete = true
  plain : t.plain = true
  atomic : ∀ o ∈ t.leaves, p.Atomic o

theorem Legible.congr (h : p.Legible t) (same : u.bare = t.bare) : p.Legible u where
  there := (Tree.isNil_eq_of_bare same).trans h.there
  proper := (Tree.proper_eq_of_bare same).trans h.proper
  complete := (Tree.complete_eq_of_bare same).trans h.complete
  plain := (Tree.plain_eq_of_bare same).trans h.plain
  atomic o mem := h.atomic o (Tree.leaves_eq_of_bare same ▸ mem)

theorem legible_leaf {v : Value} {label : Label} (wf : p.WellFormed)
    (found : p.values[id]? = some v) (atomic : v.isBinary = false)
    (origin : label.origin = some (.ofValue v)) (noOp : label.op = none) (i : NodeId) :
    p.Legible (.node i label (Tree.pair .nil .nil)) where
  there := rfl
  proper := rfl
  complete := rfl
  plain := by simp [Tree.plain, Tree.childless, noOp]
  atomic o mem := by
    obtain rfl : o = _ := List.mem_singleton.mp mem
    exact ⟨v, origin, (wf.ids id v found).symm ▸ found, atomic⟩

theorem legible_node {label : Label} {child : Side → Tree} (children : ∀ side, p.Legible (child side))
    (isOp : label.op = some (.ofName label.opName)) (i : NodeId) :
    p.Legible (.node i label child) := by
  have inner : Tree.childless child = false := by simp [Tree.childless, (children .left).there]
  constructor
  case there => rfl
  case proper =>
    simp [Tree.proper, isOp, (children .left).there, (children .right).there,
      (children .left).proper, (children .right).proper]
  case complete => simp [Tree.complete, (children .left).complete, (children .right).complete]
  case plain =>
    simp only [Tree.plain, inner, (children .left).plain, (children .right).plain, Bool.and_true]
    simpa using isOp
  case atomic =>
    intro o mem
    rw [Tree.leaves_node inner] at mem
    exact (List.mem_append.mp mem).elim ((children .left).atomic o) ((children .right).atomic o)

theorem Legible.transformed {s : Settings} {changed : Bool} (h : p.Legible t)
    (transformed : t.Transformed s changed u) (off : s.reorderPriorities = false) :
    p.Legible u where
  there := transformed.isNil.trans h.there
  proper := transformed.proper
  complete := transformed.complete
  plain := transformed.plain off h.plain
  atomic o mem := h.atomic o (transformed.leaves o mem)

theorem Shows.legible_expandWith (wf : p.WellFormed)
    (legible : ∀ v t, trees v = some t → p.Legible t) (h : p.Shows id t) :
    p.Legible (t.expandWith trees) := by
  induction h with
  | @leaf id v label i found atomic origin noOp fresh =>
    have leaf : p.Legible (.node i label (Tree.pair .nil .nil)) :=
      legible_leaf wf found atomic origin noOp i
    rcases Tree.bare_expandWith_leaf origin fresh trees with ⟨same, -⟩ | ⟨x, u, tree, same⟩
    · exact leaf.congr same
    · exact (legible x u tree).congr same
  | @call id a b v func f l r i found kind callee left right ihl ihr =>
    rw [Tree.expandWith, if_neg Bool.false_ne_true,
      if_neg (Bool.eq_false_iff.mp (left.childless_eq right))]
    refine (legible_node (fun side => ?_) (by simp [Label.opName]) i).congr (Tree.bare_marked _)
    cases side with
    | left => exact ihl
    | right => exact ihr

theorem Shows.reads_expandWith (closed : (Outlines.of trees).Closed)
    (present : ∀ v u, trees v = some u → u.isNil = false) (h : p.Shows id t) :
    ∀ x ∈ (t.expandWith trees).reads, Outlines.of trees x = none := by
  induction h with
  | @leaf id v label i found atomic origin noOp fresh =>
    intro x mem
    rcases Tree.bare_expandWith_leaf origin fresh trees with ⟨same, unread⟩ | ⟨y, u, tree, same⟩
    · rw [Tree.reads_eq_of_bare same, Tree.reads_leaf origin] at mem
      obtain ⟨_, _, kind⟩ := v
      cases kind with
      | int | float | call | tuple => cases mem
      | var y =>
        obtain rfl : x = y := List.mem_singleton.mp mem
        rw [Outlines.of, unread x rfl]
        rfl
    · rw [Tree.reads_eq_of_bare same] at mem
      exact closed.of_eq_none tree mem
  | @call id a b v func f l r i found kind callee left right ihl ihr =>
    have inner := left.childless_eq right
    intro x mem
    rw [Tree.expandWith, if_neg Bool.false_ne_true, if_neg (Bool.eq_false_iff.mp inner),
      Tree.reads_eq_of_bare (Tree.bare_marked _), Tree.reads_node ((Tree.childless_congr fun side =>
        Tree.isNil_expandWith present (Tree.pair l r side)).trans inner)] at mem
    exact (List.mem_append.mp mem).elim (ihl x) (ihr x)

/-- Where a tree reads no variable with an outline, its outline is what it looks like. -/
theorem Legible.evalTree_eq (wf : p.WellFormed) {outlines : Outlines} (h : p.Legible t)
    (free : ∀ x ∈ t.reads, outlines x = none) :
    p.evalTree .outlines outlines.env t = t.outline := by
  refine evalTree_outlines wf h.proper h.plain h.atomic (fun x mem => ?_) h.complete
  rw [Outlines.env, free x mem]
  rfl

/-- A value looks like its tree with the trees of variables written in. -/
theorem Shows.eval?_outlines (wf : p.WellFormed) (legible : ∀ v t, trees v = some t → p.Legible t)
    (closed : (Outlines.of trees).Closed) (h : p.Shows id t) :
    p.eval? .outlines (Outlines.of trees).env id = some (t.expandWith trees).outline := by
  have present (v : VarId) (u : Tree) (found : trees v = some u) := (legible v u found).there
  have coherent (v : VarId) (u : Tree) (found : trees v = some u) :
      p.evalTree .outlines (Outlines.of trees).env u = (Outlines.of trees).env v := by
    rw [(legible v u found).evalTree_eq wf fun x => closed.of_eq_none found, Outlines.env,
      Outlines.of, found]
    rfl
  have expanded : p.evalTree .outlines (Outlines.of trees).env (t.expandWith trees) = _ :=
    (h.legible_expandWith wf legible).evalTree_eq wf (h.reads_expandWith closed present)
  rw [h.eval?_eq wf, ← expanded, evalTree, evalTree, Tree.eval_expandWith present coherent]

/-- Minimizing the value changes nothing, where variables have these outlines: an operation looks
like a tree in which nothing is left to factor. This is its outline, if it has a tree. -/
inductive Fixed (p : Program) (outlines : Outlines) : ValueId → Option Tree → Prop
  | atom {id : ValueId} {v : Value} {o : Tree} (found : p.values[id]? = some v)
      (atomic : v.isCall = false) (sight : p.eval? .outlines outlines.env id = some o) :
      Fixed p outlines id (some o)
  | binary {id : ValueId} {v : Value} {o : Tree} (found : p.values[id]? = some v)
      (binary : v.isBinary = true) (sight : p.eval? .outlines outlines.env id = some o)
      (settled : o.Settled) : Fixed p outlines id (some o)
  | other {id : ValueId} {v : Value} {func : FuncId} {parts : List (ValueId × Option Tree)}
      (found : p.values[id]? = some v) (kind : v.kind = .call func (parts.map (·.1)))
      (length : parts.length ≠ 2) (operands : ∀ part ∈ parts, Fixed p outlines part.1 part.2) :
      Fixed p outlines id none

variable {outlines : Outlines} {o : Option Tree}

theorem Fixed.mono (h : p.Fixed outlines id o) (precedes : p.Precedes q) (wf : p.WellFormed) :
    q.Fixed outlines id o := by
  have kept {id : Nat} {v : Value} (found : p.values[id]? = some v) : q.values[id]? = some v :=
    (precedes.kept id (Array.getElem?_eq_some_iff.mp found).1).trans found
  have same {id : Nat} {v : Value} (found : p.values[id]? = some v) :
      q.eval? .outlines outlines.env id = p.eval? .outlines outlines.env id :=
    precedes.eval?_eq wf (Array.getElem?_eq_some_iff.mp found).1
  induction h with
  | atom found atomic sight => exact .atom (kept found) atomic ((same found).trans sight)
  | binary found binary sight settled =>
    exact .binary (kept found) binary ((same found).trans sight) settled
  | other found kind length _ ih => exact .other (kept found) kind length ih

theorem Fixed.exists_value (h : p.Fixed outlines id o) : ∃ v, p.values[id]? = some v := by
  cases h with
  | atom found | binary found | other found => exact ⟨_, found⟩

theorem Fixed.of_isBinary {v : Value} (h : p.Fixed outlines id o) (found : p.values[id]? = some v)
    (binary : v.isBinary = true) :
    ∃ t, p.eval? .outlines outlines.env id = some t ∧ t.Settled := by
  cases h with
  | atom found' atomic =>
    cases found.symm.trans found'
    exact absurd (binary.symm.trans (Value.isBinary_eq_false atomic)) Bool.true_eq_false.mp
  | binary _ _ sight settled => exact ⟨_, sight, settled⟩
  | other found' kind length =>
    cases found.symm.trans found'
    exact absurd (by simpa [Value.isBinary, kind] using binary) length

theorem Fixed.of_call {v : Value} {func : FuncId} {args : List ValueId} {a : ValueId}
    (h : p.Fixed outlines id o) (found : p.values[id]? = some v) (kind : v.kind = .call func args)
    (length : args.length ≠ 2) (mem : a ∈ args) : ∃ o', p.Fixed outlines a o' := by
  cases h with
  | atom found' atomic =>
    cases found.symm.trans found'
    simp [Value.isCall, kind] at atomic
  | binary found' binary =>
    cases found.symm.trans found'
    exact absurd (by simpa [Value.isBinary, kind] using binary) length
  | other found' kind' _ operands =>
    cases found.symm.trans found'
    cases kind.symm.trans kind'
    obtain ⟨part, isPart, rfl⟩ := List.mem_map.mp mem
    exact ⟨_, operands part isPart⟩

theorem Fixed.eq_eval? (h : p.Fixed outlines id o) :
    o = if p.treeless id then none else p.eval? .outlines outlines.env id := by
  cases h with
  | atom found atomic sight =>
    rw [treeless_eq_false found (.inl atomic), if_neg Bool.false_ne_true, sight]
  | binary found binary sight =>
    rw [treeless_eq_false found (.inr binary), if_neg Bool.false_ne_true, sight]
  | other found kind length =>
    rw [treeless_of_call found kind (by simpa using length), if_pos rfl]

/-- Only operations look like operations, where variables look like themselves. -/
theorem WellFormed.isBinary_of_sight (wf : p.WellFormed) {v : Value} (found : p.values[id]? = some v)
    (sight : p.eval? .outlines (Outlines.env fun _ => none) id = some t) (inner : t.inner = true) :
    v.isBinary = true := by
  by_contra atomic
  have atomic := Bool.eq_false_iff.mpr atomic
  have leaf (a : Atom) : (Tree.ofAtom a).inner = false := rfl
  have unfolded : p.eval? .outlines (Outlines.env fun _ => none) id = _ := wf.eval?_eq found
  have sealed : Atom.ofKind v.kind = .other →
      p.eval? .outlines (Outlines.env fun _ => none) id = _ := wf.eval?_outlines found atomic
  rw [sight] at unfolded sealed
  obtain ⟨_, _, kind⟩ := v
  cases kind with
  | int | float | var =>
    cases unfolded
    cases inner
  | call | tuple =>
    cases sealed rfl
    cases inner

theorem Shows.inner_expandWith {v : Value} (h : p.Shows id t) (found : p.values[id]? = some v)
    (binary : v.isBinary = true) (present : ∀ v u, trees v = some u → u.isNil = false) :
    (t.expandWith trees).inner = true := by
  cases h with
  | leaf _ found' atomic =>
    cases found.symm.trans found'
    exact absurd (atomic.symm.trans binary) Bool.false_ne_true
  | call _ _ _ _ left right =>
    have inner := left.childless_eq right
    rw [Tree.expandWith, if_neg Bool.false_ne_true, if_neg (Bool.eq_false_iff.mp inner),
      Tree.inner_eq_of_bare (Tree.bare_marked _), Tree.inner, (Tree.childless_congr fun side =>
        Tree.isNil_expandWith present (Tree.pair _ _ side)).trans inner]
    rfl

theorem fixed_call {v : Value} {func : FuncId} {parts : List (ValueId × ValueId × Option Tree)}
    (found : p.values[id]? = some v) (kind : v.kind = .call func (parts.map (·.2.1)))
    (other : parts.length ≠ 2)
    (fixed : ∀ part ∈ parts, p.Fixed outlines part.2.1 (part.2.2.map Tree.outline)) :
    p.Fixed outlines id none := by
  have kind : v.kind = .call func ((parts.map fun part =>
      (part.2.1, part.2.2.map Tree.outline)).map (·.1)) := by
    rw [kind, List.map_map]
    rfl
  exact .other found kind (by rwa [List.length_map]) (List.forall_mem_map.mpr fixed)

section Remade

variable {s : Settings} {new : Nat} {tree : Option Tree}

/-- What was made anew is not changed again. Its tree is legible, and reads no variable that has a
tree. -/
theorem Remade.fixed (wf : p.WellFormed) (wf' : q.WellFormed) (ext : p.Extends q)
    (off : s.reorderPriorities = false) (on : s.factorize = true)
    (legible : ∀ v t, trees v = some t → p.Legible t) (closed : (Outlines.of trees).Closed)
    (h : p.Remade s .outlines trees q id new tree) :
    q.Fixed (Outlines.of trees) new (tree.map Tree.outline) ∧
      ∀ t, tree = some t → p.Legible t ∧ ∀ x ∈ t.reads, Outlines.of trees x = none := by
  have present (v : VarId) (u : Tree) (found : trees v = some u) := (legible v u found).there
  have kept {id : Nat} {v : Value} (found : p.values[id]? = some v) : q.values[id]? = some v :=
    (ext.kept id (Array.getElem?_eq_some_iff.mp found).1).trans found
  -- The expanded tree, and what it is turned into.
  have expanded {id : ValueId} {t e : Tree} (shows : p.Shows id t)
      (alike : e.bare = (t.expandWith trees).bare) :
      p.Legible e ∧ ∀ x ∈ e.reads, Outlines.of trees x = none := by
    refine ⟨(shows.legible_expandWith wf legible).congr alike, ?_⟩
    rw [Tree.reads_eq_of_bare alike]
    exact shows.reads_expandWith closed present
  have sight {id : Nat} {v : Value} {t e : Tree} (found : p.values[id]? = some v)
      (shows : p.Shows id t) (alike : e.bare = (t.expandWith trees).bare) :
      q.eval? .outlines (Outlines.of trees).env id = some e.outline := by
    rw [ext.eval?_eq wf (Array.getElem?_eq_some_iff.mp found).1, Tree.outline_eq_of_bare alike]
    exact shows.eval?_outlines wf legible closed
  have turned {id : ValueId} {t e u : Tree} {changed : Bool} (shows : p.Shows id t)
      (alike : e.bare = (t.expandWith trees).bare) (transformed : e.Transformed s changed u) :
      p.Legible u ∧ ∀ x ∈ u.reads, Outlines.of trees x = none := by
    obtain ⟨legible, free⟩ := expanded shows alike
    exact ⟨legible.transformed transformed off, fun x mem =>
      free x (Tree.reads_subset transformed.leaves x mem)⟩
  induction h with
  | atom found atomic shows alike =>
    refine ⟨.atom (kept found) atomic (sight found shows alike), ?_⟩
    rintro _ ⟨⟩
    exact expanded shows alike
  | kept found binary shows alike transformed =>
    have same := transformed.kept off rfl
    refine ⟨.binary (kept found) binary ?_ ?_, ?_⟩
    · exact sight found shows (same.trans alike)
    · exact (Tree.settled_outline _).mpr (transformed.settled off on)
    · rintro _ ⟨⟩
      exact turned shows alike transformed
  | @emitted id new v t e u found binary shows alike transformed there computes =>
    obtain ⟨legible, free⟩ := turned shows alike transformed
    have inner : e.inner = true := by
      rw [Tree.inner_eq_of_bare alike]
      exact shows.inner_expandWith found binary present
    have sight (outlines : Outlines) (free : ∀ x ∈ u.reads, outlines x = none) :
        q.eval? .outlines outlines.env new = some u.outline := by
      rw [computes, legible.evalTree_eq wf free]
    refine ⟨.binary (Array.getElem?_eq_getElem there) ?_ (sight _ free) ?_, ?_⟩
    · exact wf'.isBinary_of_sight (Array.getElem?_eq_getElem there) (sight _ fun _ _ => rfl)
        ((Tree.inner_outline u).trans (transformed.inner off inner))
    · exact (Tree.settled_outline u).mpr (transformed.settled off on)
    · rintro _ ⟨⟩
      exact ⟨legible, free⟩
  | same found kind other _ unchanged ih =>
    exact ⟨fixed_call (kept found) (unchanged ▸ kind) other fun part mem => (ih part mem).1, by simp⟩
  | again found kind other _ made made_kind ih =>
    exact ⟨fixed_call made made_kind other fun part mem => (ih part mem).1, by simp⟩

theorem Remade.readsOf_subset {R : Type} [Zero R] {I : Interpretation R}
    {deps : List (VarId × List VarId)} (wf : p.WellFormed) (tracks : p.Tracks deps trees)
    (present : ∀ v u, trees v = some u → u.isNil = false)
    (h : p.Remade s I trees q id new (some t)) : ∀ x ∈ p.readsOf t, x ∈ p.treeReads deps id := by
  have expanded {t e : Tree} (shows : p.Shows id t) (alike : e.bare = (t.expandWith trees).bare) :
      ∀ x ∈ p.readsOf e, x ∈ p.treeReads deps id := by
    rw [readsOf, Tree.leaves_eq_of_bare alike]
    exact shows.readsOf_expandWith wf tracks present
  cases h with
  | atom found atomic shows alike => exact expanded shows alike
  | kept found binary shows alike transformed =>
    exact fun x mem => expanded shows alike x (p.readsOf_subset transformed.leaves x mem)
  | emitted found binary shows alike transformed =>
    exact fun x mem => expanded shows alike x (p.readsOf_subset transformed.leaves x mem)

end Remade

/-- The body stays as it is from these outlines on. -/
def Stationary (p : Program) : Outlines → List Instruction → Prop
  | _, [] => True
  | outlines, i :: rest => ∃ o, p.Fixed outlines i.value o ∧
      Outlines.Closed (i.treesAfter outlines o) ∧ p.Stationary (i.treesAfter outlines o) rest

theorem Stationary.mono {body : List Instruction} (h : p.Stationary outlines body)
    (precedes : p.Precedes q) (wf : p.WellFormed) : q.Stationary outlines body := by
  induction body generalizing outlines with
  | nil => trivial
  | cons i rest ih =>
    obtain ⟨o, fixed, closed, later⟩ := h
    exact ⟨o, fixed.mono precedes wf, closed, ih later⟩

theorem mem_readsOf {x : VarId} (mem : x ∈ t.reads) : x ∈ p.readsOf t := by
  obtain ⟨id, type, leaf⟩ := Tree.mem_reads.mp mem
  exact List.mem_flatMap.mpr ⟨_, leaf, by simp [Origin.reads]⟩

/-- A body that was minimized is stationary, if none of its variables changes while a tree reads
it. -/
theorem RemadeAlong.stationary {s : Settings} {body body' : List Instruction}
    {deps : List (VarId × List VarId)} (wf : p.WellFormed) (wf' : q.WellFormed)
    (ext : p.Extends q) (off : s.reorderPriorities = false) (on : s.factorize = true)
    (legible : ∀ v t, trees v = some t → p.Legible t) (closed : (Outlines.of trees).Closed)
    (tracks : p.Tracks deps trees) (stable : p.Stable deps body)
    (h : p.RemadeAlong s .outlines q trees body body') :
    q.Stationary (Outlines.of trees) body' := by
  induction h generalizing deps with
  | nil => trivial
  | @cons trees i new tree rest rest' head tail ih =>
    obtain ⟨now, later⟩ := stable
    have present (v : VarId) (u : Tree) (found : trees v = some u) := (legible v u found).there
    obtain ⟨fixed, own⟩ := head.fixed wf wf' ext off on legible closed
    have tracks' : p.Tracks (p.depsAfter deps i) (i.treesAfter trees tree) := by
      refine tracks.after head.treeless_iff fun t isTree => ?_
      exact (isTree ▸ head).readsOf_subset wf tracks present
    have closed' : (Outlines.of (i.treesAfter trees tree)).Closed := by
      refine closed.after (fun t isTree => (own t isTree).2) ?_
      rintro v id rfl w t found read
      exact StableAt.unread now tracks' found (mem_readsOf read)
    have legible' := i.forall_treesAfter legible fun t isTree => (own t isTree).1
    have after : (i.withValue new).treesAfter (Outlines.of trees) (tree.map Tree.outline) =
        Outlines.of (i.treesAfter trees tree) := by
      rw [Outlines.of_treesAfter, Instruction.treesAfter_withValue]
    refine ⟨tree.map Tree.outline, ?_, ?_, ?_⟩
    · rwa [Instruction.value_withValue]
    · rwa [after]
    · rw [after]
      exact ih legible' closed' tracks' later

end Program

namespace Work

open Program (Fixed Legible)

variable {s : Settings} {p : Program} {b : Bench} {trees : VarId → Option Tree} {id root : Nat}
  {t : Tree} {o : Option Tree}

theorem ends_transform_settled (h : b.forest.store.Owned (some root) t) (settled : t.Settled)
    (noPowers : s.expandPowers = false) (off : s.reorderPriorities = false) :
    Ends (transform s root) b (fun changed b' => changed = false ∧ b' = b) fun _ _ => False := by
  have factored : Ends (optional s.factorize (factorAll s.classifier root)) b
      (fun changed b' => changed = false ∧ b' = b) fun _ _ => False := by
    rw [optional, Ends.ite_iff]
    exact ⟨fun _ => ends_factorAll_settled h settled, fun _ => ⟨rfl, rfl⟩⟩
  rw [transform, noPowers, off, Ends.bind_iff]
  change Ends (optional s.factorize _ >>= _) b _ _
  rw [Ends.bind_iff]
  refine factored.imp ?_ fun _ _ h => h
  rintro _ _ ⟨rfl, rfl⟩
  exact ⟨rfl, rfl⟩

/-- The value stayed as it is, and so did the program. -/
structure Rests (p : Program) (id : ValueId) (m : Minimized) (b : Bench) : Prop where
  value : m.value = id
  regenerated : m.regenerated = 0
  program : b.program = p

theorem ends_minimizeBinary_rests {v : Value} (wf : p.WellFormed)
    (keeps : b.Keeps s.classifier p trees) (same : b.program = p)
    (legible : ∀ v t, trees v = some t → p.Legible t) (closed : (Outlines.of trees).Closed)
    (found : p.values[id]? = some v)
    (sight : p.eval? .outlines (Outlines.of trees).env id = some t) (settled : t.Settled)
    (noPowers : s.expandPowers = false) (off : s.reorderPriorities = false) :
    Ends (minimizeBinary s id) b (fun m b' => Rests p id m b') fun _ _ => False := by
  have lt := (Array.getElem?_eq_some_iff.mp found).1
  refine ends_minimizeBinary_of wf keeps lt fun root s₁ u b₁ e shows turns reworked alike => ?_
  have outline : e.outline = t := by
    have looks := shows.eval?_outlines wf legible closed
    rw [Tree.outline_eq_of_bare (Tree.bare_eq_of_anonymous alike)]
    exact Option.some.inj (looks.symm.trans sight)
  have settled : e.Settled := (Tree.settled_outline e).mp (outline ▸ settled)
  refine (ends_transform_settled reworked.owned settled noPowers off).imp ?_ fun _ _ h => h
  rintro _ _ ⟨rfl, rfl⟩
  exact ⟨fun _ => ⟨rfl, rfl, reworked.program.trans same⟩, fun changed => by cases changed⟩

theorem ends_mapM_rests {f : ValueId → Work Minimized} {args : List ValueId}
    (keeps : b.Keeps s.classifier p trees) (same : b.program = p)
    (step : ∀ a ∈ args, ∀ b : Bench, b.Keeps s.classifier p trees → b.program = p →
      Ends (f a) b (fun m b' => Remakes s .outlines p trees b a m b' ∧ Rests p a m b')
        fun _ _ => False) :
    Ends (args.mapM f) b
      (fun done b' => done.map (·.value) = args ∧ done.foldr (·.regenerated + ·) 0 = 0 ∧
        b'.program = p)
      fun _ _ => False := by
  induction args generalizing b with
  | nil => exact ⟨rfl, rfl, same⟩
  | cons a rest ih =>
    rw [List.mapM_cons, Ends.bind_iff]
    refine (step a List.mem_cons_self b keeps same).imp ?_ fun _ _ h => h
    rintro m b₁ ⟨⟨minimizes, -⟩, rests⟩
    rw [Ends.bind_iff]
    refine (ih (keeps.mono minimizes.linked minimizes.roots minimizes.turns) rests.program
      fun a mem => step a (List.mem_cons_of_mem _ mem)).imp ?_ fun _ _ h => h
    rintro done b₂ ⟨values, none, program⟩
    refine ⟨?_, ?_, program⟩
    · rw [List.map_cons, rests.value, values]
    · rw [List.foldr_cons, rests.regenerated, none]

theorem ends_minimizeTo_rests {rank : Nat → Nat} {depth : Nat} (wf : p.WellFormed)
    (ranked : p.RankedBy rank) (keeps : b.Keeps s.classifier p trees) (same : b.program = p)
    (legible : ∀ v t, trees v = some t → p.Legible t) (closed : (Outlines.of trees).Closed)
    (fixed : p.Fixed (Outlines.of trees) id o) (deep : rank id < depth)
    (noPowers : s.expandPowers = false) (off : s.reorderPriorities = false) :
    Ends (minimizeTo s depth id) b
      (fun m b' => Remakes s .outlines p trees b id m b' ∧ Rests p id m b') fun _ _ => False := by
  induction depth generalizing b id o with
  | zero => omega
  | succ depth ih =>
    obtain ⟨v, found⟩ := fixed.exists_value
    have lt := (Array.getElem?_eq_some_iff.mp found).1
    suffices rests : Ends (minimizeTo s (depth + 1) id) b (fun m b' => Rests p id m b')
        fun _ _ => False from
      ((ends_minimizeTo_remade .outlines wf ranked keeps lt deep noPowers).and rests).imp
        (fun _ _ h => h) fun _ _ h => h.2
    refine ends_minimizeTo_succ (same ▸ found) (fun binary => ?_)
      (fun func args kind length => ?_) fun atomic => ?_
    · obtain ⟨t, sight, settled⟩ := fixed.of_isBinary found binary
      exact ends_minimizeBinary_rests wf keeps same legible closed found sight settled noPowers off
    · refine (ends_mapM_rests keeps same fun a mem b' keeps' same' => ?_).imp ?_ fun _ _ h => h
      · have operand : a ∈ v.operands := by simpa [Value.operands, kind] using mem
        have less := ranked id v found a operand
        obtain ⟨o', fixed'⟩ := fixed.of_call found kind length mem
        exact ih keeps' same' fixed' (by omega)
      · rintro done b₁ ⟨values, none, program⟩
        rw [none]
        exact ⟨fun _ => ⟨rfl, rfl, program⟩, fun changed => absurd values changed⟩
    · exact ends_minimizeLeaf_of keeps found atomic fun _ _ _ _ _ _ _ reworked _ =>
        ⟨rfl, rfl, reworked.program.trans same⟩

theorem ends_minimizeInstruction_rests {i : Instruction} (wf : p.WellFormed)
    (keeps : b.Keeps s.classifier p trees) (same : b.program = p)
    (legible : ∀ v t, trees v = some t → p.Legible t) (closed : (Outlines.of trees).Closed)
    (fixed : p.Fixed (Outlines.of trees) i.value o) (noPowers : s.expandPowers = false)
    (off : s.reorderPriorities = false) (on : s.factorize = true) :
    Ends (minimizeInstruction s i) b
      (fun m b' => Rests p i.value m b' ∧ ∃ tree, b'.Keeps s.classifier p (i.treesAfter trees tree) ∧
        tree.map Tree.outline = o ∧ ∀ t, tree = some t → p.Legible t)
      fun _ _ => False := by
  obtain ⟨v, found⟩ := fixed.exists_value
  have lt := (Array.getElem?_eq_some_iff.mp found).1
  obtain ⟨rank, ranked, bounded⟩ := wf.exists_rank
  have rests : Ends (minimizeInstruction s i) b (fun m b' => Rests p i.value m b')
      fun _ _ => False := by
    rw [minimizeInstruction, Ends.bind_iff, minimize, Ends.bind_iff, Ends.get_iff, same]
    refine (ends_minimizeTo_rests wf ranked keeps same legible closed fixed (bounded _ lt) noPowers
      off).imp ?_ fun _ _ h => h
    rintro m b₁ ⟨-, rests⟩
    cases m.tree with
    | none => exact rests
    | some root => exact ⟨rests.value, rests.regenerated, rests.program⟩
  refine ((ends_minimizeInstruction_remade .outlines wf keeps lt noPowers).and rests).imp ?_
    fun _ _ h => h.2
  rintro m b₁ ⟨⟨tree, keeps₁, remade⟩, rests⟩
  rw [rests.value, rests.program] at remade
  obtain ⟨fixed', own⟩ := remade.fixed wf wf (.refl p) off on legible closed
  exact ⟨rests, tree, keeps₁, fixed'.eq_eval?.trans fixed.eq_eval?.symm, fun t isTree =>
    (own t isTree).1⟩

theorem ends_minimizeBody_rests {body : List Instruction} (wf : p.WellFormed)
    (keeps : b.Keeps s.classifier p trees) (same : b.program = p)
    (legible : ∀ v t, trees v = some t → p.Legible t) (closed : (Outlines.of trees).Closed)
    (stationary : p.Stationary (Outlines.of trees) body) (noPowers : s.expandPowers = false)
    (off : s.reorderPriorities = false) (on : s.factorize = true) :
    Ends (minimizeBody s body) b (fun out b' => out = (body, 0) ∧ b'.program = p)
      fun _ _ => False := by
  induction body generalizing b trees with
  | nil => exact ⟨rfl, same⟩
  | cons i rest ih =>
    obtain ⟨o, fixed, closed', later⟩ := stationary
    rw [minimizeBody, Ends.bind_iff]
    refine (ends_minimizeInstruction_rests wf keeps same legible closed fixed noPowers off on).imp ?_
      fun _ _ h => h
    rintro m b₁ ⟨rests, tree, keeps₁, rfl, own⟩
    rw [← Outlines.of_treesAfter] at closed' later
    rw [Ends.bind_iff]
    refine (ih keeps₁ rests.program (i.forall_treesAfter legible own) closed' later).imp ?_
      fun _ _ h => h
    rintro _ b₂ ⟨rfl, program⟩
    refine ⟨?_, program⟩
    have unchanged : i.withValue i.value = i := by cases i <;> rfl
    rw [rests.value, rests.regenerated, unchanged]

theorem ends_optimizeFunction_rests {f : Function} (wf : p.WellFormed)
    (inside : ∀ i ∈ f.body, i.value < p.values.size)
    (stationary : s.changesTreesOf f = true → p.Stationary (fun _ => none) f.body)
    (noPowers : s.expandPowers = false) (off : s.reorderPriorities = false)
    (noChains : s.reorderMatmuls = false) (forest : Forest) (journal : Journal) :
    Ends (optimizeFunction s f) ⟨p, forest, journal⟩
      (fun out b' => out.1.regenerated = 0 ∧ out.1.chains = 0 ∧ out.2 = f.body ∧ b'.program = p)
      fun _ _ => False := by
  have minimized : Ends (minimizeFunction s f) ⟨p, {}, journal⟩
      (fun out b' => out = (f.body, 0) ∧ b'.program = p) fun _ _ => False := by
    rw [minimizeFunction, Ends.ite_iff]
    refine ⟨fun asks => ?_, fun _ => ⟨rfl, rfl⟩⟩
    have on : s.factorize = true := by
      simpa [Settings.changesTreesOf, Settings.changesTrees, noPowers, off] using
        (Bool.and_eq_true_iff.mp asks).2
    exact ends_minimizeBody_rests wf (Bench.keeps_empty _ p journal) rfl
      (fun _ t found => absurd found (Option.some_ne_none t).symm) Outlines.closed_none
      (stationary asks) noPowers off on
  rw [optimizeFunction, ends_aside, Ends.bind_iff]
  refine (minimized.and (ends_minimizeFunction_complete wf inside journal)).imp ?_
    fun _ _ h => h.1
  rintro _ b' ⟨⟨rfl, program⟩, complete⟩
  dsimp only
  rw [replaceChainsOf_eq noChains, pure_bind, Ends.bind_iff]
  exact ends_counts ⟨rfl, rfl, rfl, program⟩ fun missing => absurd complete missing

/-- A body that assigns each variable once is minimized to one that stays as it is. -/
theorem ends_optimizeFunction_stationary {f : Function} (wf : p.WellFormed)
    (inside : ∀ i ∈ f.body, i.value < p.values.size) (once : p.AssignsOnce f.body)
    (noPowers : s.expandPowers = false) (off : s.reorderPriorities = false)
    (noChains : s.reorderMatmuls = false) (forest : Forest) (journal : Journal) :
    Ends (optimizeFunction s f) ⟨p, forest, journal⟩
      (fun out b' => p.Extends b'.program ∧
        (s.changesTreesOf f = true → b'.program.Stationary (fun _ => none) out.2))
      fun _ b' => p.Extends b'.program := by
  have start : p.KnownFrom [] [] := fun _ mem => absurd mem List.not_mem_nil
  have once : p.AssignsOnce ([] ++ f.body) := once
  have stable := Program.stable_of_assignsOnce wf once start
  refine ((ends_optimizeFunction Interpretation.arithmetic_integers wf inside noChains).and
    (ends_optimizeFunction_remade .outlines wf inside noPowers noChains)).imp ?_
    fun _ _ fails => fails.1.extends
  rintro out b' ⟨⟨linked, -⟩, remade⟩
  refine ⟨linked.extends, fun asks => ?_⟩
  rw [if_pos asks] at remade
  have on : s.factorize = true := by
    simpa [Settings.changesTreesOf, Settings.changesTrees, noPowers, off] using
      (Bool.and_eq_true_iff.mp asks).2
  exact remade.stationary wf (linked.wellFormed wf) linked.extends off on
    (fun _ t found => absurd found (Option.some_ne_none t).symm) Outlines.closed_none
    (fun _ => rfl) stable

end Work

end SecureArith
