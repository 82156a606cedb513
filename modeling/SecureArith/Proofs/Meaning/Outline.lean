import SecureArith.Proofs.Build
import SecureArith.Proofs.Typing

set_option autoImplicit false

/-!
# Outlines

The outline of a tree is what the tree looks like: its operators, and the constants and variables at
its leaves. Outlines are an interpretation like any other: in an environment of outlines a value
stands for the outline of its tree, with the outlines of variables in the place of their reads.
-/

namespace SecureArith

namespace Tree

def ofAtom (a : Atom) : Tree := .node 0 { origin := some ⟨0, none, a⟩ } (pair .nil .nil)

/-- The tree with its operators, and the constants and variables at its leaves. -/
def outline : Tree → Tree
  | .nil => .nil
  | .missing _ => .missing 0
  | .node _ label child =>
    .node 0 { origin := if childless child then label.origin.map fun o => ⟨0, none, o.atom⟩ else none
              op := label.op } fun side => (child side).outline

/-- Operations have the operators that their names stand for, and leaves have none. -/
def plain : Tree → Bool
  | .nil | .missing _ => true
  | .node _ label child =>
    (if childless child then label.op.isNone else label.op == some (.ofName label.opName)) &&
      (child .left).plain && (child .right).plain

def inner : Tree → Bool
  | .node _ _ child => !childless child
  | _ => false

@[simp] theorem isNil_outline (t : Tree) : t.outline.isNil = t.isNil := by
  cases t <;> rfl

theorem outline_bare (t : Tree) : t.bare.outline = t.outline := by
  induction t with
  | nil | missing => rfl
  | node id label child ih =>
    simp only [bare, outline, childless_bare, ih]
    congr 2
    split <;> rfl

theorem outline_eq_of_bare {t u : Tree} (h : t.bare = u.bare) : t.outline = u.outline := by
  rw [← outline_bare, h, outline_bare]

theorem plain_bare (t : Tree) : t.bare.plain = t.plain := by
  induction t with
  | nil | missing => rfl
  | node id label child ih =>
    simp only [bare, plain, childless_bare, ih]
    rfl

theorem plain_eq_of_bare {t u : Tree} (h : t.bare = u.bare) : t.plain = u.plain := by
  rw [← plain_bare, h, plain_bare]

theorem inner_eq_of_bare {t u : Tree} (h : t.bare = u.bare) : t.inner = u.inner := by
  have bare (t : Tree) : t.bare.inner = t.inner := by cases t <;> simp [inner, Tree.bare, childless_bare]
  rw [← bare t, h, bare u]

theorem complete_eq_of_bare {t u : Tree} (h : t.bare = u.bare) : t.complete = u.complete := by
  have bare (t : Tree) : t.bare.complete = t.complete := by
    induction t with
    | nil | missing => rfl
    | node id label child ih => simp only [Tree.bare, complete, ih]
  rw [← bare t, h, bare u]

theorem plain_child {id : NodeId} {label : Label} {child : Side → Tree}
    (h : (Tree.node id label child).plain = true) (side : Side) : (child side).plain = true := by
  simp only [plain, Bool.and_eq_true] at h
  cases side with
  | left => exact h.1.2
  | right => exact h.2

theorem plain_congr {id id' : NodeId} {label : Label} {f g : Side → Tree}
    (h : (Tree.node id label g).plain = true) (same : ∀ side, (f side).isNil = (g side).isNil)
    (below : ∀ side, (g side).plain = true → (f side).plain = true) :
    (Tree.node id' label f).plain = true := by
  simp only [plain, Bool.and_eq_true] at h ⊢
  rw [childless_congr same]
  exact ⟨⟨h.1.1, below .left h.1.2⟩, below .right h.2⟩

def reads (t : Tree) : List VarId :=
  t.leaves.filterMap fun o => o.bind fun o =>
    match o.atom with
    | .var v => some v
    | _ => none

theorem mem_reads {t : Tree} {x : VarId} :
    x ∈ t.reads ↔ ∃ id type, some ⟨id, type, .var x⟩ ∈ t.leaves := by
  constructor
  · intro mem
    obtain ⟨o, leaf, read⟩ := List.mem_filterMap.mp mem
    obtain ⟨⟨id, type, atom⟩, rfl, read⟩ := Option.bind_eq_some_iff.mp read
    cases atom <;> cases read
    exact ⟨id, type, leaf⟩
  · rintro ⟨id, type, leaf⟩
    exact List.mem_filterMap.mpr ⟨_, leaf, rfl⟩

end Tree

/-- Where there is nothing there is no tree. -/
instance : Zero Tree := ⟨.nil⟩

/-- What values look like. -/
def Interpretation.outlines : Interpretation Tree where
  int n := .ofAtom (.int n)
  float x := .ofAtom (.float x)
  call name args :=
    match args with
    | [l, r] => .node 0 { op := some (.ofName name) } (Tree.pair l r)
    | _ => .ofAtom .other
  tuple _ := .ofAtom .other

theorem Interpretation.outlines_call (name : String) {args : List Tree}
    (other : args.length ≠ 2) : outlines.call name args = .ofAtom .other := by
  simp only [outlines]
  split
  · exact absurd rfl other
  · rfl

namespace Program

variable {p : Program} {id : Nat} {t : Tree} {env : Env Tree}

theorem length_of_mapM {α β : Type} {f : α → Option β} {l : List α} {l' : List β}
    (h : l.mapM f = some l') : l'.length = l.length := by
  induction l generalizing l' with
  | nil =>
    cases h
    rfl
  | cons a l ih =>
    rw [List.mapM_cons] at h
    obtain ⟨b, -, h⟩ := Option.bind_eq_some_iff.mp h
    obtain ⟨bs, rest, h⟩ := Option.bind_eq_some_iff.mp h
    cases h
    rw [List.length_cons, List.length_cons, ih rest]

/-- The origin is a value of the program that expressions do not look into any further. -/
def Atomic (p : Program) (o : Option Origin) : Prop :=
  ∃ v, o = some (.ofValue v) ∧ p.values[v.id]? = some v ∧ v.isBinary = false

theorem WellFormed.eval?_outlines (wf : p.WellFormed) {v : Value} (found : p.values[id]? = some v)
    (atomic : v.isBinary = false) (sealed : Atom.ofKind v.kind = .other) :
    p.eval? .outlines env id = some (.ofAtom .other) := by
  have lt := (Array.getElem?_eq_some_iff.mp found).1
  have defined : (p.eval? .outlines env id).isSome := wf.isSome_eval? lt
  obtain ⟨x, hx⟩ := Option.isSome_iff_exists.mp defined
  have unfolded : p.eval? .outlines env id = _ := wf.eval?_eq found
  rw [hx] at unfolded ⊢
  obtain ⟨_, _, kind⟩ := v
  cases kind with
  | int | float | var => cases sealed
  | tuple elements =>
    obtain ⟨xs, -, eq⟩ := Option.map_eq_some_iff.mp unfolded.symm
    rw [← eq]
    rfl
  | call f args =>
    obtain ⟨name, -, unfolded⟩ := Option.bind_eq_some_iff.mp unfolded.symm
    obtain ⟨xs, values, eq⟩ := Option.map_eq_some_iff.mp unfolded
    have other : xs.length ≠ 2 := by
      rw [length_of_mapM values]
      simpa [Value.isBinary] using atomic
    rw [← eq, Interpretation.outlines_call name other]

/-- The outline of a tree is what it stands for where variables stand for themselves. -/
theorem evalTree_outlines (wf : p.WellFormed) (proper : t.proper = true) (plain : t.plain = true)
    (atomic : ∀ o ∈ t.leaves, p.Atomic o) (selves : ∀ x ∈ t.reads, env x = .ofAtom (.var x))
    (whole : t.complete = true) : p.evalTree .outlines env t = t.outline := by
  induction t with
  | nil => rfl
  | missing => simp [Tree.complete] at whole
  | node id label child ih =>
    by_cases leaf : Tree.childless child = true
    · obtain ⟨v, origin, found, notBinary⟩ := atomic label.origin (by simp [Tree.leaves, leaf])
      have noOp : label.op = none := by
        simp only [Tree.plain, leaf, Bool.and_eq_true] at plain
        simpa using plain.1.1
      have outline : (Tree.node id label child).outline = .ofAtom (Atom.ofKind v.kind) := by
        have children : (fun side => (child side).outline) = Tree.pair .nil .nil := by
          funext side
          rw [Tree.children_of_childless leaf side]
          cases side <;> rfl
        rw [Tree.outline, leaf, noOp, origin, children]
        rfl
      have sealed : Atom.ofKind v.kind = .other → p.eval? .outlines env v.id = _ :=
        wf.eval?_outlines found notBinary
      rw [outline, evalTree, Tree.eval_leaf leaf]
      obtain ⟨valueId, type, kind⟩ := v
      cases kind with
      | int | float =>
        simp [Label.eval, origin, Origin.ofValue, Atom.ofKind, Interpretation.outlines]
      | var x =>
        have read : x ∈ (Tree.node id label child).reads :=
          Tree.mem_reads.mpr ⟨valueId, type, by simp [Tree.leaves, leaf, origin, Origin.ofValue,
            Atom.ofKind]⟩
        simpa [Label.eval, origin, Origin.ofValue, Atom.ofKind] using selves x read
      | call | tuple =>
        simp [Label.eval, origin, Origin.ofValue, Atom.ofKind, other, sealed rfl]
    · have inner := Bool.eq_false_iff.mpr leaf
      have there := (Tree.operands_of_proper proper inner).2
      simp only [Tree.leaves_node inner, List.mem_append] at atomic
      simp only [Tree.reads, Tree.leaves_node inner, List.filterMap_append, List.mem_append] at selves
      simp only [Tree.complete, Bool.and_eq_true] at whole
      have left := ih .left (Tree.proper_child proper .left) (Tree.plain_child plain .left)
        (fun o mem => atomic o (.inl mem)) (fun x mem => selves x (.inl mem)) whole.1
      have right := ih .right (Tree.proper_child proper .right) (Tree.plain_child plain .right)
        (fun o mem => atomic o (.inr mem)) (fun x mem => selves x (.inr mem)) whole.2
      have isOp : label.op = some (.ofName label.opName) := by
        simp only [Tree.plain, inner, Bool.and_eq_true] at plain
        simpa using plain.1.1
      unfold evalTree at left right ⊢
      rw [Tree.eval_binary (there .left) (there .right), left, right, Tree.outline, inner, isOp]
      change Tree.node 0 _ _ = Tree.node 0 _ _
      congr 1
      funext side
      cases side <;> rfl

end Program

end SecureArith
