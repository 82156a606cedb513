import SecureArith.Proofs.Meaning.Tree

set_option autoImplicit false

/-!
# Trees of a program

The leaves of a tree may be values of a program. Such a tree has a meaning in every environment,
and it depends on the variables that its leaves read.
-/

namespace SecureArith

universe u

variable {R : Type u} [Zero R] {I : Interpretation R} {env env' : Env R} {p : Program} {id : Nat}
  {t u : Tree}

def Origin.reads (p : Program) (o : Origin) : List VarId :=
  match o.atom with
  | .var v => [v]
  | .other => p.reads o.id
  | _ => []

namespace Program

/-- What the values that expressions do not look into stand for. -/
def other (I : Interpretation R) (env : Env R) (p : Program) (id : Option ValueId) : R :=
  (id.bind (p.eval? I env)).getD 0

/-- The meaning of a tree whose leaves are values of the program. -/
def evalTree (I : Interpretation R) (env : Env R) (p : Program) (t : Tree) : R :=
  t.eval I env (p.other I env)

def readsOf (p : Program) (t : Tree) : List VarId :=
  t.leaves.flatMap fun o => o.elim [] (Origin.reads p)

/-- The origin is a value of the program. -/
def Holds (p : Program) (o : Option Origin) : Prop :=
  ∃ v, o = some (.ofValue v) ∧ p.values[v.id]? = some v

def Grounds (p : Program) (t : Tree) : Prop := ∀ o ∈ t.leaves, p.Holds o

theorem Grounds.mono (h : p.Grounds t) (sub : ∀ o ∈ u.leaves, o ∈ t.leaves) : p.Grounds u :=
  fun o mem => h o (sub o mem)

theorem Grounds.child {id : NodeId} {label : Label} {child : Side → Tree}
    (h : p.Grounds (.node id label child)) (inner : Tree.childless child = false) (side : Side) :
    p.Grounds (child side) := by
  apply h.mono
  rw [Tree.leaves_node inner]
  cases side with
  | left => exact fun o mem => List.mem_append_left _ mem
  | right => exact fun o mem => List.mem_append_right _ mem

theorem readsOf_subset (sub : ∀ o ∈ u.leaves, o ∈ t.leaves) :
    ∀ x ∈ p.readsOf u, x ∈ p.readsOf t := by
  intro x mem
  obtain ⟨o, leaf, read⟩ := List.mem_flatMap.mp mem
  exact List.mem_flatMap.mpr ⟨o, sub o leaf, read⟩

theorem readsOf_node {id : NodeId} {label : Label} {child : Side → Tree}
    (inner : Tree.childless child = false) :
    p.readsOf (.node id label child) = p.readsOf (child .left) ++ p.readsOf (child .right) := by
  rw [readsOf, Tree.leaves_node inner, List.flatMap_append]
  rfl

theorem reads_eq_of_found {v : Value} (wf : p.WellFormed) (found : p.values[id]? = some v) :
    p.reads id = (Origin.ofValue v).reads p := by
  obtain ⟨n, size⟩ : ∃ n, p.values.size = n + 1 :=
    ⟨p.values.size - 1, by have := (Array.getElem?_eq_some_iff.mp found).1; omega⟩
  have same := wf.ids id v found
  obtain ⟨_, _, kind⟩ := v
  cases same
  cases kind with
  | int | float | var =>
    simp [Origin.reads, Origin.ofValue, Atom.ofKind, reads, readsTo, size, found, Value.operands]
  | call | tuple => rfl

theorem WellFormed.eval?_eq_label (wf : p.WellFormed) {v : Value} {label : Label}
    (found : p.values[id]? = some v) (origin : label.origin = some (.ofValue v)) :
    p.eval? I env id = some (label.eval I env (p.other I env)) := by
  have lt := (Array.getElem?_eq_some_iff.mp found).1
  have defined : (p.eval? I env id).isSome := wf.isSome_eval? lt
  obtain ⟨x, hx⟩ := Option.isSome_iff_exists.mp defined
  have unfolded : p.eval? I env id = _ := wf.eval?_eq found
  have same := wf.ids id v found
  obtain ⟨_, _, kind⟩ := v
  cases same
  cases kind with
  | int | float | var => simpa [Label.eval, origin, Origin.ofValue, Atom.ofKind, evalWith] using unfolded
  | call | tuple => simp [Label.eval, origin, Origin.ofValue, Atom.ofKind, other, hx]

theorem Label.eval_congr {label : Label}
    (same : ∀ x ∈ label.origin.elim [] (Origin.reads p), env x = env' x) :
    label.eval I env (p.other I env) = label.eval I env' (p.other I env') := by
  cases origin : label.origin with
  | none => simp [Label.eval, origin, other]
  | some o =>
    obtain ⟨id, type, atom⟩ := o
    rw [origin] at same
    cases atom with
    | int | float => simp [Label.eval, origin]
    | var v => simpa [Label.eval, origin] using same v List.mem_cons_self
    | other =>
      have values : p.eval? I env id = p.eval? I env' id := eval?_congr same
      simp [Label.eval, origin, other, values]

theorem evalTree_congr (same : ∀ x ∈ p.readsOf t, env x = env' x) :
    p.evalTree I env t = p.evalTree I env' t := by
  induction t with
  | nil | missing => rfl
  | node id label child ih =>
    by_cases leaf : Tree.childless child = true
    · rw [evalTree, evalTree, Tree.eval_leaf leaf, Tree.eval_leaf leaf]
      refine Label.eval_congr fun x mem => same x ?_
      simpa [readsOf, Tree.leaves, leaf] using mem
    · rw [readsOf_node (Bool.eq_false_iff.mpr leaf)] at same
      have left := ih .left fun x mem => same x (List.mem_append_left _ mem)
      have right := ih .right fun x mem => same x (List.mem_append_right _ mem)
      unfold evalTree at left right ⊢
      rw [Tree.eval, Tree.eval, if_neg leaf, if_neg leaf, left, right]

end Program

end SecureArith
