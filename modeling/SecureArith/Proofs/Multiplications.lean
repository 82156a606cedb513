import Mathlib.Algebra.Order.BigOperators.Group.List
import SecureArith.Proofs.Remaking

set_option autoImplicit false

/-!
# Multiplications of bodies

A value that is computed anew takes no more multiplications than the old one does when the
definitions of the variables that it reads are written in. So the optimizer adds multiplications to
a body only by copying the definitions of variables into the statements that it computes anew.
-/

namespace SecureArith

namespace Program

variable {p q : Program} {id : Nat} {reads reads' : Env Nat} {t : Tree}

/-- The multiplications of a value with all that it is computed from written out, where the read of
a variable takes as many as `reads` says. -/
def muls (p : Program) (reads : Env Nat) (id : ValueId) : Nat := (p.eval? .muls reads id).getD 0

/-- The multiplications of each statement with the definitions of variables written in. -/
def mulsUnfolded (p : Program) : Env Nat → List Instruction → List Nat
  | _, [] => []
  | reads, i :: rest =>
    p.muls reads i.value :: p.mulsUnfolded (p.definitionsAfter .muls reads i) rest

def bodyMuls (p : Program) (body : List Instruction) : Nat :=
  (body.map fun i => p.muls (fun _ => 0) i.value).sum

/-- The multiplications that come with the definitions of variables, where these are written into
the statements whose values are other ones in the new body. -/
def copiedMuls (p : Program) : Env Nat → List Instruction → List Instruction → Nat
  | reads, i :: rest, j :: rest' =>
    (if j.value = i.value then 0 else p.muls reads i.value - p.muls (fun _ => 0) i.value) +
      p.copiedMuls (p.definitionsAfter .muls reads i) rest rest'
  | _, _, _ => 0

theorem WellFormed.eval?_muls (wf : p.WellFormed) (lt : id < p.values.size) :
    p.eval? .muls reads id = some (p.muls reads id) := by
  have defined : (p.eval? .muls reads id).isSome := wf.isSome_eval? lt
  obtain ⟨n, eq⟩ := Option.isSome_iff_exists.mp defined
  rw [muls, eq]
  rfl

theorem WellFormed.mapM_muls (wf : p.WellFormed) {args : List ValueId}
    (inside : ∀ a : Nat, a ∈ args → a < p.values.size) (reads : Env Nat) :
    args.mapM (p.eval? .muls reads) = some (args.map (p.muls reads)) := by
  induction args with
  | nil => rfl
  | cons a rest ih =>
    rw [List.mapM_cons, wf.eval?_muls (inside a List.mem_cons_self),
      ih fun b mem => inside b (List.mem_cons_of_mem a mem)]
    rfl

def ownMuls (p : Program) (v : Value) : Nat :=
  match v.kind with
  | .call func _ => if p.funcName? func = some Operator.mul.name then 1 else 0
  | _ => 0

theorem WellFormed.muls_read (wf : p.WellFormed) {v : Value} {x : VarId}
    (found : p.values[id]? = some v) (kind : v.kind = .var x) : p.muls reads id = reads x := by
  rw [muls, wf.eval?_eq found, evalWith, kind]
  rfl

theorem WellFormed.muls_eq (wf : p.WellFormed) {v : Value} (found : p.values[id]? = some v)
    (notRead : v.isRead = false) :
    p.muls reads id = p.ownMuls v + (v.operands.map (p.muls reads)).sum := by
  have inside := wf.closed id v found
  have callee := wf.callees id v
  rw [muls, wf.eval?_eq found, evalWith, ownMuls]
  obtain ⟨_, _, kind⟩ := v
  cases kind with
  | int | float => rfl
  | var => cases notRead
  | tuple elements =>
    have values := wf.mapM_muls inside reads
    simp only [Value.operands] at values
    simp only [values, Option.map_some, Option.getD_some, Nat.zero_add]
    rfl
  | call func args =>
    obtain ⟨f, callee⟩ := callee func args found rfl
    have values := wf.mapM_muls inside reads
    simp only [Value.operands] at values
    simp only [funcName?, callee, Option.map_some, Option.bind_some, values, Option.getD_some,
      Option.some.injEq]
    rfl

theorem WellFormed.muls_mono (wf : p.WellFormed) (le : ∀ x, reads x ≤ reads' x) (id : Nat) :
    p.muls reads id ≤ p.muls reads' id := by
  obtain ⟨rank, ranked⟩ := wf.acyclic
  induction n : rank id using Nat.strong_induction_on generalizing id with
  | _ n ih =>
    cases found : p.values[id]? with
    | none =>
      rw [muls, eval?, evalTo?_none _ found]
      exact Nat.zero_le _
    | some v =>
      cases read : v.isRead with
      | false =>
        rw [wf.muls_eq found read, wf.muls_eq found read]
        refine Nat.add_le_add_left (List.sum_le_sum fun a mem => ?_) _
        exact ih (rank a) (n ▸ ranked id v found a mem) a rfl
      | true =>
        obtain ⟨_, _, kind⟩ := v
        cases kind with
        | int | float | call | tuple => cases read
        | var x =>
          rw [wf.muls_read found rfl, wf.muls_read found rfl]
          exact le x

theorem Extends.muls_eq (ext : p.Extends q) (wf : p.WellFormed) (lt : id < p.values.size) :
    q.muls reads id = p.muls reads id := by
  rw [muls, muls, ext.eval?_eq wf lt]

theorem Shows.muls_eq (wf : p.WellFormed) (h : p.Shows id t) :
    p.evalTree .muls reads t = p.muls reads id := by
  rw [muls, h.eval?_eq wf]
  rfl

/-- The reads of variables with trees take at least what the trees take. -/
def Covers (p : Program) (reads : Env Nat) (trees : VarId → Option Tree) : Prop :=
  ∀ v t, trees v = some t → t.isNil = false ∧ p.evalTree .muls (fun _ => 0) t ≤ reads v

variable {trees : VarId → Option Tree}

theorem WellFormed.evalLabel_mono (wf : p.WellFormed) (l : Label) :
    l.eval .muls (fun _ => 0) (p.other .muls fun _ => 0) ≤
      l.eval .muls reads (p.other .muls reads) := by
  unfold Label.eval
  split
  · exact Nat.le_refl _
  · exact Nat.le_refl _
  · exact Nat.zero_le _
  · exact wf.muls_mono (fun _ => Nat.zero_le _) _
  · exact Nat.le_refl _

theorem WellFormed.evalTree_mono (wf : p.WellFormed) (t : Tree) :
    p.evalTree .muls (fun _ => 0) t ≤ p.evalTree .muls reads t := by
  unfold evalTree
  induction t with
  | nil | missing => exact Nat.le_refl _
  | node id label child ih =>
    by_cases leaf : Tree.childless child = true
    · rw [Tree.eval_leaf leaf, Tree.eval_leaf leaf]
      exact wf.evalLabel_mono label
    · have inner := Bool.eq_false_iff.mpr leaf
      rw [Tree.eval_muls rfl inner .left, Tree.eval_muls rfl inner .left]
      exact Nat.add_le_add (Nat.add_le_add_left (ih .left) _) (ih .right)

/-- An expanded tree takes no more than the tree with its reads. -/
theorem Covers.evalTree_le (wf : p.WellFormed) (covers : p.Covers reads trees) (t : Tree) :
    p.evalTree .muls (fun _ => 0) (t.expandWith trees) ≤ p.evalTree .muls reads t := by
  have present (v : VarId) (u : Tree) (found : trees v = some u) := (covers v u found).1
  induction t with
  | nil | missing => exact Nat.le_refl _
  | node id label child ih =>
    rw [Tree.expandWith]
    split
    · exact wf.evalTree_mono _
    · split
      · rename_i leaf
        rw [evalTree, Tree.eval_eq_of_bare (Tree.bare_marked _)]
        cases tree : label.var?.bind trees with
        | none => exact wf.evalTree_mono _
        | some u =>
          obtain ⟨v, read, found⟩ := Option.bind_eq_some_iff.mp tree
          rw [Option.elim, Tree.eval_eq_of_bare (Tree.bare_withId _ _), evalTree,
            Tree.eval_leaf leaf, Label.eval_of_var? read]
          exact (covers v u found).2
      · rename_i inner
        have inner := Bool.eq_false_iff.mpr inner
        have inner' := (Tree.childless_congr fun side =>
          Tree.isNil_expandWith present (child side)).trans inner
        unfold evalTree at ih ⊢
        rw [Tree.eval_eq_of_bare (Tree.bare_marked _), Tree.eval_muls rfl inner' .left,
          Tree.eval_muls rfl inner .left]
        exact Nat.add_le_add (Nat.add_le_add_left (ih .left) _) (ih .right)

variable {s : Settings} {new : Nat} {tree : Option Tree} {i : Instruction}

/-- A value in the place of another takes no more than that with definitions written in, and neither
does its tree. -/
theorem Remade.muls_le (wf : p.WellFormed) (wf' : q.WellFormed) (ext : p.Extends q)
    (covers : p.Covers reads trees) (h : p.Remade s .muls trees q id new tree) :
    q.muls (fun _ => 0) new ≤ p.muls reads id ∧
      ∀ t, tree = some t → p.evalTree .muls (fun _ => 0) t ≤ p.muls reads id := by
  have expanded {id : ValueId} {t e : Tree} (shows : p.Shows id t)
      (alike : e.bare = (t.expandWith trees).bare) :
      p.evalTree .muls (fun _ => 0) e ≤ p.muls reads id := by
    rw [evalTree, Tree.eval_eq_of_bare alike, ← shows.muls_eq wf]
    exact covers.evalTree_le wf t
  have self {id : Nat} {v : Value} (found : p.values[id]? = some v) :
      q.muls (fun _ => 0) id ≤ p.muls reads id := by
    rw [ext.muls_eq wf (Array.getElem?_eq_some_iff.mp found).1]
    exact wf.muls_mono (fun _ => Nat.zero_le _) id
  induction h with
  | atom found atomic shows alike =>
    refine ⟨self found, ?_⟩
    rintro _ ⟨⟩
    exact expanded shows alike
  | kept found binary shows alike transformed =>
    refine ⟨self found, ?_⟩
    rintro _ ⟨⟩
    exact Nat.le_trans (transformed.muls_le _ _ rfl) (expanded shows alike)
  | emitted found binary shows alike transformed there computes =>
    have fewer := Nat.le_trans (transformed.muls_le _ _ rfl) (expanded shows alike)
    refine ⟨?_, ?_⟩
    · rw [muls, computes fun _ => 0]
      exact fewer
    · rintro _ ⟨⟩
      exact fewer
  | same found => exact ⟨self found, by simp⟩
  | @again id new v w func parts found kind other operands made made_kind ih =>
    refine ⟨?_, by simp⟩
    have notRead {v : Value} {args : List ValueId} (kind : v.kind = .call func args) :
        v.isRead = false := by simp [Value.isRead, kind]
    rw [wf.muls_eq found (notRead kind), wf'.muls_eq made (notRead made_kind)]
    simp only [ownMuls, kind, made_kind, Value.operands, List.map_map, funcName?, ext.funcs_eq]
    exact Nat.add_le_add_left (List.sum_le_sum fun part mem => (ih part mem).1) _

theorem Covers.after (covers : p.Covers reads trees)
    (shape : tree = none ↔ p.treeless i.value = true)
    (there : ∀ t, tree = some t → t.isNil = false ∧
      p.evalTree .muls (fun _ => 0) t ≤ p.muls reads i.value) :
    p.Covers (p.definitionsAfter .muls reads i) (i.treesAfter trees tree) := by
  rw [definitionsAfter]
  cases tree with
  | none =>
    rw [if_pos (shape.mp rfl)]
    cases i <;> exact covers
  | some u =>
    rw [if_neg fun treeless => Option.some_ne_none u (shape.mpr treeless)]
    cases i with
    | ret | eval => exact covers
    | assign v id =>
      intro w t found
      by_cases same : w = v
      · subst same
        rw [Instruction.treesAfter, Function.update_self] at found
        rw [Instruction.after, Function.update_self]
        exact there t found
      · rw [Instruction.treesAfter, Function.update_of_ne same] at found
        rw [Instruction.after, Function.update_of_ne same]
        exact covers w t found

theorem RemadeAlong.muls_le {body body' : List Instruction} (wf : p.WellFormed)
    (wf' : q.WellFormed) (ext : p.Extends q) (covers : p.Covers reads trees)
    (inside : ∀ i ∈ body, i.value < p.values.size)
    (h : p.RemadeAlong s .muls q trees body body') :
    List.Forall₂ (fun n j => q.muls (fun _ => 0) j.value ≤ n) (p.mulsUnfolded reads body) body' ∧
      q.bodyMuls body' ≤ p.bodyMuls body + p.copiedMuls reads body body' := by
  induction h generalizing reads with
  | nil => exact ⟨.nil, Nat.zero_le _⟩
  | @cons trees i new tree rest rest' head tail ih =>
    obtain ⟨fewer, treeFewer⟩ := head.muls_le wf wf' ext covers
    have present (v : VarId) (u : Tree) (found : trees v = some u) := (covers v u found).1
    have covers' := covers.after head.treeless_iff fun t isTree =>
      ⟨(isTree ▸ head).isNil_eq present, treeFewer t isTree⟩
    obtain ⟨each, total⟩ := ih covers' fun j mem => inside j (List.mem_cons_of_mem i mem)
    have least : p.muls (fun _ => 0) i.value ≤ p.muls reads i.value :=
      wf.muls_mono (fun _ => Nat.zero_le _) _
    have same (unchanged : new = i.value) : q.muls (fun _ => 0) new = p.muls (fun _ => 0) i.value := by
      rw [unchanged]
      exact ext.muls_eq wf (inside i List.mem_cons_self)
    refine ⟨.cons (by simpa using fewer) each, ?_⟩
    rw [copiedMuls, Instruction.value_withValue]
    simp only [bodyMuls, List.map_cons, List.sum_cons, Instruction.value_withValue] at total ⊢
    split
    · rename_i unchanged
      rw [same unchanged]
      omega
    · omega

end Program

def Settings.factoring : Settings := ⟨true, false, false, false, false, []⟩

end SecureArith
