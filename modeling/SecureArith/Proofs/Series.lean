import SecureArith.Optimizer
import SecureArith.Proofs.Build
import SecureArith.Proofs.Ends.Work
import SecureArith.Proofs.Planted

set_option autoImplicit false

/-!
# Forests of bodies

A series registers a tree for each statement of a body. The nodes of the trees are made from values
of the program, and the trees have no nodes in common. On a well-formed program nothing fails.
-/

namespace SecureArith

theorem Value.cases_arity (v : Value) :
    (∃ func a, v.kind = .call func [a]) ∨ (∃ func a b, v.kind = .call func [a, b]) ∨
      ∀ func args, v.kind = .call func args → ¬ (args.length = 1 ∨ args.length = 2) := by
  obtain ⟨_, _, kind⟩ := v
  cases kind with
  | int | float | var | tuple => exact .inr (.inr nofun)
  | call func args =>
    match args with
    | [a] => exact .inl ⟨func, a, rfl⟩
    | [a, b] => exact .inr (.inl ⟨func, a, b, rfl⟩)
    | [] | _ :: _ :: _ :: _ =>
      refine .inr (.inr fun _ _ kind => ?_)
      cases kind
      simp

namespace Tree

/-- The nodes are made from values of the program, operations from calls of its callees. -/
def MadeFrom (p : Program) : Tree → Prop
  | .nil => True
  | .missing _ => False
  | .node _ label child =>
    (∃ v ∈ p.values, label.origin = some (.ofValue v)) ∧
      (if childless child then label.op = none
        else ∃ f ∈ p.funcs, label.op = some (.ofName f.name)) ∧
      ∀ side, (child side).MadeFrom p

theorem madeFrom_nil (p : Program) : MadeFrom p .nil := trivial

theorem madeFrom_leaf {p : Program} {v : Value} (mem : v ∈ p.values) (i : NodeId) :
    MadeFrom p (.node i { origin := some (.ofValue v) } (pair .nil .nil)) := by
  refine ⟨⟨v, mem, rfl⟩, rfl, fun side => ?_⟩
  cases side <;> trivial

theorem madeFrom_call {p : Program} {v : Value} {f : Func} {l r : Tree} (mem : v ∈ p.values)
    (callee : f ∈ p.funcs) (i : NodeId) (there : l.isNil = false) (left : l.MadeFrom p)
    (right : r.MadeFrom p) :
    MadeFrom p (.node i { origin := some (.ofValue v), memo := v.type, op := some (.ofName f.name) }
      (pair l r)) := by
  have inner : ¬ childless (pair l r) = true := by simp [childless, there]
  refine ⟨⟨v, mem, rfl⟩, ?_, fun side => ?_⟩
  · rw [if_neg inner]
    exact ⟨f, callee, rfl⟩
  · cases side with
    | left => exact left
    | right => exact right

end Tree

namespace Program

/-- The expression of the value ends within the depth. -/
def EndsWithin (p : Program) (depth : Nat) (id : ValueId) : Prop :=
  ∃ rank : Nat → Nat, p.WellFormed ∧ p.RankedBy rank ∧ id < p.values.size ∧ rank id < depth

variable {p : Program} {id a : Nat} {v : Value} {depth : Nat}

theorem EndsWithin.operand (h : p.EndsWithin (depth + 1) id) (found : p.values[id]? = some v)
    (mem : a ∈ v.operands) : p.EndsWithin depth a := by
  obtain ⟨rank, wf, ranked, -, deep⟩ := h
  refine ⟨rank, wf, ranked, wf.closed id v found a mem, ?_⟩
  have := ranked id v found a mem
  omega

theorem EndsWithin.exists_value (h : p.EndsWithin depth id) : ∃ v, p.values[id]? = some v := by
  obtain ⟨-, -, -, lt, -⟩ := h
  exact ⟨_, Array.getElem?_eq_getElem lt⟩

theorem EndsWithin.exists_callee {func : FuncId} {args : List ValueId} (h : p.EndsWithin depth id)
    (found : p.values[id]? = some v) (kind : v.kind = .call func args) :
    ∃ f, p.funcs[func]? = some f := by
  obtain ⟨-, wf, -⟩ := h
  exact wf.callees id v func args found kind

theorem WellFormed.endsWithin (wf : p.WellFormed) (lt : id < p.values.size) :
    p.EndsWithin p.values.size id := by
  obtain ⟨rank, ranked, bounded⟩ := wf.exists_rank
  exact ⟨rank, wf, ranked, lt, bounded id lt⟩

end Program

namespace Store

variable {p : Program} {s s₀ : Store} {id : Nat} {v : Value} {depth : Nat}

theorem ends_operatorOf_any {func : FuncId} {ok : Operator → Store → Prop}
    {failed : Failure → Store → Prop} (h : ∀ f, p.funcs[func]? = some f → ok (.ofName f.name) s)
    (absent : p.funcs[func]? = none → failed .outOfRange s) :
    Ends (operatorOf p func) s ok failed := by
  cases found : p.funcs[func]? with
  | none =>
    rw [operatorOf, Program.funcName?, found]
    exact absent found
  | some f => exact ends_operatorOf found (h f found)

theorem Spans.exists_origin {q : Option NodeId} {t : Tree} {n : Node} (h : s.Spans q t)
    (made : t.MadeFrom p) (mem : id ∈ t.preorder) (found : s.get? id = some n) :
    ∃ v ∈ p.values, n.origin = some (.ofValue v) := by
  induction h with
  | nil => exact absurd mem List.not_mem_nil
  | @node id' n' child found' _ ih =>
    simp only [Tree.preorder, List.mem_cons, List.mem_append] at mem
    rcases mem with rfl | mem | mem
    · cases found.symm.trans found'
      exact made.1
    · exact ih .left (made.2.2 .left) mem
    · exact ih .right (made.2.2 .right) mem

section Equations

variable {func : FuncId} {a b : ValueId}

theorem buildTo_unary (found : p.values[id]? = some v) (kind : v.kind = .call func [a])
    (depth : Nat) :
    buildTo p (depth + 1) id = (do
      let op ← operatorOf p func
      let left ← buildTo p depth a
      appendCall v op left none) := by
  rw [buildTo, valueOf, found, pure_bind, kind]
  rfl

theorem buildTo_binary (found : p.values[id]? = some v) (kind : v.kind = .call func [a, b])
    (depth : Nat) :
    buildTo p (depth + 1) id = (do
      let op ← operatorOf p func
      let left ← buildTo p depth a
      let right ← some <$> buildTo p depth b
      appendCall v op left right) := by
  rw [buildTo, valueOf, found, pure_bind, kind]
  rfl

theorem buildTo_leaf (found : p.values[id]? = some v)
    (other : ∀ func args, v.kind = .call func args → ¬ (args.length = 1 ∨ args.length = 2))
    (depth : Nat) :
    buildTo p (depth + 1) id = append { origin := some (.ofValue v) } := by
  rw [buildTo, valueOf, found, pure_bind]
  obtain ⟨_, _, kind⟩ := v
  cases kind with
  | int | float | var | tuple => rfl
  | call func args => exact if_neg (other func args rfl)

end Equations

/-- A new tree is made from values of the program. -/
theorem ends_buildTo :
    Ends (buildTo p depth id) s
      (fun root s' => ∃ t, t.MadeFrom p ∧ s'.Owned (some root) t ∧ s.Turns .nil s' t)
      fun _ _ => ¬ p.EndsWithin depth id := by
  induction depth generalizing s id with
  | zero =>
    rintro ⟨rank, -, -, -, deep⟩
    exact absurd deep (Nat.not_lt_zero _)
  | succ depth ih =>
    cases found : p.values[id]? with
    | none =>
      rw [buildTo, valueOf, found]
      intro within
      obtain ⟨v, there⟩ := within.exists_value
      cases found.symm.trans there
    | some v =>
      have mem : v ∈ p.values := Array.mem_of_getElem? found
      have operand (a : ValueId) (mem : a ∈ v.operands) (within : ¬ p.EndsWithin depth a) :
          ¬ p.EndsWithin (depth + 1) id := fun h => within (h.operand found mem)
      have callee {func : FuncId} {args : List ValueId} (kind : v.kind = .call func args)
          (absent : p.funcs[func]? = none) : ¬ p.EndsWithin (depth + 1) id := by
        intro within
        obtain ⟨f, callee⟩ := within.exists_callee found kind
        cases absent.symm.trans callee
      rcases v.cases_arity with ⟨func, a, kind⟩ | ⟨func, a, b, kind⟩ | other
      · have unary : v.operands = [a] := by simp [Value.operands, kind]
        rw [buildTo_unary found kind, Ends.bind_iff]
        apply ends_operatorOf_any _ (callee kind)
        intro f callee
        rw [Ends.bind_iff]
        refine ih.imp ?_ fun _ _ => operand a (by simp [unary])
        rintro i s₁ ⟨l, made, owned, turns⟩
        have none : s.Turns .nil s₁ .nil :=
          ⟨turns.grows, turns.frame, fun _ mem => absurd mem List.not_mem_nil⟩
        exact ends_append_new owned (owned_nil s₁) turns none (fun _ _ => List.not_mem_nil)
          fun k s' owned' turns' _ => ⟨_, Tree.madeFrom_call mem (Array.mem_of_getElem? callee) k
            owned.spans.isNil_eq made (Tree.madeFrom_nil p), owned', turns'⟩
      · have binary : v.operands = [a, b] := by simp [Value.operands, kind]
        rw [buildTo_binary found kind, Ends.bind_iff]
        apply ends_operatorOf_any _ (callee kind)
        intro f callee
        rw [Ends.bind_iff]
        refine ih.imp ?_ fun _ _ => operand a (by simp [binary])
        rintro i s₁ ⟨l, madeLeft, ownedLeft, turnsLeft⟩
        rw [Ends.bind_iff, Ends.map_iff]
        refine ih.imp ?_ fun _ _ => operand b (by simp [binary])
        rintro j s₂ ⟨r, madeRight, ownedRight, turnsRight⟩
        obtain ⟨turnsLeft', turnsRight'⟩ := turnsLeft.nil_trans turnsRight
        exact ends_append_new (turnsRight.keeps_old ownedLeft) ownedRight turnsLeft' turnsRight'
          (turnsRight.apart_of_new ownedLeft.spans) fun k s' owned turns _ =>
            ⟨_, Tree.madeFrom_call mem (Array.mem_of_getElem? callee) k
              ownedLeft.spans.isNil_eq madeLeft madeRight, owned, turns⟩
      · rw [buildTo_leaf found other]
        exact ends_append_new (owned_nil s) (owned_nil s) (.refl _ _) (.refl _ _)
          (fun _ _ => List.not_mem_nil)
          fun i s' owned turns _ => ⟨_, Tree.madeFrom_leaf mem i, owned, turns⟩

end Store

namespace Work

variable {p : Program} {b : Bench}

theorem ends_buildSeries {body : List Instruction} (program : b.program = p)
    (planted : b.forest.Planted (Tree.MadeFrom p)) :
    Ends (buildSeries body) b (fun _ b' => b'.program = p ∧
        b'.forest.Planted (Tree.MadeFrom p))
      fun _ _ => ¬ (p.WellFormed ∧ ∀ i ∈ body, i.value < p.values.size) := by
  induction body generalizing b with
  | nil => exact ⟨program, planted⟩
  | cons i rest ih =>
    rw [buildSeries, List.forM, Ends.bind_iff, Ends.bind_iff, Ends.get_iff, Ends.bind_iff,
      ends_onStore, program]
    refine Store.ends_buildTo.imp ?_ ?_
    · rintro root s ⟨t, made, owned, turns⟩
      rw [register, Ends.modify_iff]
      refine (ih ?_ ?_).imp (fun _ _ h => h) fun _ _ fails => ?_
      · exact program
      · exact planted.add made owned turns _
      · exact fun h => fails ⟨h.1, fun j mem => h.2 j (List.mem_cons_of_mem _ mem)⟩
    · intro _ _ fails h
      exact fails (h.1.endsWithin (h.2 i List.mem_cons_self))

end Work

end SecureArith
