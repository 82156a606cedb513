import SecureArith.Expr.Build
import SecureArith.Proofs.Copy
import SecureArith.Proofs.Meaning.Leaves

set_option autoImplicit false

/-!
# Building trees of values

`Program.Shows` relates a value to its trees with operations of two operands. Building never fails
on a well-formed program, and the tree that it appends shows the value and computes it.
-/

namespace SecureArith

theorem Value.exists_of_isBinary {v : Value} (binary : v.isBinary = true) :
    ∃ func a b, v.kind = .call func [a, b] := by
  obtain ⟨_, _, kind⟩ := v
  cases kind with
  | int | float | var | tuple => cases binary
  | call func args =>
    obtain ⟨a, b, rfl⟩ := List.length_eq_two.mp (by simpa [isBinary] using binary)
    exact ⟨func, a, b, rfl⟩

namespace Program

/-- The tree shows the value: calls of two operands are operations, all other values leaves. -/
inductive Shows (p : Program) : ValueId → Tree → Prop
  | leaf {id : ValueId} {v : Value} {label : Label} (i : NodeId) (found : p.values[id]? = some v)
      (atomic : v.isBinary = false) (origin : label.origin = some (.ofValue v))
      (plain : label.op = none) (fresh : v.isRead = true → label.expanded = false) :
      Shows p id (.node i label (Tree.pair .nil .nil))
  | call {id a b : ValueId} {v : Value} {func : FuncId} {f : Func} {l r : Tree} (i : NodeId)
      (found : p.values[id]? = some v) (kind : v.kind = .call func [a, b])
      (callee : p.funcs[func]? = some f) (left : Shows p a l) (right : Shows p b r) :
      Shows p id
        (.node i { origin := some (.ofValue v), memo := v.type, op := some (.ofName f.name) }
          (Tree.pair l r))

universe u

variable {R : Type u} [Zero R] {I : Interpretation R} {env : Env R} {p q : Program} {id : Nat}
  {t : Tree}

theorem Shows.isNil_eq (h : p.Shows id t) : t.isNil = false := by
  cases h <;> rfl

theorem Shows.childless_eq {a b : ValueId} {l r : Tree} (left : p.Shows a l)
    (_ : p.Shows b r) : Tree.childless (Tree.pair l r) = false := by
  simp [Tree.childless, left.isNil_eq]

theorem Shows.proper (h : p.Shows id t) : t.proper = true := by
  induction h with
  | leaf => rfl
  | call _ _ _ _ left right ihl ihr =>
    simp [Tree.proper, ihl, ihr, left.isNil_eq, right.isNil_eq]

theorem Shows.grounds (wf : p.WellFormed) (h : p.Shows id t) : p.Grounds t := by
  induction h with
  | leaf i found _ origin =>
    intro o mem
    obtain rfl : o = _ := List.mem_singleton.mp mem
    refine ⟨_, origin, ?_⟩
    rw [wf.ids _ _ found]
    exact found
  | call i found kind callee left right ihl ihr =>
    intro o mem
    rw [Tree.leaves_node (left.childless_eq right), Tree.pair_left, Tree.pair_right] at mem
    exact (List.mem_append.mp mem).elim (ihl o) (ihr o)

theorem Shows.eval?_eq (wf : p.WellFormed) (h : p.Shows id t) :
    p.eval? I env id = some (p.evalTree I env t) := by
  induction h with
  | leaf i found _ origin => exact wf.eval?_eq_label found origin
  | @call id a b v func f l r i found kind callee left right ihl ihr =>
    rw [wf.eval?_eq found, evalTree, Tree.eval_binary left.isNil_eq right.isNil_eq]
    unfold evalTree at ihl ihr
    simp [evalWith, kind, funcName?, callee, ihl, ihr, Label.opName]

theorem Extends.shows (ext : p.Extends q) (wf : p.WellFormed) (lt : id < p.values.size)
    (h : q.Shows id t) : p.Shows id t := by
  induction h with
  | leaf i found atomic origin plain fresh =>
    exact .leaf i ((ext.kept _ lt).symm.trans found) atomic origin plain fresh
  | call i found kind callee _ _ ihl ihr =>
    have found' := (ext.kept _ lt).symm.trans found
    have operand {a : Nat} (h : a ∈ [_, _]) : a < p.values.size :=
      wf.closed _ _ found' a (by simpa [Value.operands, kind] using h)
    exact .call i found' kind (ext.funcs_eq ▸ callee) (ihl (operand (by simp)))
      (ihr (operand (by simp)))

end Program

namespace Store

variable {p : Program} {s : Store} {id : Nat}

theorem ends_operatorOf {func : FuncId} {f : Func} {ok : Operator → Store → Prop}
    {failed : Failure → Store → Prop} (found : p.funcs[func]? = some f)
    (h : ok (.ofName f.name) s) : Ends (operatorOf p func) s ok failed := by
  rw [operatorOf, Program.funcName?, found]
  exact h

section Equations

variable {v : Value} {func : FuncId} {a b : ValueId}

theorem buildBinaryTo_call (found : p.values[id]? = some v) (kind : v.kind = .call func [a, b])
    (depth : Nat) :
    buildBinaryTo p (depth + 1) id = (do
      let op ← operatorOf p func
      let left ← buildBinaryTo p depth a
      let right ← buildBinaryTo p depth b
      appendCall v op left (some right)) := by
  rw [buildBinaryTo, valueOf, found, pure_bind, kind]
  rfl

theorem buildBinaryTo_leaf (found : p.values[id]? = some v) (atomic : v.isBinary = false)
    (depth : Nat) : buildBinaryTo p (depth + 1) id =
      append { origin := some (.ofValue v), expanded := !v.isRead } := by
  rw [buildBinaryTo, valueOf, found, pure_bind]
  obtain ⟨_, _, kind⟩ := v
  cases kind with
  | int | float | var | tuple => rfl
  | call func args => exact if_neg (by simpa [Value.isBinary] using atomic)

end Equations

theorem ends_buildBinaryTo {rank : Nat → Nat} {depth : Nat} (wf : p.WellFormed)
    (ranked : p.RankedBy rank) (lt : id < p.values.size) (deep : rank id < depth) :
    Ends (buildBinaryTo p depth id) s
      (fun root s' => ∃ t, p.Shows id t ∧ s'.Owned (some root) t ∧ s.Turns .nil s' t)
      fun _ _ => False := by
  induction depth generalizing s id with
  | zero => omega
  | succ depth ih =>
    obtain ⟨v, found⟩ : ∃ v, p.values[id]? = some v := ⟨_, Array.getElem?_eq_getElem lt⟩
    have operand (a : Nat) (mem : a ∈ v.operands) : a < p.values.size ∧ rank a < depth :=
      ⟨wf.closed id v found a mem, by have := ranked id v found a mem; omega⟩
    cases binary : v.isBinary with
    | true =>
      obtain ⟨func, a, b, kind⟩ := Value.exists_of_isBinary binary
      obtain ⟨f, callee⟩ := wf.callees id v func _ found kind
      have left := operand a (by simp [Value.operands, kind])
      have right := operand b (by simp [Value.operands, kind])
      rw [buildBinaryTo_call found kind, Ends.bind_iff]
      refine ends_operatorOf callee ?_
      rw [Ends.bind_iff]
      refine (ih left.1 left.2).imp ?_ fun _ _ h => h
      rintro i s₁ ⟨l, showsLeft, ownedLeft, turnsLeft⟩
      rw [Ends.bind_iff]
      refine (ih right.1 right.2).imp ?_ fun _ _ h => h
      rintro j s₂ ⟨r, showsRight, ownedRight, turnsRight⟩
      obtain ⟨turnsLeft', turnsRight'⟩ := turnsLeft.nil_trans turnsRight
      exact ends_append_new (turnsRight.keeps_old ownedLeft) ownedRight turnsLeft' turnsRight'
        (turnsRight.apart_of_new ownedLeft.spans)
        fun k s' owned turns _ =>
          ⟨_, .call k found kind callee showsLeft showsRight, owned, turns⟩
    | false =>
      rw [buildBinaryTo_leaf found binary]
      exact ends_append_new (owned_nil s) (owned_nil s) (.refl _ _) (.refl _ _)
        (fun _ mem => absurd mem List.not_mem_nil)
        fun i s' owned turns _ => ⟨_, .leaf i found binary rfl rfl (by simp), owned, turns⟩

theorem ends_buildBinary (wf : p.WellFormed) (lt : id < p.values.size) :
    Ends (buildBinary p id) s
      (fun root s' => ∃ t, p.Shows id t ∧ s'.Owned (some root) t ∧ s.Turns .nil s' t)
      fun _ _ => False := by
  obtain ⟨rank, ranked, bounded⟩ := wf.exists_rank
  exact ends_buildBinaryTo wf ranked lt (bounded id lt)

end Store

end SecureArith
