import SecureArith.Proofs.Lowering
import SecureArith.Proofs.Meaning.Program

set_option autoImplicit false

/-!
# The texts of values

Where variables are declared every value has a text. It does not depend on the depth that bounds
the search for it, nor on values that are appended.
-/

namespace SecureArith

namespace Program

variable {p q : Program} {a id depth : Nat} {v : Value}

theorem WellFormed.isSome_renderTo? {rank : Nat → Nat} (wf : p.WellFormed) (declared : p.Declared)
    (ranked : p.RankedBy rank) (lt : a < p.values.size) (deep : rank a < depth) :
    (p.renderTo? depth a).isSome := by
  induction depth generalizing a with
  | zero => exact absurd deep (Nat.not_lt_zero _)
  | succ depth ih =>
    obtain ⟨v, found⟩ : ∃ v, p.values[a]? = some v := ⟨_, Array.getElem?_eq_getElem lt⟩
    have operand (x : Nat) (mem : x ∈ v.operands) : (p.renderTo? depth x).isSome := by
      have less := ranked a v found x mem
      exact ih (wf.closed a v found x mem) (by omega)
    rw [renderTo?, found]
    obtain ⟨_, _, kind⟩ := v
    cases kind with
    | int | float => rfl
    | var x =>
      have isVar := declared.reads a _ x found rfl
      simp [varName?, isVar]
    | call func args =>
      obtain ⟨f, callee⟩ := wf.callees a _ func args found rfl
      obtain ⟨texts, each⟩ := Option.isSome_iff_exists.mp (isSome_mapM operand)
      change args.mapM _ = _ at each
      simp [funcName?, callee, each]
    | tuple elements =>
      obtain ⟨texts, each⟩ := Option.isSome_iff_exists.mp (isSome_mapM operand)
      change elements.mapM _ = _ at each
      simp [each]

/-- Every value of a program with declared variables has a text. -/
theorem WellFormed.isSome_render? (wf : p.WellFormed) (declared : p.Declared)
    (lt : id < p.values.size) : (p.render? id).isSome := by
  obtain ⟨rank, ranked, bounded⟩ := wf.exists_rank
  exact wf.isSome_renderTo? declared ranked lt (bounded id lt)

theorem renderTo?_congr {n m : Nat} (found : p.values[id]? = some v)
    (found' : q.values[id]? = some v) (vars : q.vars = p.vars) (funcs : q.funcs = p.funcs)
    (same : ∀ a ∈ v.operands, q.renderTo? n a = p.renderTo? m a) :
    q.renderTo? (n + 1) id = p.renderTo? (m + 1) id := by
  rw [renderTo?, renderTo?, found, found']
  obtain ⟨_, _, kind⟩ := v
  cases kind with
  | int | float => rfl
  | var x =>
    change q.varName? x = p.varName? x
    rw [varName?, varName?, vars]
  | call func args =>
    have each : args.mapM (q.renderTo? n) = args.mapM (p.renderTo? m) := mapM_congr same
    simp only [Option.bind_eq_bind, Option.bind_some, each, funcName?, funcs]
  | tuple elements =>
    have each : elements.mapM (q.renderTo? n) = elements.mapM (p.renderTo? m) := mapM_congr same
    simp only [Option.bind_eq_bind, Option.bind_some, each]

theorem WellFormed.renderTo?_eq (wf : p.WellFormed) (lt : id < p.values.size)
    (deep : p.values.size ≤ depth) : p.renderTo? depth id = p.render? id :=
  wf.eq_of_depth (fun _ _ _ _ found same => renderTo?_congr found found rfl rfl same) lt deep

theorem Extends.render?_eq (ext : p.Extends q) (wf : p.WellFormed) (lt : id < p.values.size) :
    q.render? id = p.render? id := by
  have agree (depth id : Nat) (lt : id < p.values.size) :
      q.renderTo? depth id = p.renderTo? depth id := by
    induction depth generalizing id with
    | zero => rfl
    | succ depth ih =>
      have found := Array.getElem?_eq_getElem lt
      exact renderTo?_congr found ((ext.kept id lt).trans found) ext.vars_eq ext.funcs_eq
        fun a mem => ih a (wf.closed id _ found a mem)
  rw [render?, agree _ id lt, wf.renderTo?_eq lt ext.grows]

theorem WellFormed.render?_call {func : FuncId} {args : List ValueId} {type : Option TypeName}
    {name : String} (wf : p.WellFormed) (found : p.values[id]? = some ⟨id, type, .call func args⟩)
    (callee : p.funcName? func = some name) :
    p.render? id = (args.mapM p.render?).map fun texts =>
      "(" ++ " ".intercalate (name :: texts) ++ ")" := by
  have lt := (Array.getElem?_eq_some_iff.mp found).1
  rw [← wf.renderTo?_eq lt (Nat.le_succ _), renderTo?, found]
  simp only [Option.bind_eq_bind, Option.bind_some, callee]
  change (args.mapM p.render?).bind _ = _
  cases args.mapM p.render? <;> rfl

end Program

end SecureArith
