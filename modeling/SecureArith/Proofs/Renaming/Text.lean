import SecureArith.Proofs.Renaming.Chain
import SecureArith.Proofs.Rendering

set_option autoImplicit false

/-!
# Lines under other names

What a body reads like does not depend on the names of values, nor on any value that it does not
reach.
-/

namespace SecureArith

variable {ρ : Renaming}

namespace Program

variable {p q : Program} {a depth : Nat}

def bodyText? (p : Program) (body : List Instruction) : Option (List String) :=
  body.mapM p.instructionText?

theorem WellFormed.isSome_bodyText? {body : List Instruction} (wf : p.WellFormed)
    (declared : p.Declared) (inside : ∀ i ∈ body, i.value < p.values.size)
    (targets : ∀ i ∈ body, ∀ x : Nat, x ∈ i.target? → x < p.vars.size) :
    (p.bodyText? body).isSome := by
  apply isSome_mapM
  intro i mem
  have value : (p.render? i.value).isSome := wf.isSome_render? declared (inside i mem)
  obtain ⟨text, shown⟩ := Option.isSome_iff_exists.mp value
  cases i with
  | ret v => exact Option.isSome_map.trans value
  | assign x v =>
    have isVar : x < p.vars.size := targets _ mem x rfl
    change p.render? v = some text at shown
    simp [instructionText?, varName?, isVar, shown]
  | eval v => exact value

/-- Variables and callees are the same, and so are owned values up to their names. -/
structure Mirrors (ρ : Renaming) (p q : Program) : Prop where
  vars : q.vars = p.vars
  funcs : q.funcs = p.funcs
  values : ∀ a : Nat, ρ.owns a → q.values[ρ.name a]? = p.values[a]?.map (·.rename ρ)
  closed : ∀ (a : Nat) (v : Value), ρ.owns a → p.values[a]? = some v → ∀ x ∈ v.operands, ρ.owns x

theorem Renamed.mirrors {others : ValueId → Option Value} (h : p.Renamed ρ others q) :
    p.Mirrors ρ q :=
  ⟨h.vars_eq, h.funcs_eq, h.values, h.closed⟩

namespace Mirrors

theorem renderTo?_eq (h : p.Mirrors ρ q) (own : ρ.owns a) (depth : Nat) :
    q.renderTo? depth (ρ.name a) = p.renderTo? depth a := by
  induction depth generalizing a with
  | zero => rfl
  | succ depth ih =>
    rw [renderTo?, renderTo?, h.values a own]
    cases found : p.values[a]? with
    | none => rfl
    | some v =>
      have closed := h.closed a v own found
      obtain ⟨_, _, kind⟩ := v
      have each (l : List ValueId) (owns : ∀ x ∈ l, ρ.owns x) :
          (l.map ρ.name).mapM (q.renderTo? depth) = l.mapM (p.renderTo? depth) := by
        rw [mapM_map_eq (h := id) (k := p.renderTo? depth)]
        · simp
        · intro x mem
          rw [ih (owns x mem), Option.map_id]
          rfl
      cases kind with
      | int | float => rfl
      | var v =>
        change q.varName? v = p.varName? v
        rw [varName?, varName?, h.vars]
      | call func args =>
        simp only [Option.map_some, Value.rename, ValueKind.rename, Option.bind_eq_bind,
          Option.bind_some, each args closed, funcName?, h.funcs]
      | tuple elements =>
        simp only [Option.map_some, Value.rename, ValueKind.rename, Option.bind_eq_bind,
          Option.bind_some, each elements closed]

theorem render?_eq (h : p.Mirrors ρ q) (wf : p.WellFormed) (wf' : q.WellFormed) (own : ρ.owns a)
    (lt : a < p.values.size) : q.render? (ρ.name a) = p.render? a := by
  have found : p.values[a]? = some _ := Array.getElem?_eq_getElem lt
  have found' := h.values a own
  rw [found] at found'
  have lt' := (Array.getElem?_eq_some_iff.mp found').1
  rw [← wf.renderTo?_eq lt (Nat.le_max_left p.values.size q.values.size),
    ← wf'.renderTo?_eq lt' (Nat.le_max_right p.values.size q.values.size)]
  exact h.renderTo?_eq own _

theorem bodyText?_eq (h : p.Mirrors ρ q) (wf : p.WellFormed) (wf' : q.WellFormed)
    {body body' : List Instruction} (renamed : List.Forall₂ (Instruction.Renamed ρ) body body')
    (inside : ∀ i ∈ body, i.value < p.values.size) : q.bodyText? body' = p.bodyText? body := by
  unfold bodyText?
  induction renamed with
  | nil => rfl
  | @cons i j rest rest' head _ ih =>
    have text : q.instructionText? j = p.instructionText? i := by
      have value := h.render?_eq wf wf' head.owns (inside i List.mem_cons_self)
      rw [head.eq]
      cases i with
      | ret v => exact congrArg (Option.map _) value
      | assign target v =>
        change q.varName? target >>= _ = p.varName? target >>= _
        rw [varName?, varName?, h.vars]
        congr 1
        funext name
        exact congrArg (· >>= _) value
      | eval v => exact value
    rw [List.mapM_cons, List.mapM_cons, text, ih fun k mem => inside k (List.mem_cons_of_mem i mem)]

end Mirrors

/-- A body reads the same where the values that it reaches are the same. -/
theorem bodyText?_congr (reached : ValueId → Prop) {body : List Instruction} (wf : p.WellFormed)
    (wf' : q.WellFormed) (vars : q.vars = p.vars) (funcs : q.funcs = p.funcs)
    (same : ∀ a : Nat, reached a → q.values[a]? = p.values[a]?)
    (closed : ∀ (a : Nat) (v : Value), reached a → p.values[a]? = some v →
      ∀ x ∈ v.operands, reached x)
    (inside : ∀ i ∈ body, reached i.value ∧ i.value < p.values.size) :
    q.bodyText? body = p.bodyText? body := by
  have mirrors : p.Mirrors ⟨reached, id⟩ q := by
    refine ⟨vars, funcs, fun a own => (same a own).trans ?_, closed⟩
    have unchanged (v : Value) : v.rename ⟨reached, id⟩ = v :=
      Value.rename_eq_self rfl fun _ _ => rfl
    simp only [unchanged, Option.map_id']
  refine mirrors.bodyText?_eq wf wf' ?_ fun i mem => (inside i mem).2
  exact List.forall₂_same.mpr fun i mem => Instruction.renamed_self (inside i mem).1 rfl

end Program

end SecureArith
