import Mathlib.Logic.Function.Basic
import SecureArith.Proofs.WellFormed

set_option autoImplicit false

/-!
# What programs compute

An `Interpretation` says what constants and callees stand for; callees are known by their names. A
value has a meaning in an environment, and a body runs through its instructions, each of which
yields a value and the environment that the next one sees.
-/

namespace SecureArith

universe u

abbrev Env (R : Type u) := VarId → R

structure Interpretation (R : Type u) where
  int : Int → R
  float : Double → R
  call : String → List R → R
  tuple : List R → R

variable {R : Type u} {I : Interpretation R} {env env' : Env R} {p q : Program} {id : Nat}

namespace Program

/-- The meaning of a value whose operands have the meanings that `operand` gives them. -/
def evalWith (I : Interpretation R) (env : Env R) (p : Program) (operand : ValueId → Option R)
    (v : Value) : Option R :=
  match v.kind with
  | .int n => some (I.int n)
  | .float x => some (I.float x)
  | .var x => some (env x)
  | .call f args => (p.funcName? f).bind fun name => (args.mapM operand).map (I.call name)
  | .tuple elements => (elements.mapM operand).map I.tuple

/-- The first number bounds the depth. -/
def evalTo? (I : Interpretation R) (env : Env R) (p : Program) : Nat → ValueId → Option R
  | 0, _ => none
  | depth + 1, id => p.values[id]?.bind (p.evalWith I env (evalTo? I env p depth))

/-- The meaning of a value. There is none where an index is not in its table. -/
def eval? (I : Interpretation R) (env : Env R) (p : Program) (id : ValueId) : Option R :=
  p.evalTo? I env p.values.size id

/-- The variables that a value reads, directly or through its operands, down to a depth. -/
def readsTo (p : Program) : Nat → ValueId → List VarId
  | 0, _ => []
  | depth + 1, id =>
    match p.values[id]? with
    | some ⟨_, _, .var v⟩ => [v]
    | some v => v.operands.flatMap (readsTo p depth)
    | none => []

def reads (p : Program) (id : ValueId) : List VarId := p.readsTo p.values.size id

end Program

/-- The environment after an instruction that yields a value. -/
def Instruction.after (i : Instruction) (env : Env R) (x : R) : Env R :=
  match i with
  | .assign v _ => Function.update env v x
  | _ => env

theorem Instruction.after_withValue (i : Instruction) (v : ValueId) (env : Env R) (x : R) :
    (i.withValue v).after env x = i.after env x := by
  cases i <;> rfl

namespace Program

/-- The values that the instructions of a body yield one after the other, each with the environment
that it leaves. -/
def trace? (I : Interpretation R) (p : Program) :
    Env R → List Instruction → Option (List (R × Env R))
  | _, [] => some []
  | env, i :: rest => (p.eval? I env i.value).bind fun x =>
    (trace? I p (i.after env x) rest).map ((x, i.after env x) :: ·)

def finalEnv? (I : Interpretation R) (p : Program) : Env R → List Instruction → Option (Env R)
  | env, [] => some env
  | env, i :: rest => (p.eval? I env i.value).bind fun x => finalEnv? I p (i.after env x) rest

theorem mapM_congr {α β : Type*} {f g : α → Option β} {l : List α} (same : ∀ a ∈ l, f a = g a) :
    l.mapM f = l.mapM g := by
  induction l with
  | nil => rfl
  | cons a l ih =>
    rw [List.mapM_cons, List.mapM_cons, same a List.mem_cons_self,
      ih fun b mem => same b (List.mem_cons_of_mem a mem)]

theorem isSome_mapM {α β : Type*} {f : α → Option β} {l : List α}
    (defined : ∀ a ∈ l, (f a).isSome) : (l.mapM f).isSome := by
  induction l with
  | nil => rfl
  | cons a l ih =>
    obtain ⟨x, hx⟩ := Option.isSome_iff_exists.mp (defined a List.mem_cons_self)
    obtain ⟨xs, hxs⟩ :=
      Option.isSome_iff_exists.mp (ih fun b mem => defined b (List.mem_cons_of_mem a mem))
    simp [List.mapM_cons, hx, hxs]

theorem evalTo?_succ (depth : Nat) {v : Value} (found : p.values[id]? = some v) :
    p.evalTo? I env (depth + 1) id = p.evalWith I env (p.evalTo? I env depth) v := by
  simp only [evalTo?, found, Option.bind_some]

theorem evalTo?_none (depth : Nat) (absent : p.values[id]? = none) :
    p.evalTo? I env depth id = none := by
  cases depth <;> simp [evalTo?, absent]

theorem evalWith_congr {f g : ValueId → Option R} {v : Value}
    (same : ∀ a ∈ v.operands, f a = g a) :
    p.evalWith I env f v = p.evalWith I env g v := by
  obtain ⟨_, _, kind⟩ := v
  cases kind with
  | int | float | var => rfl
  | call _ args =>
    have operands : args.mapM f = args.mapM g := mapM_congr same
    simp only [evalWith, operands]
  | tuple elements =>
    have operands : elements.mapM f = elements.mapM g := mapM_congr same
    simp only [evalWith, operands]

/-- Below its rank, the bound on the depth does not matter. -/
theorem evalTo?_eq_of_rank {rank : Nat → Nat} (ranked : p.RankedBy rank) {depth depth' : Nat}
    (enough : rank id < depth) (enough' : rank id < depth') :
    p.evalTo? I env depth id = p.evalTo? I env depth' id := by
  induction depth generalizing id depth' with
  | zero => omega
  | succ depth ih =>
    cases depth' with
    | zero => omega
    | succ depth' =>
      cases found : p.values[id]? with
      | none => rw [evalTo?_none _ found, evalTo?_none _ found]
      | some v =>
        rw [evalTo?_succ depth found, evalTo?_succ depth' found]
        refine evalWith_congr fun a mem => ?_
        have less := ranked id v found a mem
        exact ih (by omega) (by omega)

theorem WellFormed.eval?_eq (wf : p.WellFormed) {v : Value} (found : p.values[id]? = some v) :
    p.eval? I env id = p.evalWith I env (p.eval? I env) v := by
  obtain ⟨rank, ranked, bounded⟩ := wf.exists_rank
  have present : id < p.values.size := (Array.getElem?_eq_some_iff.mp found).1
  have enough := bounded id present
  rw [eval?, evalTo?_eq_of_rank ranked enough (Nat.lt_succ_of_lt enough), evalTo?_succ _ found]
  rfl

theorem WellFormed.isSome_eval? (wf : p.WellFormed) (lt : id < p.values.size) :
    (p.eval? I env id).isSome := by
  obtain ⟨rank, ranked⟩ := wf.acyclic
  induction n : rank id using Nat.strong_induction_on generalizing id with
  | _ n ih =>
    have found := Array.getElem?_eq_getElem lt
    have operand (a : Nat) (mem : a ∈ p.values[id].operands) : (p.eval? I env a).isSome :=
      ih (rank a) (n ▸ ranked id _ found a mem) (wf.closed id _ found a mem) rfl
    rw [wf.eval?_eq found]
    generalize read : p.values[id] = v at found operand
    obtain ⟨_, _, kind⟩ := v
    cases kind with
    | int | float | var => rfl
    | call f args =>
      obtain ⟨func, present⟩ := wf.callees id _ f args found rfl
      obtain ⟨xs, hxs⟩ := Option.isSome_iff_exists.mp (isSome_mapM operand)
      simp only [Value.operands] at hxs
      simp [evalWith, funcName?, present, hxs]
    | tuple elements =>
      obtain ⟨xs, hxs⟩ := Option.isSome_iff_exists.mp (isSome_mapM operand)
      simp only [Value.operands] at hxs
      simp [evalWith, hxs]

theorem WellFormed.isSome_trace? (wf : p.WellFormed) {body : List Instruction}
    (inside : ∀ i ∈ body, i.value < p.values.size) : (p.trace? I env body).isSome := by
  induction body generalizing env with
  | nil => rfl
  | cons i rest ih =>
    have defined : (p.eval? I env i.value).isSome := wf.isSome_eval? (inside i List.mem_cons_self)
    obtain ⟨x, yields⟩ := Option.isSome_iff_exists.mp defined
    have below : (p.trace? I (i.after env x) rest).isSome :=
      ih fun j mem => inside j (List.mem_cons_of_mem i mem)
    simpa [trace?, yields] using below

theorem Precedes.eval?_eq (h : p.Precedes q) (wf : p.WellFormed) (lt : id < p.values.size) :
    q.eval? I env id = p.eval? I env id := by
  obtain ⟨rank, ranked, bounded⟩ := wf.exists_rank
  have agree (depth id : Nat) (lt : id < p.values.size) :
      q.evalTo? I env depth id = p.evalTo? I env depth id := by
    induction depth generalizing id with
    | zero => rfl
    | succ depth ih =>
      have found := Array.getElem?_eq_getElem lt
      rw [evalTo?_succ depth found, evalTo?_succ depth ((h.kept id lt).trans found)]
      rw [evalWith_congr fun a mem => ih a (wf.closed id _ found a mem)]
      simp only [evalWith, funcName?, h.funcs_eq]
  have enough := bounded id lt
  rw [eval?, eval?, agree _ _ lt]
  exact evalTo?_eq_of_rank ranked (Nat.lt_of_lt_of_le enough h.grows) enough

theorem Extends.eval?_eq (ext : p.Extends q) (wf : p.WellFormed) (lt : id < p.values.size) :
    q.eval? I env id = p.eval? I env id :=
  ext.precedes.eval?_eq wf lt

theorem eval?_congr (same : ∀ x ∈ p.reads id, env x = env' x) :
    p.eval? I env id = p.eval? I env' id := by
  have go (depth id : Nat) (same : ∀ x ∈ p.readsTo depth id, env x = env' x) :
      p.evalTo? I env depth id = p.evalTo? I env' depth id := by
    induction depth generalizing id with
    | zero => rfl
    | succ depth ih =>
      cases found : p.values[id]? with
      | none => rw [evalTo?_none _ found, evalTo?_none _ found]
      | some v =>
        rw [evalTo?_succ depth found, evalTo?_succ depth found]
        obtain ⟨_, _, kind⟩ := v
        simp only [readsTo, found] at same
        cases kind with
        | int | float => rfl
        | var x => simp [evalWith, same x (by simp)]
        | call f args =>
          have below := mapM_congr (l := args) fun a mem => ih a fun x read =>
            same x (List.mem_flatMap.mpr ⟨a, mem, read⟩)
          simp only [evalWith, below]
        | tuple elements =>
          have below := mapM_congr (l := elements) fun a mem => ih a fun x read =>
            same x (List.mem_flatMap.mpr ⟨a, mem, read⟩)
          simp only [evalWith, below]
  exact go _ id same

theorem readsTo_congr {v : Value} {depth depth' : Nat} (found : p.values[id]? = some v)
    (found' : q.values[id]? = some v)
    (below : ∀ a ∈ v.operands, p.readsTo depth a = q.readsTo depth' a) :
    p.readsTo (depth + 1) id = q.readsTo (depth' + 1) id := by
  obtain ⟨_, _, kind⟩ := v
  simp only [readsTo, found, found']
  cases kind with
  | int | float | var => rfl
  | call f args => exact List.flatMap_congr below
  | tuple elements => exact List.flatMap_congr below

theorem readsTo_eq_of_rank {rank : Nat → Nat} (ranked : p.RankedBy rank) {depth depth' : Nat}
    (enough : rank id < depth) (enough' : rank id < depth') :
    p.readsTo depth id = p.readsTo depth' id := by
  induction depth generalizing id depth' with
  | zero => omega
  | succ depth ih =>
    obtain ⟨depth', rfl⟩ : ∃ k, depth' = k + 1 := ⟨depth' - 1, by omega⟩
    cases found : p.values[id]? with
    | none => simp only [readsTo, found]
    | some v =>
      refine readsTo_congr found found fun a mem => ?_
      have less := ranked id v found a mem
      exact ih (by omega) (by omega)

theorem WellFormed.mem_reads_of_operand (wf : p.WellFormed) {v : Value}
    (found : p.values[id]? = some v) {a : Nat} (mem : a ∈ v.operands) {x : VarId}
    (read : x ∈ p.reads a) : x ∈ p.reads id := by
  obtain ⟨rank, ranked, bounded⟩ := wf.exists_rank
  have bound := bounded id (Array.getElem?_eq_some_iff.mp found).1
  rw [reads, readsTo_eq_of_rank ranked bound (Nat.lt_succ_of_lt bound)]
  simp only [readsTo, found]
  obtain ⟨_, _, kind⟩ := v
  cases kind with
  | int | float | var => simp [Value.operands] at mem
  | call f args => exact List.mem_flatMap.mpr ⟨a, mem, read⟩
  | tuple elements => exact List.mem_flatMap.mpr ⟨a, mem, read⟩

theorem Precedes.reads_eq (h : p.Precedes q) (wf : p.WellFormed) (lt : id < p.values.size) :
    q.reads id = p.reads id := by
  obtain ⟨rank, ranked, bounded⟩ := wf.exists_rank
  have agree (depth id : Nat) (lt : id < p.values.size) :
      q.readsTo depth id = p.readsTo depth id := by
    induction depth generalizing id with
    | zero => rfl
    | succ depth ih =>
      have found := Array.getElem?_eq_getElem lt
      exact readsTo_congr ((h.kept id lt).trans found) found fun a mem =>
        ih a (wf.closed id _ found a mem)
  have enough := bounded id lt
  rw [reads, reads, agree _ _ lt]
  exact readsTo_eq_of_rank ranked (Nat.lt_of_lt_of_le enough h.grows) enough

end Program

end SecureArith
