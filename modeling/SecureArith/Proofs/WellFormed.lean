import Mathlib.Data.Finset.Card
import Mathlib.Data.Finset.Range
import Mathlib.Data.List.Forall2
import SecureArith.Program.Text

set_option autoImplicit false

/-!
# Well-formed programs

In a well-formed program all indices are in their tables, no value is among its own operands, how
ever far down, and an operator is implemented by a callee of its name. `Extends` says that values
were appended and nothing else happened.
-/

namespace SecureArith

theorem mem_of_lookup {α β : Type} [DecidableEq α] {l : List (α × β)} {key : α} {b : β}
    (found : l.lookup key = some b) : (key, b) ∈ l := by
  obtain ⟨before, after, rfl, -⟩ := List.lookup_eq_some_iff.mp found
  simp

theorem exists_of_mem_left {α β : Type} {R : α → β → Prop} {l : List α} {l' : List β}
    (h : List.Forall₂ R l l') {a : α} (mem : a ∈ l) : ∃ b ∈ l', R a b := by
  induction h with
  | nil => exact absurd mem List.not_mem_nil
  | cons head _ ih =>
    rcases List.mem_cons.mp mem with rfl | mem
    · exact ⟨_, List.mem_cons_self, head⟩
    · obtain ⟨b, inside, related⟩ := ih mem
      exact ⟨b, List.mem_cons_of_mem _ inside, related⟩

theorem exists_of_mem_right {α β : Type} {R : α → β → Prop} {l : List α} {l' : List β}
    (h : List.Forall₂ R l l') {b : β} (mem : b ∈ l') : ∃ a ∈ l, R a b :=
  exists_of_mem_left (R := fun b a => R a b) (List.Forall₂.flip h) mem

theorem forall₂_imp_of_mem {α β : Type} {R S : α → β → Prop} {l : List α} {l' : List β}
    (h : List.Forall₂ R l l') (imp : ∀ a ∈ l, ∀ b, R a b → S a b) : List.Forall₂ S l l' := by
  induction h with
  | nil => exact .nil
  | @cons a b _ _ head _ ih =>
    exact .cons (imp a List.mem_cons_self b head) (ih fun a mem => imp a (List.mem_cons_of_mem _ mem))

namespace Program

variable {p q r : Program} {id : Nat}

/-- The rank of a value is larger than the ranks of its operands. -/
def RankedBy (p : Program) (rank : Nat → Nat) : Prop :=
  ∀ (id : Nat) (v : Value), p.values[id]? = some v → ∀ a ∈ v.operands, rank a < rank id

structure WellFormed (p : Program) : Prop where
  ids : ∀ (id : Nat) (v : Value), p.values[id]? = some v → v.id = id
  closed : ∀ (id : Nat) (v : Value), p.values[id]? = some v →
    ∀ a : Nat, a ∈ v.operands → a < p.values.size
  acyclic : ∃ rank, p.RankedBy rank
  callees : ∀ (id : Nat) (v : Value) (func : FuncId) (args : List ValueId),
    p.values[id]? = some v → v.kind = .call func args → ∃ f, p.funcs[func]? = some f
  operators : ∀ (sig : Signature) (func : FuncId), (sig, func) ∈ p.operators →
    ∃ f, p.funcs[func]? = some f ∧ f.name = sig.operator

/-- A helper is a callee of its name. -/
def NamesHelpers (p : Program) : Prop :=
  ∀ (name : String) (func : FuncId), (name, func) ∈ p.helpers →
    ∃ f, p.funcs[func]? = some f ∧ f.name = name

/-- Ranks can be taken smaller than the table is long: count the values of smaller rank. -/
theorem WellFormed.exists_rank (wf : p.WellFormed) :
    ∃ rank, p.RankedBy rank ∧ ∀ id < p.values.size, rank id < p.values.size := by
  obtain ⟨rank, ranked⟩ := wf.acyclic
  let below (id : Nat) := (Finset.range p.values.size).filter fun j => rank j < rank id
  refine ⟨fun id => (below id).card, fun id v found a mem => ?_, fun id lt => ?_⟩
  · have less : rank a < rank id := ranked id v found a mem
    apply Finset.card_lt_card
    refine (Finset.ssubset_iff_of_subset fun j hj => ?_).mpr ⟨a, ?_, ?_⟩
    · simp only [below, Finset.mem_filter] at hj ⊢
      exact ⟨hj.1, hj.2.trans less⟩
    · simpa [below] using ⟨wf.closed id v found a mem, less⟩
    · simp [below]
  · have proper : below id ⊂ Finset.range p.values.size :=
      (Finset.ssubset_iff_of_subset (Finset.filter_subset _ _)).mpr
        ⟨id, Finset.mem_range.mpr lt, by simp⟩
    simpa using Finset.card_lt_card proper

/-- A search that goes from values to their operands does not depend on its depth, if that is not
smaller than the table is long. -/
theorem WellFormed.eq_of_depth {β : Type} {search : Nat → ValueId → β} {depth : Nat}
    (wf : p.WellFormed)
    (step : ∀ (n m id : Nat) (v : Value), p.values[id]? = some v →
      (∀ a ∈ v.operands, search n a = search m a) → search (n + 1) id = search (m + 1) id)
    (lt : id < p.values.size) (deep : p.values.size ≤ depth) :
    search depth id = search p.values.size id := by
  obtain ⟨rank, ranked, bounded⟩ := wf.exists_rank
  have go (n m id : Nat) (lt : id < p.values.size) (left : rank id < n) (right : rank id < m) :
      search n id = search m id := by
    induction n generalizing m id with
    | zero => exact absurd left (Nat.not_lt_zero _)
    | succ n ih =>
      cases m with
      | zero => exact absurd right (Nat.not_lt_zero _)
      | succ m =>
        have found : p.values[id]? = some _ := Array.getElem?_eq_getElem lt
        apply step n m id _ found
        intro a mem
        have less := ranked id _ found a mem
        exact ih m a (wf.closed id _ found a mem) (by omega) (by omega)
  exact go _ _ id lt (Nat.lt_of_lt_of_le (bounded id lt) deep) (bounded id lt)

theorem WellFormed.resolve_name (wf : p.WellFormed) {sig : Signature} {func : FuncId}
    (found : p.resolve? sig = some func) : p.funcName? func = some sig.operator := by
  have mem : (sig, func) ∈ p.operators := mem_of_lookup found
  obtain ⟨f, present, name⟩ := wf.operators sig func mem
  simp [funcName?, present, name]

/-- Values were appended and nothing else happened. -/
structure Extends (p q : Program) : Prop where
  grows : p.values.size ≤ q.values.size
  kept : ∀ id < p.values.size, q.values[id]? = p.values[id]?
  tables : { q with values := p.values } = p

theorem Extends.refl (p : Program) : p.Extends p := ⟨Nat.le_refl _, fun _ _ => rfl, rfl⟩

theorem Extends.vars_eq (h : p.Extends q) : q.vars = p.vars := by
  simpa only using congrArg Program.vars h.tables

theorem Extends.funcs_eq (h : p.Extends q) : q.funcs = p.funcs := by
  simpa only using congrArg Program.funcs h.tables

theorem Extends.functions_eq (h : p.Extends q) : q.functions = p.functions := by
  simpa only using congrArg Program.functions h.tables

theorem Extends.operators_eq (h : p.Extends q) : q.operators = p.operators := by
  simpa only using congrArg Program.operators h.tables

theorem Extends.helpers_eq (h : p.Extends q) : q.helpers = p.helpers := by
  simpa only using congrArg Program.helpers h.tables

theorem tables_trans (h : { q with values := p.values } = p)
    (h' : { r with values := q.values } = q) : { r with values := p.values } = p :=
  calc { r with values := p.values }
    _ = { { r with values := q.values } with values := p.values } := rfl
    _ = p := by rw [h', h]

theorem Extends.trans (h : p.Extends q) (h' : q.Extends r) : p.Extends r := by
  refine ⟨Nat.le_trans h.grows h'.grows, fun id lt => ?_, tables_trans h.tables h'.tables⟩
  rw [h'.kept id (Nat.lt_of_lt_of_le lt h.grows), h.kept id lt]

/-- Values were appended, and the functions may be other ones. -/
structure Precedes (p q : Program) : Prop where
  grows : p.values.size ≤ q.values.size
  kept : ∀ id < p.values.size, q.values[id]? = p.values[id]?
  tables : { q with values := p.values, functions := p.functions } = p

theorem Precedes.funcs_eq (h : p.Precedes q) : q.funcs = p.funcs := by
  simpa only using congrArg Program.funcs h.tables

theorem Precedes.namesHelpers (h : p.Precedes q) (named : p.NamesHelpers) : q.NamesHelpers := by
  have helpers : q.helpers = p.helpers := by simpa only using congrArg Program.helpers h.tables
  unfold NamesHelpers
  rw [helpers, h.funcs_eq]
  exact named

theorem Extends.precedes (h : p.Extends q) : p.Precedes q := by
  refine ⟨h.grows, h.kept, ?_⟩
  calc { q with values := p.values, functions := p.functions }
    _ = { { q with values := p.values } with functions := p.functions } := rfl
    _ = p := by rw [h.tables]

theorem Extends.namesHelpers (h : p.Extends q) (named : p.NamesHelpers) : q.NamesHelpers :=
  h.precedes.namesHelpers named

theorem Precedes.refl (p : Program) : p.Precedes p := (Extends.refl p).precedes

theorem Precedes.trans (h : p.Precedes q) (h' : q.Precedes r) : p.Precedes r := by
  refine ⟨Nat.le_trans h.grows h'.grows, fun id lt => ?_, ?_⟩
  · rw [h'.kept id (Nat.lt_of_lt_of_le lt h.grows), h.kept id lt]
  · calc { r with values := p.values, functions := p.functions }
      _ = { { r with values := q.values, functions := q.functions } with
          values := p.values, functions := p.functions } := rfl
      _ = p := by rw [h'.tables, h.tables]

theorem WellFormed.withFunctions (wf : p.WellFormed) (functions : Array Function) :
    WellFormed { p with functions } :=
  ⟨wf.ids, wf.closed, wf.acyclic, wf.callees, wf.operators⟩

theorem Precedes.withFunctions (h : p.Precedes q) (functions : Array Function) :
    p.Precedes { q with functions } :=
  ⟨h.grows, h.kept, h.tables⟩

theorem extends_push (p : Program) (type : Option TypeName) (kind : ValueKind) :
    p.Extends (p.push type kind).2 := by
  refine ⟨by simp [push], fun id lt => ?_, rfl⟩
  simp [push, Array.getElem?_push, Nat.ne_of_lt lt]

theorem getElem?_push_self (p : Program) (type : Option TypeName) (kind : ValueKind) :
    (p.push type kind).2.values[p.values.size]? = some ⟨p.values.size, type, kind⟩ := by
  simp [push]

theorem getElem?_push_cases {type : Option TypeName} {kind : ValueKind} {v : Value}
    (found : (p.push type kind).2.values[id]? = some v) :
    (id = p.values.size ∧ v = ⟨p.values.size, type, kind⟩) ∨ p.values[id]? = some v := by
  simp only [push, Array.getElem?_push] at found
  split at found
  · exact .inl ⟨by assumption, (Option.some.inj found).symm⟩
  · exact .inr found

theorem WellFormed.push (wf : p.WellFormed) (type : Option TypeName) (kind : ValueKind)
    (closed : ∀ a : Nat, a ∈ Value.operands ⟨p.values.size, type, kind⟩ → a < p.values.size)
    (callee : ∀ func args, kind = .call func args → ∃ f, p.funcs[func]? = some f) :
    (p.push type kind).2.WellFormed := by
  have size : (p.push type kind).2.values.size = p.values.size + 1 := by simp [Program.push]
  obtain ⟨rank, ranked, bounded⟩ := wf.exists_rank
  constructor
  case ids =>
    intro id v found
    rcases getElem?_push_cases found with ⟨rfl, rfl⟩ | old
    · rfl
    · exact wf.ids id v old
  case closed =>
    intro id v found a mem
    rw [size]
    rcases getElem?_push_cases found with ⟨rfl, rfl⟩ | old
    · exact Nat.lt_succ_of_lt (closed a mem)
    · exact Nat.lt_succ_of_lt (wf.closed id v old a mem)
  case acyclic =>
    -- The new value stands above all others.
    refine ⟨fun i => if i = p.values.size then p.values.size else rank i, ?_⟩
    intro id v found a mem
    rcases getElem?_push_cases found with ⟨rfl, rfl⟩ | old
    · have lt := closed a mem
      simpa [Nat.ne_of_lt lt] using bounded a lt
    · have lt := wf.closed id v old a mem
      have present : id < p.values.size := (Array.getElem?_eq_some_iff.mp old).1
      simpa [Nat.ne_of_lt lt, Nat.ne_of_lt present] using ranked id v old a mem
  case callees =>
    intro id v func args found isCall
    rcases getElem?_push_cases found with ⟨rfl, rfl⟩ | old
    · exact callee func args isCall
    · exact wf.callees id v func args old isCall
  case operators => exact wf.operators

end Program

end SecureArith
