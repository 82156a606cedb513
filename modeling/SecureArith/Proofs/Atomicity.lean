import SecureArith.Proofs.MatrixChain
import SecureArith.Proofs.Ownership

set_option autoImplicit false

/-!
# A function that fails changes nothing

Bodies are minimized by appending values, and replacing chains fails only before the first one is
replaced. So a function that fails leaves all values as they were. Of one that succeeds, only chains
of the program may have become other values: what a chain is replaced by is no product, so a value
that is one later on has not changed.
-/

namespace SecureArith

namespace Program

variable {p q r : Program} {id chain : Nat} {v : Value}

/-- Of the values that were there, only chains have changed, and they are products no more. -/
structure AltersChains (p q : Program) : Prop where
  grows : p.values.size ≤ q.values.size
  tables : { q with values := p.values } = p
  altered : ∀ (id : Nat) (v : Value), p.values[id]? = some v →
    q.values[id]? = some v ∨ p.IsChain v ∧ ∃ w, q.values[id]? = some w ∧ ¬ q.IsMatmul w

theorem Extends.altersChains (ext : p.Extends q) : p.AltersChains q where
  grows := ext.grows
  tables := ext.tables
  altered id _ found :=
    .inl ((ext.kept id (Array.getElem?_eq_some_iff.mp found).1).trans found)

namespace AltersChains

theorem isMatmul_iff (h : p.AltersChains q) : q.IsMatmul v ↔ p.IsMatmul v :=
  isMatmul_congr h.tables

theorem kept_of_isMatmul (h : p.AltersChains q) (lt : id < p.values.size)
    (found : q.values[id]? = some v) (isMatmul : q.IsMatmul v) : p.values[id]? = some v := by
  obtain ⟨w, old⟩ : ∃ w, p.values[id]? = some w := ⟨_, Array.getElem?_eq_getElem lt⟩
  rcases h.altered id w old with same | ⟨-, u, found', other⟩
  · rw [old, ← same, found]
  · cases found.symm.trans found'
    exact absurd isMatmul other

theorem isChain (h : p.AltersChains q) (wf : p.WellFormed) (wf' : q.WellFormed)
    (old : p.values[chain]? = some v) (isChain : q.isChain? chain = some true) : p.IsChain v := by
  obtain ⟨w, found⟩ := exists_of_isChain? isChain
  obtain ⟨isMatmul, a, operand, known⟩ := (wf'.isChain?_eq_true_iff found).mp isChain
  obtain ⟨u, isOperand, isMatmul'⟩ := isMatmul?_eq_true_iff.mp known
  have there := h.kept_of_isMatmul (Array.getElem?_eq_some_iff.mp old).1 found isMatmul
  cases old.symm.trans there
  have inside := wf.closed chain v old a operand
  exact ⟨h.isMatmul_iff.mp isMatmul, a, operand, u,
    h.kept_of_isMatmul inside isOperand isMatmul', h.isMatmul_iff.mp isMatmul'⟩

variable {mpc : VarId} {environment environment' : Option ValueId} {read : ValueId}

theorem contracts (h : p.AltersChains q) (wf : p.WellFormed) (ready : q.Chainable environment)
    (step : q.Contracts mpc environment chain r read) : p.AltersChains r := by
  constructor
  case grows => exact Nat.le_trans h.grows step.grows
  case tables => exact tables_trans h.tables step.tables
  case altered =>
    intro id v old
    have lt := Nat.lt_of_lt_of_le (Array.getElem?_eq_some_iff.mp old).1 h.grows
    by_cases same : id = chain
    · subst same
      have replaced := step.exists_replacement ready
      obtain ⟨isChain, -, -, -⟩ := step
      exact .inr ⟨h.isChain wf ready.toWellFormed old isChain, replaced⟩
    · rw [step.kept lt same]
      apply (h.altered id v old).imp_right
      rintro ⟨isChain, w, found, other⟩
      exact ⟨isChain, w, found, (isMatmul_congr step.tables).not.mpr other⟩

theorem contracted (h : p.AltersChains q) (wf : p.WellFormed) (ready : q.Chainable environment)
    (steps : Contracted mpc q environment r environment') : p.AltersChains r := by
  induction steps with
  | refl => exact h
  | step first _ ih => exact ih (h.contracts wf ready first) (first.chainable ready)

end AltersChains

end Program

namespace Work

open Program (Contracted)

variable {s : Settings} {p : Program} {f : Function}

theorem ends_minimizeFunction_complete (wf : p.WellFormed)
    (inside : ∀ i ∈ f.body, i.value < p.values.size) (journal : Journal) :
    Ends (minimizeFunction s f) ⟨p, {}, journal⟩ (fun _ b => b.forest.complete = true)
      fun _ _ => True := by
  have start : Ready s p ⟨p, {}, journal⟩ :=
    ⟨Forest.planted_empty _, _, Bench.keeps_empty s.classifier p journal⟩
  rw [minimizeFunction, Ends.ite_iff]
  refine ⟨fun _ => ?_, fun _ => start.1.complete⟩
  exact (ends_minimizeBody_ready wf start inside).imp (fun _ _ ready => ready.1.complete)
    fun _ _ _ => trivial

/-- What the optimizer does to a program: it appends linked values and then contracts chains. It
fails before the first of these, and for an index out of range only where the environment is none of
the variables. -/
theorem ends_optimizeFunction_contracted (wf : p.WellFormed) (helpers : p.NamesHelpers)
    (inside : ∀ i ∈ f.body, i.value < p.values.size) (forest : Forest) (journal : Journal) :
    Ends (optimizeFunction s f) ⟨p, forest, journal⟩
      (fun out b => ∃ q mpc environment, p.Linked s.classifier q ∧
        Contracted mpc q none b.program environment ∧
        (s.replacesChainsOf f = false → b.program = q) ∧
        ∀ i ∈ out.2, i.value < b.program.values.size)
      fun e b => p.Linked s.classifier b.program ∧
        (e.kind = .range → ∃ mpc ∈ f.mpc, p.vars[mpc]? = none) := by
  rw [optimizeFunction, ends_aside, Ends.bind_iff]
  apply ((ends_minimizeFunction Interpretation.arithmetic_integers wf inside).and
    (ends_minimizeFunction_complete wf inside journal)).imp
  · rintro ⟨body, regenerated⟩ b₁ ⟨⟨linked, inside', -⟩, complete⟩
    have ready := (linked.wellFormed wf).chainable (linked.extends.namesHelpers helpers)
    dsimp only
    rw [Ends.bind_iff]
    apply ((ends_replaceChainsOf ready inside').and
      (keepsForest_replaceChainsOf s f body b₁)).imp
    · rintro count b₂ ⟨⟨⟨mpc, environment, contracted⟩, kept⟩, forest⟩
      rw [Ends.bind_iff]
      apply ends_counts
      · refine ⟨b₁.program, mpc, environment, linked, contracted, kept, fun i mem => ?_⟩
        exact Nat.lt_of_lt_of_le (inside' i mem) contracted.grows
      · rw [forest]
        exact fun missing => absurd complete missing
    · rintro e b₂ ⟨⟨same, mpc, isMpc, blocked⟩, -⟩
      rw [same]
      refine ⟨linked, fun range => ⟨mpc, isMpc, ?_⟩⟩
      rcases blocked with ⟨rfl, -⟩ | ⟨-, -, absent⟩
      · cases range
      · rwa [← linked.extends.vars_eq]
  · rintro e b₁ ⟨fails, -⟩
    exact ⟨fails.1, fun range => absurd range fails.2⟩

end Work

/-- A function that fails leaves every value as it was, and all tables besides. One that succeeds
changes nothing but chains, and not even these unless their replacement is switched on. -/
theorem atomic_optimizeFunction {s : Settings} {p : Program} {f : Function} (wf : p.WellFormed)
    (helpers : p.NamesHelpers) (inside : ∀ i ∈ f.body, i.value < p.values.size) (forest : Forest)
    (journal : Journal) :
    Ends (Work.optimizeFunction s f) ⟨p, forest, journal⟩
      (fun _ b => { b.program with values := p.values } = p ∧
        p.values.size ≤ b.program.values.size ∧
        (∀ (id : Nat) (v : Value), p.values[id]? = some v →
          b.program.values[id]? = some v ∨ p.IsChain v) ∧
        (s.reorderMatmuls = false → p.Extends b.program))
      fun _ b => p.Extends b.program := by
  apply (Work.ends_optimizeFunction_contracted wf helpers inside forest journal).imp
  · rintro out b ⟨q, mpc, environment, linked, contracted, kept, -⟩
    have ext := linked.extends
    have ready := (linked.wellFormed wf).chainable (ext.namesHelpers helpers)
    have alters := ext.altersChains.contracted wf ready contracted
    refine ⟨alters.tables, alters.grows, fun id v found => ?_, fun off => ?_⟩
    · exact (alters.altered id v found).imp_right (·.1)
    · rw [kept (by simp [Settings.replacesChainsOf, off])]
      exact ext
  · exact fun e b fails => fails.1.extends

/-- A sum is factored, and then a chain finds no helper. -/
def Description.helpless : Description where
  vars := ["x", "y", "z", "m"].map fun name => ⟨name, some .int⟩
  operators := ["__add__", "__mul__", "__matmul__"].map fun name =>
    ⟨.int, name, [.int, .int], .int⟩
  functions := [{
    name := "f"
    mpc := some "m"
    params := ["x", "y", "z"]
    attributes := { minimize := true, reorderMatmuls := true }
    body := [
      .eval (.call "__add__" [.call "__mul__" [.var "x", .var "y"],
        .call "__mul__" [.var "x", .var "z"]]),
      .ret (.call "__matmul__" [.call "__matmul__" [.var "x", .var "y"], .var "z"])] }]

theorem atomic_optimizeFunction_helpless :
    ∃ (p : Program) (f : Function) (b : Bench), p.Described ∧ f ∈ p.functions ∧
      Work.optimizeFunction (.ofPreset .aggressive) f ⟨p, {}, {}⟩ =
        .error (.missingHelper MatrixChain.helperName) b ∧
      b.program.values.size = p.values.size + 2 ∧ p.Extends b.program := by
  have checked : (Description.helpless.first?.any fun (p, f) =>
      match Work.optimizeFunction (.ofPreset .aggressive) f ⟨p, {}, {}⟩ with
      | .ok .. => false
      | .error e b => decide (e = .missingHelper MatrixChain.helperName ∧
          b.program.values.size = p.values.size + 2)) = true := by
    decide +kernel
  obtain ⟨⟨p, f⟩, isFirst, checked⟩ := Option.any_eq_true _ _ |>.mp checked
  obtain ⟨lowered, mem⟩ := Description.lower_of_first? isFirst
  have sound := Description.sound_of_lower lowered
  cases run : Work.optimizeFunction (.ofPreset .aggressive) f ⟨p, {}, {}⟩ with
  | ok out b => simp [run] at checked
  | error e b =>
    simp only [run] at checked
    obtain ⟨rfl, two⟩ := of_decide_eq_true checked
    refine ⟨p, f, b, ⟨_, lowered⟩, mem, run, two, ?_⟩
    exact (atomic_optimizeFunction sound.toWellFormed sound.helpers (sound.bodies f mem) _ _).of_error
      run

end SecureArith
