import Mathlib.Logic.Relation
import SecureArith.Proofs.Meaning.Chain

set_option autoImplicit false

/-!
# All chains are replaced

The search from a value finds a chain exactly where one is reached through operands, whatever it has
marked. A contraction makes no new products, so a value that is marked stays no chain, and one from
which no chain is reached keeps that. Each contraction leaves one product less, and the search is
repeated often enough. So in the end no chain is reached, and the number that is counted is that of
the values that have become calls of the helper.
-/

namespace SecureArith

namespace Program

variable {p q r : Program} {id root chain depth : Nat} {v : Value}

/-- The values that a value is made from, and itself. -/
def Reaches (p : Program) : Nat → Nat → Prop :=
  Relation.ReflTransGen fun id a => ∃ v, p.values[id]? = some v ∧ a ∈ v.operands

def HasChain (p : Program) (root : Nat) : Prop :=
  ∃ id v, p.Reaches root id ∧ p.values[id]? = some v ∧ p.IsChain v

theorem reaches_of_first? {test : ValueId → Option Bool}
    (found : p.first? test depth root = some (some chain)) : p.Reaches root chain := by
  induction depth generalizing root with
  | zero => cases found
  | succ depth ih =>
    rw [first?] at found
    obtain ⟨passes, -, found⟩ := Option.bind_eq_some_iff.mp found
    cases passes with
    | true =>
      cases found
      exact .refl
    | false =>
      obtain ⟨v, here, found⟩ := Option.bind_eq_some_iff.mp found
      obtain ⟨a, operand, below⟩ := exists_of_findSomeM? found
      exact .head ⟨v, here, operand⟩ (ih below)

/-- The search finds nothing only where no chain is reached. -/
theorem WellFormed.not_hasChain_of_first? (wf : p.WellFormed)
    (none : p.first? p.isChain? depth root = some none) : ¬ p.HasChain root := by
  rintro ⟨id, v, reaches, found, isChain⟩
  induction depth generalizing root with
  | zero => cases none
  | succ depth ih =>
    rw [first?] at none
    obtain ⟨here, known, none⟩ := Option.bind_eq_some_iff.mp none
    cases here with
    | true => cases none
    | false =>
      obtain ⟨w, isRoot, none⟩ := Option.bind_eq_some_iff.mp none
      rcases Relation.ReflTransGen.cases_head reaches with rfl | ⟨a, ⟨w', isRoot', operand⟩, below⟩
      · cases known.symm.trans (wf.isChain?_iff.mpr ⟨v, found, isChain⟩)
      · cases isRoot.symm.trans isRoot'
        exact ih (forall_of_findSomeM? none a operand) below

theorem WellFormed.hasChain_of_firstChain? (wf : p.WellFormed)
    (first : p.firstChain? root = some (some chain)) : p.HasChain root := by
  obtain ⟨v, found, isChain⟩ := wf.isChain?_iff.mp (isChain?_of_firstChain? first)
  exact ⟨chain, v, reaches_of_first? first, found, isChain⟩

section Contracts

variable {mpc : VarId} {environment environment' : Option ValueId} {read : ValueId}

theorem Contracts.exists_call (h : p.Contracts mpc environment chain q read) :
    ∃ w helper t tuple operands, q.values[chain]? = some w ∧ w.kind = .call helper [read, tuple] ∧
      p.helper? MatrixChain.helperName = some helper ∧ p.values.size ≤ tuple ∧
      q.values[tuple]? = some t ∧ t.kind = .tuple operands := by
  obtain ⟨isChain, -, isHelper, reads⟩ := h
  obtain ⟨w, found⟩ := exists_of_isChain? isChain
  have ext := reads.extends
  have lt := (Array.getElem?_eq_some_iff.mp found).1
  exact ⟨_, _, _, _, _, getElem?_contract_chain ((ext.kept chain lt).trans found), rfl, isHelper,
    ext.grows, getElem?_contract_tuple (Nat.lt_of_lt_of_le lt ext.grows), rfl⟩

theorem Contracts.read_cases (h : p.Contracts mpc environment chain q read) :
    environment = some read ∨ environment = none ∧ p.values.size ≤ read ∧
      ∃ e, q.values[read]? = some e ∧ e.kind = .var mpc := by
  obtain ⟨isChain, -, -, reads⟩ := h
  obtain ⟨w, found⟩ := exists_of_isChain? isChain
  have lt := (Array.getElem?_eq_some_iff.mp found).1
  cases reads with
  | known => exact .inl rfl
  | new =>
    have isRead : (p.addRead mpc).2.values[p.values.size]? = some _ := getElem?_push_self p _ _
    have inside := (Array.getElem?_eq_some_iff.mp isRead).1
    exact .inr ⟨rfl, Nat.le_refl _, _,
      (getElem?_contract_of_ne inside (Nat.ne_of_gt lt)).trans isRead, rfl⟩

/-- No chain is reached from a value that was none reached from before. -/
theorem Contracts.hasChain (h : p.Contracts mpc environment chain q read)
    (ready : p.Chainable environment) (lt : root < p.values.size) (reached : q.HasChain root) :
    p.HasChain root := by
  by_contra unreached
  obtain ⟨w, isChain⟩ : ∃ w, p.values[chain]? = some w ∧ p.IsChain w := by
    obtain ⟨isChain, -, -, -⟩ := h
    exact ready.isChain?_iff.mp isChain
  have other {id : Nat} (reaches : p.Reaches root id) : id ≠ chain := by
    rintro rfl
    exact unreached ⟨id, w, reaches, isChain⟩
  -- The chain is not reached, so what is reached has not changed.
  have same {id : Nat} (reaches : q.Reaches root id) :
      id < p.values.size ∧ p.Reaches root id := by
    induction reaches with
    | refl => exact ⟨lt, .refl⟩
    | @tail id a _ step ih =>
      obtain ⟨v, found, operand⟩ := step
      rw [h.kept ih.1 (other ih.2)] at found
      exact ⟨ready.closed id v found a operand, ih.2.tail ⟨v, found, operand⟩⟩
  obtain ⟨id, v, reaches, found, isMatmul, a, operand, u, isOperand, isMatmul'⟩ := reached
  obtain ⟨inside, reaches⟩ := same reaches
  rw [h.kept inside (other reaches)] at found
  have product := h.matmuls_subset ready
    (mem_matmuls.mpr (isMatmul?_eq_true_iff.mpr ⟨u, isOperand, isMatmul'⟩))
  rw [h.kept (ready.closed id v found a operand) (Finset.ne_of_mem_erase product)] at isOperand
  exact unreached ⟨id, v, reaches, found, (isMatmul_congr h.tables).mp isMatmul, a, operand, u,
    isOperand, (isMatmul_congr h.tables).mp isMatmul'⟩

theorem Contracted.hasChain (h : Contracted mpc p environment q environment')
    (ready : p.Chainable environment) (lt : root < p.values.size) (reached : q.HasChain root) :
    p.HasChain root := by
  induction h with
  | refl => exact reached
  | step first _ ih =>
    exact first.hasChain ready lt
      (ih (first.chainable ready) (Nat.lt_of_lt_of_le lt first.grows) reached)

theorem Contracted.eq_of_helper?_none (h : Contracted mpc p environment q environment')
    (missing : p.helper? MatrixChain.helperName = none) : q = p := by
  cases h with
  | refl => rfl
  | step first _ =>
    obtain ⟨-, -, isHelper, -⟩ := first
    cases isHelper.symm.trans missing

end Contracts

/-- Chains have become calls of the helper on one new read of the environment and a new tuple for
each; `calls` has the chains and their tuples. All other values and tables are as they were. -/
structure Rewrites (mpc : VarId) (p q : Program) (environment : Option ValueId)
    (calls : List (Nat × Nat)) : Prop where
  grows : p.values.size ≤ q.values.size
  tables : { q with values := p.values } = p
  kept : ∀ id < p.values.size, id ∉ calls.map (·.1) → q.values[id]? = p.values[id]?
  chains : (calls.map (·.1)).Nodup
  tuples : (calls.map (·.2)).Nodup
  chain : ∀ call ∈ calls, ∃ v, p.values[call.1]? = some v ∧ p.IsChain v
  call : ∀ call ∈ calls, ∃ w helper read, q.values[call.1]? = some w ∧
    w.kind = .call helper [read, call.2] ∧ environment = some read ∧
    p.helper? MatrixChain.helperName = some helper
  tuple : ∀ call ∈ calls, p.values.size ≤ call.2 ∧
    ∃ t operands, q.values[call.2]? = some t ∧ t.kind = .tuple operands
  read : ∀ read, environment = some read → p.values.size ≤ read ∧
    ∃ e, q.values[read]? = some e ∧ e.kind = .var mpc
  products : ∀ id ∈ q.matmuls, id ∈ p.matmuls ∧ id ∉ calls.map (·.1)

namespace Rewrites

variable {mpc : VarId} {environment : Option ValueId} {read : ValueId} {calls : List (Nat × Nat)}

theorem refl (mpc : VarId) (p : Program) : Rewrites mpc p p none [] where
  grows := Nat.le_refl _
  tables := rfl
  kept _ _ _ := rfl
  chains := .nil
  tuples := .nil
  chain _ mem := absurd mem List.not_mem_nil
  call _ mem := absurd mem List.not_mem_nil
  tuple _ mem := absurd mem List.not_mem_nil
  read _ none := by cases none
  products _ mem := ⟨mem, List.not_mem_nil⟩

theorem kept_of_mem_matmuls (h : Rewrites mpc p q environment calls) (mem : id ∈ q.matmuls) :
    q.values[id]? = p.values[id]? := by
  obtain ⟨product, other⟩ := h.products id mem
  obtain ⟨v, found, -⟩ := isMatmul?_eq_true_iff.mp (mem_matmuls.mp product)
  exact h.kept id (Array.getElem?_eq_some_iff.mp found).1 other

theorem isChain_of_isChain (h : Rewrites mpc p q environment calls) (found : q.values[id]? = some v)
    (isChain : q.IsChain v) : p.values[id]? = some v ∧ p.IsChain v := by
  apply Program.isChain_of_isChain h.tables _ found isChain
  intro a w isValue isMatmul
  rw [← h.kept_of_mem_matmuls, isValue]
  exact mem_matmuls.mpr (isMatmul?_eq_true_iff.mpr ⟨w, isValue, isMatmul⟩)

theorem helper?_eq (h : Rewrites mpc p q environment calls) :
    q.helper? MatrixChain.helperName = p.helper? MatrixChain.helperName := by
  have helpers : q.helpers = p.helpers := by simpa only using congrArg Program.helpers h.tables
  rw [helper?, helper?, helpers]

theorem kept_of_mem_calls (h : Rewrites mpc p q environment calls)
    (step : q.Contracts mpc environment chain r read) (lt : chain < p.values.size)
    (other : chain ∉ calls.map (·.1)) {call : Nat × Nat} (mem : call ∈ calls) :
    r.values[call.1]? = q.values[call.1]? ∧ r.values[call.2]? = q.values[call.2]? ∧
      call.2 < q.values.size := by
  obtain ⟨w, -, -, isCall, -⟩ := h.call call mem
  obtain ⟨new, t, -, isTuple, -⟩ := h.tuple call mem
  have inside := (Array.getElem?_eq_some_iff.mp isTuple).1
  refine ⟨step.kept (Array.getElem?_eq_some_iff.mp isCall).1 ?_, step.kept inside ?_, inside⟩
  · exact fun eq => other (eq ▸ List.mem_map_of_mem mem)
  · exact Nat.ne_of_gt (Nat.lt_of_lt_of_le lt new)

theorem contracts (h : Rewrites mpc p q environment calls) (ready : q.Chainable environment)
    (step : q.Contracts mpc environment chain r read) :
    ∃ tuple, Rewrites mpc p r (some read) (calls ++ [(chain, tuple)]) := by
  obtain ⟨w, helper, t, tuple, operands, isCall, callKind, isHelper, fresh, isTuple, tupleKind⟩ :=
    step.exists_call
  obtain ⟨-, other⟩ := h.products chain (step.chain_mem_matmuls ready)
  obtain ⟨v, found, isChain⟩ : ∃ v, p.values[chain]? = some v ∧ p.IsChain v := by
    obtain ⟨isChain, -, -, -⟩ := step
    obtain ⟨v, found, isChain⟩ := ready.isChain?_iff.mp isChain
    exact ⟨v, h.isChain_of_isChain found isChain⟩
  have lt := (Array.getElem?_eq_some_iff.mp found).1
  have earlier {call : Nat × Nat} (mem : call ∈ calls) := h.kept_of_mem_calls step lt other mem
  have each {P : Nat × Nat → Prop} (old : ∀ call ∈ calls, P call) (last : P (chain, tuple)) :
      ∀ call ∈ calls ++ [(chain, tuple)], P call := by
    rw [List.forall_mem_append, List.forall_mem_singleton]
    exact ⟨old, last⟩
  refine ⟨tuple, ?_⟩
  constructor
  case grows => exact Nat.le_trans h.grows step.grows
  case tables => exact tables_trans h.tables step.tables
  case kept =>
    intro id inside apart
    rw [List.map_append, List.mem_append, not_or] at apart
    have ne : id ≠ chain := by simpa using apart.2
    rw [step.kept (Nat.lt_of_lt_of_le inside h.grows) ne]
    exact h.kept id inside apart.1
  case chains =>
    rw [List.map_append, List.nodup_append']
    exact ⟨h.chains, List.nodup_singleton _, by simpa using other⟩
  case tuples =>
    rw [List.map_append, List.nodup_append']
    refine ⟨h.tuples, List.nodup_singleton _, ?_⟩
    rw [List.map_singleton, List.disjoint_singleton]
    intro mem
    obtain ⟨call, inCalls, rfl⟩ := List.mem_map.mp mem
    exact absurd (earlier inCalls).2.2 (Nat.not_lt.mpr fresh)
  case chain => exact each h.chain ⟨v, found, isChain⟩
  case call =>
    refine each (fun call mem => ?_)
      ⟨w, helper, read, isCall, callKind, rfl, h.helper?_eq ▸ isHelper⟩
    obtain ⟨w, helper, read', isCall, kind, isRead, isHelper⟩ := h.call call mem
    rcases step.read_cases with known | ⟨none, -⟩
    · exact ⟨w, helper, read', (earlier mem).1.trans isCall, kind, known ▸ isRead, isHelper⟩
    · cases none.symm.trans isRead
  case tuple =>
    refine each (fun call mem => ?_) ⟨Nat.le_trans h.grows fresh, t, operands, isTuple, tupleKind⟩
    obtain ⟨new, t, operands, isTuple, kind⟩ := h.tuple call mem
    exact ⟨new, t, operands, (earlier mem).2.1.trans isTuple, kind⟩
  case read =>
    rintro _ ⟨⟩
    rcases step.read_cases with known | ⟨-, new, isRead⟩
    · obtain ⟨new, e, isRead, kind⟩ := h.read read known
      refine ⟨new, e, ?_, kind⟩
      rw [step.kept (Array.getElem?_eq_some_iff.mp isRead).1
        (Nat.ne_of_gt (Nat.lt_of_lt_of_le lt new)), isRead]
    · exact ⟨Nat.le_trans h.grows new, isRead⟩
  case products =>
    intro id mem
    obtain ⟨ne, mem⟩ := Finset.mem_erase.mp (step.matmuls_subset ready mem)
    obtain ⟨product, apart⟩ := h.products id mem
    refine ⟨product, ?_⟩
    rw [List.map_append, List.mem_append, not_or]
    exact ⟨apart, by simpa using ne⟩

end Rewrites

section Exhausts

variable {mpc : VarId} {environment environment' : Option ValueId} {n : Nat} {roots : List ValueId}
  {calls : List (Nat × Nat)}

theorem Exhausts.not_hasChain (h : Exhausts mpc root p environment n q environment')
    (ready : p.Chainable environment) : ¬ q.HasChain root := by
  induction h with
  | done none => exact ready.not_hasChain_of_first? none
  | step _ first _ ih => exact ih (first.chainable ready)

/-- What is replaced for one value leaves the others without chains where they had none. -/
theorem ExhaustsAll.not_hasChain (h : ExhaustsAll mpc roots p environment n q environment')
    (ready : p.Chainable environment)
    (inside : ∀ root : Nat, root ∈ roots → root < p.values.size) :
    ∀ root : Nat, root ∈ roots → ¬ q.HasChain root := by
  induction h with
  | nil => exact fun _ mem => absurd mem List.not_mem_nil
  | @cons p q r _ _ _ root roots _ _ first rest ih =>
    have ready' := first.contracted.chainable ready
    have inside' (root' : Nat) (mem : root' ∈ root :: roots) : root' < q.values.size :=
      Nat.lt_of_lt_of_le (inside root' mem) first.contracted.grows
    refine List.forall_mem_cons.mpr ⟨fun reached => ?_, ?_⟩
    · exact first.not_hasChain ready
        (rest.contracted.hasChain ready' (inside' root List.mem_cons_self) reached)
    · exact ih ready' fun root' mem => inside' root' (List.mem_cons_of_mem root mem)

theorem Exhausts.rewrites (h : Exhausts mpc root q environment n r environment')
    (ready : q.Chainable environment) (before : Rewrites mpc p q environment calls) :
    ∃ more, n = more.length ∧ Rewrites mpc p r environment' (calls ++ more) := by
  induction h generalizing calls with
  | done =>
    refine ⟨[], rfl, ?_⟩
    rwa [List.append_nil]
  | @step _ _ _ _ _ chain _ _ _ first _ ih =>
    obtain ⟨tuple, rewrites⟩ := before.contracts ready first
    obtain ⟨more, isCount, rewrites⟩ := ih (first.chainable ready) rewrites
    refine ⟨(chain, tuple) :: more, congrArg (· + 1) isCount, ?_⟩
    rwa [List.append_assoc] at rewrites

theorem ExhaustsAll.rewrites (h : ExhaustsAll mpc roots q environment n r environment')
    (ready : q.Chainable environment) (before : Rewrites mpc p q environment calls) :
    ∃ more, n = more.length ∧ Rewrites mpc p r environment' (calls ++ more) := by
  induction h generalizing calls with
  | nil =>
    refine ⟨[], rfl, ?_⟩
    rwa [List.append_nil]
  | cons first _ ih =>
    obtain ⟨more, isCount, rewrites⟩ := first.rewrites ready before
    obtain ⟨more', isCount', rewrites⟩ := ih (first.contracted.chainable ready) rewrites
    refine ⟨more ++ more', ?_, ?_⟩
    · rw [isCount, isCount', List.length_append]
    · rwa [List.append_assoc] at rewrites

end Exhausts

end Program

/-- Replacing the chains of a body fails exactly where there is no helper for a chain that is
reached, and then changes nothing in the program. Else no chain is reached any more, and as many
values as are counted have become calls of the helper. -/
theorem replaceChains_exhausts {p : Program} {mpc : Nat} {body : List Instruction} (wf : p.WellFormed)
    (helpers : p.NamesHelpers) (known : mpc < p.vars.size)
    (inside : ∀ i ∈ body, i.value < p.values.size) (forest : Forest) (journal : Journal) :
    ((∃ b, Work.replaceChains mpc (body.map (·.value)) none ⟨p, forest, journal⟩ =
        .error (.missingHelper MatrixChain.helperName) b) ↔
      p.helper? MatrixChain.helperName = none ∧ ∃ i ∈ body, p.HasChain i.value) ∧
    Ends (Work.replaceChains mpc (body.map (·.value)) none) ⟨p, forest, journal⟩
      (fun n b => (∀ i ∈ body, ¬ b.program.HasChain i.value) ∧
        ∃ environment calls, n = calls.length ∧ p.Rewrites mpc b.program environment calls)
      fun e b => e = .missingHelper MatrixChain.helperName ∧ b.program = p := by
  have ready := wf.chainable helpers
  have roots (root : Nat) (mem : root ∈ body.map (·.value)) : root < p.values.size := by
    obtain ⟨i, inBody, rfl⟩ := List.mem_map.mp mem
    exact inside i inBody
  have ends : Ends (Work.replaceChains mpc (body.map (·.value)) none) ⟨p, forest, journal⟩
      (fun n b => ¬ (p.helper? MatrixChain.helperName = none ∧ ∃ i ∈ body, p.HasChain i.value) ∧
        (∀ i ∈ body, ¬ b.program.HasChain i.value) ∧
        ∃ environment calls, n = calls.length ∧ p.Rewrites mpc b.program environment calls)
      fun e b => (p.helper? MatrixChain.helperName = none ∧ ∃ i ∈ body, p.HasChain i.value) ∧
        e = .missingHelper MatrixChain.helperName ∧ b.program = p := by
    apply (Work.ends_replaceChains ready).imp
    · rintro n b ⟨environment, exhausts⟩
      have unreached := exhausts.not_hasChain ready roots
      have none (i : Instruction) (inBody : i ∈ body) : ¬ b.program.HasChain i.value :=
        unreached i.value (List.mem_map_of_mem inBody)
      obtain ⟨calls, isCount, rewrites⟩ := exhausts.rewrites ready (.refl mpc p)
      refine ⟨?_, none, environment, calls, isCount, rewrites⟩
      rintro ⟨missing, i, inBody, reached⟩
      have same : b.program = p := exhausts.contracted.eq_of_helper?_none missing
      exact none i inBody (same ▸ reached)
    · intro e b fails
      obtain ⟨same, blocked, root, mem, chain, first⟩ := fails roots
      obtain ⟨i, inBody, rfl⟩ := List.mem_map.mp mem
      rcases blocked with ⟨rfl, missing⟩ | ⟨-, -, absent⟩
      · exact ⟨⟨missing, i, inBody, wf.hasChain_of_firstChain? first⟩, rfl, same⟩
      · exact absurd known (Nat.not_lt.mpr (Array.getElem?_eq_none_iff.mp absent))
  refine ⟨⟨?_, fun blocked => ?_⟩, ends.imp (fun _ _ h => h.2) fun _ _ h => h.2⟩
  · rintro ⟨b, run⟩
    exact (ends.of_error run).1
  · cases run : Work.replaceChains mpc (body.map (·.value)) none ⟨p, forest, journal⟩ with
    | ok n b => exact absurd blocked (ends.of_ok run).1
    | error e b =>
      obtain ⟨-, rfl, -⟩ := ends.of_error run
      exact ⟨b, rfl⟩

/-- The square of a product shares it, and both are replaced; without a helper neither is. -/
theorem replaceChains_exhausts_square :
    ∃ (p q : Program) (b b' : Bench) (environment : Option ValueId) (calls : List (Nat × Nat)),
      p.WellFormed ∧ p.NamesHelpers ∧ p.values.size = 6 ∧ p.vars.size = 4 ∧
      Work.replaceChains 3 [5, 4] none ⟨p, {}, {}⟩ = .ok 2 b ∧ calls.length = 2 ∧
      p.Rewrites 3 b.program environment calls ∧ ¬ b.program.HasChain 5 ∧ ¬ b.program.HasChain 4 ∧
      q = { p with helpers := [] } ∧ q.HasChain 5 ∧
      Work.replaceChains 3 [5] none ⟨q, {}, {}⟩ =
        .error (.missingHelper MatrixChain.helperName) b' ∧ b'.program = q := by
  have checked : (Description.productOfThree.first?.any fun first =>
      let p := (first.1.addCall 0 [4, 4]).2
      decide (first.1.values.size = 5 ∧ 0 < first.1.funcs.size ∧ first.1.vars.size = 4) &&
        ((answer? (Work.replaceChains 3 [5, 4] none) ⟨p, {}, {}⟩ == some 2) &&
          (failed? (Work.replaceChains 3 [5] none) ⟨{ p with helpers := [] }, {}, {}⟩).isSome)) =
      true := by
    decide +kernel
  obtain ⟨⟨p, f⟩, isFirst, checked⟩ := Option.any_eq_true _ _ |>.mp checked
  simp only [Bool.and_eq_true, decide_eq_true_eq, beq_iff_eq, Option.isSome_iff_exists] at checked
  obtain ⟨⟨size, callee, vars⟩, counted, ⟨e, b'⟩, failed⟩ := checked
  obtain ⟨lowered, -⟩ := Description.lower_of_first? isFirst
  have sound := Description.sound_of_lower lowered
  have wf : (p.addCall 0 [4, 4]).2.WellFormed := by
    apply sound.toWellFormed.push
    · simp [Value.operands, size]
    · rintro _ _ ⟨⟩
      exact ⟨_, Array.getElem?_eq_getElem callee⟩
  have six : (p.addCall 0 [4, 4]).2.values.size = 6 := by simp [Program.addCall, Program.push, size]
  have three : 3 < (p.addCall 0 [4, 4]).2.vars.size := by simp [Program.addCall, Program.push, vars]
  have inside : ∀ i ∈ [Instruction.eval 5, .ret 4], i.value < (p.addCall 0 [4, 4]).2.values.size := by
    rw [six]
    decide
  obtain ⟨⟨count, b⟩, result, rfl⟩ := Option.map_eq_some_iff.mp counted
  have run := eq_ok_of_result? result
  obtain ⟨unreached, environment, calls, isCount, rewrites⟩ :=
    (replaceChains_exhausts wf sound.helpers three inside {} {}).2.of_ok run
  -- The same program without helpers.
  obtain ⟨q, isQ⟩ : ∃ q : Program, q = { (p.addCall 0 [4, 4]).2 with helpers := [] } := ⟨_, rfl⟩
  have wf' : q.WellFormed := isQ ▸ ⟨wf.ids, wf.closed, wf.acyclic, wf.callees, wf.operators⟩
  have helpers' : q.NamesHelpers := by
    intro name func mem
    rw [isQ] at mem
    exact absurd mem List.not_mem_nil
  have run' : Work.replaceChains 3 [5] none ⟨q, {}, {}⟩ = .error e b' := by
    rw [isQ]
    exact eq_error_of_failed? failed
  have three' : 3 < q.vars.size := by rwa [isQ]
  have inside' : ∀ i ∈ [Instruction.ret 5], i.value < q.values.size := by
    have six' : q.values.size = 6 := by rwa [isQ]
    rw [six']
    decide
  obtain ⟨fails, ends⟩ := replaceChains_exhausts wf' helpers' three' inside' {} {}
  obtain ⟨rfl, same⟩ := ends.of_error run'
  obtain ⟨-, i, mem, reached⟩ := fails.mp ⟨b', run'⟩
  obtain rfl := List.mem_singleton.mp mem
  exact ⟨_, q, b, b', environment, calls, wf, sound.helpers, six, vars, run, isCount.symm, rewrites,
    unreached (.eval 5) List.mem_cons_self,
    unreached (.ret 4) (List.mem_cons_of_mem _ List.mem_cons_self), isQ, reached, run', same⟩

end SecureArith
