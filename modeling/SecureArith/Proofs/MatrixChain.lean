import Mathlib.Data.Finset.Card
import SecureArith.Optimizer
import SecureArith.Proofs.Emission
import SecureArith.Proofs.MatrixChain.Search

set_option autoImplicit false

/-!
# Replacing chains

`Program.Contracts` says what the replacement of one chain does to a program, and
`Program.Contracted` what the replacements of a run do. The program stays well-formed: the operands
of a chain rank below it, so there is room for their tuple in between. No new products are made, so
what is marked may stay marked, and there are rounds enough for a run to end where its values have
no chain (`Program.Exhausts`). A run fails only before anything was replaced.
-/

namespace SecureArith

theorem forall₂_of_mapM {α γ : Type} {l : List α} {h : α → Option γ} {cs : List γ}
    (mapped : l.mapM h = some cs) :
    List.Forall₂ (fun a c => h a = some c) l cs := by
  induction l generalizing cs with
  | nil =>
    cases mapped
    exact .nil
  | cons a l ih =>
    rw [List.mapM_cons] at mapped
    obtain ⟨c, isHead, mapped⟩ := Option.bind_eq_some_iff.mp mapped
    obtain ⟨rest, isRest, mapped⟩ := Option.bind_eq_some_iff.mp mapped
    cases mapped
    exact .cons isHead (ih isRest)

namespace Program

variable {p q r : Program} {id a chain : Nat} {v : Value} {depth : Nat} {operands : List ValueId}

/-- What belongs to a chain: the operands of an operand that is a product, else the operand. -/
def PartOf (p : Program) (depth : Nat) (a : ValueId) (part : List ValueId) : Prop :=
  p.isMatmul? a = some true ∧ p.chainOperands? depth a = some part ∨
    p.isMatmul? a = some false ∧ part = [a]

theorem exists_parts (flattened : p.chainOperands? (depth + 1) id = some operands) :
    ∃ v parts, p.values[id]? = some v ∧ operands = parts.flatten ∧
      List.Forall₂ (p.PartOf depth) (v.operands.take 2) parts := by
  rw [chainOperands?] at flattened
  obtain ⟨v, found, flattened⟩ := Option.bind_eq_some_iff.mp flattened
  obtain ⟨parts, mapped, flattened⟩ := Option.bind_eq_some_iff.mp flattened
  cases flattened
  refine ⟨v, parts, found, rfl, (forall₂_of_mapM mapped).imp fun a part isPart => ?_⟩
  obtain ⟨isMatmul, known, isPart⟩ := Option.bind_eq_some_iff.mp isPart
  cases isMatmul with
  | true => exact .inl ⟨known, isPart⟩
  | false =>
    cases isPart
    exact .inr ⟨known, rfl⟩

theorem RankedBy.chainOperands? {rank : Nat → Nat} (ranked : p.RankedBy rank)
    (flattened : p.chainOperands? depth id = some operands) :
    ∀ a ∈ operands, rank a < rank id := by
  induction depth generalizing id operands with
  | zero => cases flattened
  | succ depth ih =>
    obtain ⟨v, parts, found, rfl, isPart⟩ := exists_parts flattened
    intro a mem
    obtain ⟨part, inParts, inPart⟩ := List.mem_flatten.mp mem
    obtain ⟨x, isOperand, isPart⟩ := exists_of_mem_right isPart inParts
    have less := ranked id v found x (List.mem_of_mem_take isOperand)
    rcases isPart with ⟨-, below⟩ | ⟨-, rfl⟩
    · exact Nat.lt_trans (ih below a inPart) less
    · cases List.mem_singleton.mp inPart
      exact less

theorem WellFormed.chainOperands?_lt (wf : p.WellFormed)
    (flattened : p.chainOperands? depth id = some operands) :
    ∀ a : Nat, a ∈ operands → a < p.values.size := by
  induction depth generalizing id operands with
  | zero => cases flattened
  | succ depth ih =>
    obtain ⟨v, parts, found, rfl, isPart⟩ := exists_parts flattened
    intro a mem
    obtain ⟨part, inParts, inPart⟩ := List.mem_flatten.mp mem
    obtain ⟨x, isOperand, isPart⟩ := exists_of_mem_right isPart inParts
    rcases isPart with ⟨-, below⟩ | ⟨-, rfl⟩
    · exact ih below a inPart
    · cases List.mem_singleton.mp inPart
      exact wf.closed id v found a (List.mem_of_mem_take isOperand)

theorem WellFormed.isSome_chainOperands? (wf : p.WellFormed) (lt : id < p.values.size) :
    (p.chainOperands? p.values.size id).isSome := by
  obtain ⟨rank, ranked, bounded⟩ := wf.exists_rank
  have go (depth id : Nat) (lt : id < p.values.size) (deep : rank id < depth) :
      (p.chainOperands? depth id).isSome := by
    induction depth generalizing id with
    | zero => omega
    | succ depth ih =>
      obtain ⟨v, found⟩ : ∃ v, p.values[id]? = some v := ⟨_, Array.getElem?_eq_getElem lt⟩
      have parts : ((v.operands.take 2).mapM fun a => do
          if ← p.isMatmul? a then p.chainOperands? depth a else return [a]).isSome := by
        apply isSome_mapM
        intro a mem
        have operand := List.mem_of_mem_take mem
        have less := ranked id v found a operand
        have inside := wf.closed id v found a operand
        obtain ⟨x, isMatmul⟩ := Option.isSome_iff_exists.mp (wf.isSome_isMatmul? inside)
        rw [isMatmul]
        cases x with
        | true => exact ih a inside (by omega)
        | false => rfl
      obtain ⟨_, isParts⟩ := Option.isSome_iff_exists.mp parts
      rw [chainOperands?, found]
      change (Option.bind (List.mapM _ _) _).isSome
      rw [isParts]
      rfl
  exact go _ id lt (bounded id lt)

/-- The chain becomes a call of the helper on the environment and a new tuple of operands. -/
def contract (p : Program) (chain read : ValueId) (helper : FuncId) (operands : List ValueId)
    (type : Option TypeName) : Program :=
  (p.addTuple operands).2.replaceValue chain (.call helper [read, p.values.size]) type

section Contract

variable {read : ValueId} {helper : FuncId} {type : Option TypeName} {w : Value}

theorem size_contract :
    (p.contract chain read helper operands type).values.size = p.values.size + 1 := by
  simp [contract, addTuple, replaceValue, push]

theorem getElem?_contract_chain (found : p.values[chain]? = some w) :
    (p.contract chain read helper operands type).values[chain]? =
      some ⟨w.id, type, .call helper [read, p.values.size]⟩ := by
  have lt := (Array.getElem?_eq_some_iff.mp found).1
  rw [contract, replaceValue, Array.getElem?_modify, if_pos rfl, addTuple,
    (extends_push p _ _).kept chain lt, found]
  rfl

theorem getElem?_contract_tuple (lt : chain < p.values.size) :
    (p.contract chain read helper operands type).values[p.values.size]? =
      some ⟨p.values.size, none, .tuple operands⟩ := by
  rw [contract, replaceValue, Array.getElem?_modify, if_neg (Nat.ne_of_lt lt)]
  exact getElem?_push_self p _ _

theorem getElem?_contract_of_ne (lt : id < p.values.size) (ne : id ≠ chain) :
    (p.contract chain read helper operands type).values[id]? = p.values[id]? := by
  rw [contract, replaceValue, Array.getElem?_modify, if_neg ne.symm]
  exact (extends_push p _ _).kept id lt

theorem getElem?_contract_cases (there : p.values[chain]? = some w)
    (found : (p.contract chain read helper operands type).values[id]? = some v) :
    (id = chain ∧ v = ⟨w.id, type, .call helper [read, p.values.size]⟩) ∨
      (id = p.values.size ∧ v = ⟨p.values.size, none, .tuple operands⟩) ∨
      (id ≠ chain ∧ p.values[id]? = some v) := by
  have lt := (Array.getElem?_eq_some_iff.mp there).1
  have inside := (Array.getElem?_eq_some_iff.mp found).1
  rw [size_contract] at inside
  by_cases isChain : id = chain
  · subst isChain
    rw [getElem?_contract_chain there] at found
    exact .inl ⟨rfl, (Option.some.inj found).symm⟩
  · rcases Nat.lt_succ_iff_lt_or_eq.mp inside with old | rfl
    · rw [getElem?_contract_of_ne old isChain] at found
      exact .inr (.inr ⟨isChain, found⟩)
    · rw [getElem?_contract_tuple lt] at found
      exact .inr (.inl ⟨rfl, (Option.some.inj found).symm⟩)

theorem WellFormed.contract {e : Value} {x : VarId} (wf : p.WellFormed)
    (there : p.values[chain]? = some w) (operand : a ∈ w.operands)
    (below : ∀ rank, p.RankedBy rank → ∀ a ∈ operands, rank a < rank chain)
    (inside : ∀ a : Nat, a ∈ operands → a < p.values.size)
    (isRead : p.values[read]? = some e) (kind : e.kind = .var x)
    (callee : ∃ f, p.funcs[helper]? = some f) :
    (p.contract chain read helper operands type).WellFormed := by
  have lt := (Array.getElem?_eq_some_iff.mp there).1
  have readLt := (Array.getElem?_eq_some_iff.mp isRead).1
  have atomic : e.operands = [] := by simp [Value.operands, kind]
  obtain ⟨rank, ranked⟩ := wf.acyclic
  constructor
  case ids =>
    intro id v found
    rcases getElem?_contract_cases there found with ⟨rfl, rfl⟩ | ⟨rfl, rfl⟩ | ⟨-, old⟩
    · exact wf.ids id w there
    · rfl
    · exact wf.ids id v old
  case closed =>
    intro id v found b mem
    rw [size_contract]
    rcases getElem?_contract_cases there found with ⟨rfl, rfl⟩ | ⟨rfl, rfl⟩ | ⟨-, old⟩
    · simp only [Value.operands, List.mem_cons, List.not_mem_nil, or_false] at mem
      rcases mem with rfl | rfl
      · exact Nat.lt_succ_of_lt readLt
      · exact Nat.lt_succ_self _
    · exact Nat.lt_succ_of_lt (inside b mem)
    · exact Nat.lt_succ_of_lt (wf.closed id v old b mem)
  case acyclic =>
    -- Doubled ranks leave room for the tuple right below the chain; the read of the environment goes
    -- to the bottom.
    let rank' (i : Nat) : Nat :=
      if i = read then 0 else if i = p.values.size then 2 * rank chain - 1 else 2 * rank i
    have lifted {i : Nat} (lt : i < p.values.size) : rank' i ≤ 2 * rank i := by
      simp only [rank', Nat.ne_of_lt lt, if_false]
      split <;> omega
    have lifted_eq {i : Nat} (lt : i < p.values.size) (other : i ≠ read) : rank' i = 2 * rank i := by
      simp only [rank', Nat.ne_of_lt lt, other, if_false]
    have notRead {i : Nat} {u : Value} (found : p.values[i]? = some u) {b : Nat}
        (mem : b ∈ u.operands) : i ≠ read := by
      rintro rfl
      cases isRead.symm.trans found
      rw [atomic] at mem
      cases mem
    have chainRank : rank' chain = 2 * rank chain := lifted_eq lt (notRead there operand)
    have positive := ranked chain w there a operand
    have readRank : rank' read = 0 := by simp [rank']
    have tupleRank : rank' p.values.size = 2 * rank chain - 1 := by
      simp [rank', Nat.ne_of_gt readLt]
    refine ⟨rank', fun id v found b mem => ?_⟩
    rcases getElem?_contract_cases there found with ⟨rfl, rfl⟩ | ⟨rfl, rfl⟩ | ⟨-, old⟩
    · simp only [Value.operands, List.mem_cons, List.not_mem_nil, or_false] at mem
      rcases mem with rfl | rfl <;> omega
    · have less := below rank ranked b mem
      have := lifted (inside b mem)
      omega
    · have less := ranked id v old b mem
      have := lifted (wf.closed id v old b mem)
      rw [lifted_eq (Array.getElem?_eq_some_iff.mp old).1 (notRead old mem)]
      omega
  case callees =>
    intro id v func args found isCall
    rcases getElem?_contract_cases there found with ⟨rfl, rfl⟩ | ⟨rfl, rfl⟩ | ⟨-, old⟩
    · cases isCall
      exact callee
    · cases isCall
    · exact wf.callees id v func args old isCall
  case operators => exact wf.operators

end Contract

/-- The read of the environment is known, or it is appended. -/
inductive ReadsEnvironment (mpc : VarId) (p : Program) : Option ValueId → Program → ValueId → Prop
  | known (read : ValueId) : ReadsEnvironment mpc p (some read) p read
  | new {x : Var} (found : p.vars[mpc]? = some x) :
      ReadsEnvironment mpc p none (p.addRead mpc).2 p.values.size

/-- One chain is contracted. -/
inductive Contracts (mpc : VarId) (p : Program) (environment : Option ValueId) (chain : ValueId) :
    Program → ValueId → Prop
  | intro {r : Program} {read : ValueId} {helper : FuncId} {operands : List ValueId}
      {type : Option TypeName} (isChain : p.isChain? chain = some true)
      (flattened : p.chainOperands? p.values.size chain = some operands)
      (isHelper : p.helper? MatrixChain.helperName = some helper)
      (reads : p.ReadsEnvironment mpc environment r read) :
      Contracts mpc p environment chain (r.contract chain read helper operands type) read

/-- Chains are contracted one after the other, with one read of the environment for all. -/
inductive Contracted (mpc : VarId) : Program → Option ValueId → Program → Option ValueId → Prop
  | refl (p : Program) (environment : Option ValueId) : Contracted mpc p environment p environment
  | step {p q r : Program} {environment environment' : Option ValueId} {chain read : ValueId}
      (first : p.Contracts mpc environment chain q read)
      (rest : Contracted mpc q (some read) r environment') :
      Contracted mpc p environment r environment'

theorem Contracted.trans {mpc : VarId} {e e' e'' : Option ValueId}
    (h : Contracted mpc p e q e') (h' : Contracted mpc q e' r e'') : Contracted mpc p e r e'' := by
  induction h with
  | refl => exact h'
  | step first _ ih => exact .step first (ih h')

/-- The first chain of a value is contracted until it has none, a number of times. -/
inductive Exhausts (mpc : VarId) (root : Nat) :
    Program → Option ValueId → Nat → Program → Option ValueId → Prop
  | done {p : Program} {environment : Option ValueId} (none : p.firstChain? root = some none) :
      Exhausts mpc root p environment 0 p environment
  | step {p q r : Program} {environment environment' : Option ValueId} {chain read : ValueId}
      {n : Nat} (found : p.firstChain? root = some (some chain))
      (first : p.Contracts mpc environment chain q read)
      (rest : Exhausts mpc root q (some read) n r environment') :
      Exhausts mpc root p environment (n + 1) r environment'

/-- Several values are exhausted, one after the other. -/
inductive ExhaustsAll (mpc : VarId) :
    List ValueId → Program → Option ValueId → Nat → Program → Option ValueId → Prop
  | nil {p : Program} {environment : Option ValueId} :
      ExhaustsAll mpc [] p environment 0 p environment
  | cons {p q r : Program} {e e' e'' : Option ValueId} {root : ValueId} {roots : List ValueId}
      {m n : Nat} (first : Exhausts mpc root p e m q e') (rest : ExhaustsAll mpc roots q e' n r e'') :
      ExhaustsAll mpc (root :: roots) p e (m + n) r e''

theorem Exhausts.contracted {mpc : VarId} {root n : Nat} {e e' : Option ValueId}
    (h : Exhausts mpc root p e n q e') : Contracted mpc p e q e' := by
  induction h with
  | done => exact .refl _ _
  | step _ first _ ih => exact .step first ih

theorem ExhaustsAll.contracted {mpc : VarId} {roots : List ValueId} {n : Nat}
    {e e' : Option ValueId} (h : ExhaustsAll mpc roots p e n q e') : Contracted mpc p e q e' := by
  induction h with
  | nil => exact .refl _ _
  | cons first _ ih => exact first.contracted.trans ih

/-- A well-formed program in which the environment is read as it should be. -/
structure Chainable (p : Program) (environment : Option ValueId) : Prop extends WellFormed p where
  helpers : p.NamesHelpers
  read : ∀ v ∈ environment, ∃ e x, p.values[v]? = some e ∧ e.kind = .var x

theorem WellFormed.chainable (wf : p.WellFormed) (helpers : p.NamesHelpers) : p.Chainable none :=
  ⟨wf, helpers, fun v mem => absurd mem (Option.not_mem_none v)⟩

section Contracts

variable {mpc : VarId} {environment environment' : Option ValueId} {read : ValueId}

theorem ReadsEnvironment.extends (h : p.ReadsEnvironment mpc environment r read) : p.Extends r := by
  cases h with
  | known => exact .refl p
  | new => exact extends_push p _ _

theorem ReadsEnvironment.chainable (h : p.ReadsEnvironment mpc environment r read)
    (ready : p.Chainable environment) : r.Chainable (some read) := by
  cases h with
  | known => exact ready
  | new =>
    have wf : (p.addRead mpc).2.WellFormed := ready.push _ _ (by simp [Value.operands]) nofun
    refine ⟨wf, ready.helpers, ?_⟩
    rintro _ ⟨⟩
    exact ⟨_, mpc, getElem?_push_self p _ _, rfl⟩

theorem Extends.rankedBy (ext : p.Extends r) {rank : Nat → Nat} (ranked : r.RankedBy rank) :
    p.RankedBy rank := fun id v found =>
  ranked id v ((ext.kept id (Array.getElem?_eq_some_iff.mp found).1).trans found)

theorem Contracts.chainable (h : p.Contracts mpc environment chain q read)
    (ready : p.Chainable environment) : q.Chainable (some read) := by
  obtain ⟨isChain, flattened, isHelper, reads⟩ := h
  rename_i r helper operands type
  have ext := reads.extends
  have ready' := reads.chainable ready
  obtain ⟨w, found⟩ := exists_of_isChain? isChain
  obtain ⟨-, a, operand, -⟩ := (ready.isChain?_eq_true_iff found).mp isChain
  have lt := (Array.getElem?_eq_some_iff.mp found).1
  have there := (ext.kept chain lt).trans found
  obtain ⟨e, x, isRead, kind⟩ := ready'.read read rfl
  obtain ⟨f, callee, -⟩ := ready.helpers _ helper (mem_of_lookup isHelper)
  have wf : (r.contract chain read helper operands type).WellFormed := by
    apply ready'.contract there operand
    · exact fun rank ranked => (ext.rankedBy ranked).chainOperands? flattened
    · exact fun a mem => Nat.lt_of_lt_of_le (ready.chainOperands?_lt flattened a mem) ext.grows
    · exact isRead
    · exact kind
    · exact ⟨f, ext.funcs_eq ▸ callee⟩
  refine ⟨wf, ready'.helpers, ?_⟩
  rintro _ ⟨⟩
  have other : read ≠ chain := by
    rintro rfl
    cases there.symm.trans isRead
    rw [Value.operands, kind] at operand
    cases operand
  refine ⟨e, x, ?_, kind⟩
  rw [getElem?_contract_of_ne (Array.getElem?_eq_some_iff.mp isRead).1 other]
  exact isRead

/-- What a chain is replaced by is no product, since the helper has a name of its own. -/
theorem Contracts.exists_replacement (h : p.Contracts mpc environment chain q read)
    (ready : p.Chainable environment) : ∃ w, q.values[chain]? = some w ∧ ¬ q.IsMatmul w := by
  obtain ⟨isChain, -, isHelper, reads⟩ := h
  rename_i r helper operands type
  have ext := reads.extends
  obtain ⟨w, found⟩ := exists_of_isChain? isChain
  have there := (ext.kept chain (Array.getElem?_eq_some_iff.mp found).1).trans found
  refine ⟨_, getElem?_contract_chain there, ?_⟩
  rintro ⟨func, a, rest, kind, name⟩
  cases kind
  obtain ⟨f, callee, isName⟩ := ready.helpers _ _ (mem_of_lookup isHelper)
  change (r.funcs[helper]?).map (·.name) = _ at name
  rw [ext.funcs_eq, callee, Option.map_some, isName] at name
  exact absurd (Option.some.inj name) (by decide)

theorem Contracts.kept {id : Nat} (h : p.Contracts mpc environment chain q read)
    (lt : id < p.values.size) (other : id ≠ chain) : q.values[id]? = p.values[id]? := by
  obtain ⟨-, -, -, reads⟩ := h
  have ext := reads.extends
  exact (getElem?_contract_of_ne (Nat.lt_of_lt_of_le lt ext.grows) other).trans (ext.kept id lt)

theorem Contracted.chainable (h : Contracted mpc p environment q environment')
    (ready : p.Chainable environment) : q.Chainable environment' := by
  induction h with
  | refl => exact ready
  | step first _ ih => exact ih (first.chainable ready)

theorem Contracts.tables (h : p.Contracts mpc environment chain q read) :
    { q with values := p.values } = p := by
  obtain ⟨-, -, -, reads⟩ := h
  exact reads.extends.tables

theorem Contracts.grows (h : p.Contracts mpc environment chain q read) :
    p.values.size ≤ q.values.size := by
  obtain ⟨-, -, -, reads⟩ := h
  rw [size_contract]
  exact Nat.le_succ_of_le reads.extends.grows

theorem Contracted.grows (h : Contracted mpc p environment q environment') :
    p.values.size ≤ q.values.size := by
  induction h with
  | refl => exact Nat.le_refl _
  | step first _ ih => exact Nat.le_trans first.grows ih

theorem Contracted.tables (h : Contracted mpc p environment q environment') :
    { q with values := p.values } = p := by
  induction h with
  | refl => rfl
  | step first _ ih => exact tables_trans first.tables ih

theorem Contracts.helpers_eq (h : p.Contracts mpc environment chain q read) :
    q.helpers = p.helpers := by
  simpa only using congrArg Program.helpers h.tables

def matmuls (p : Program) : Finset Nat :=
  (Finset.range p.values.size).filter fun id => p.isMatmul? id = some true

theorem mem_matmuls : a ∈ p.matmuls ↔ p.isMatmul? a = some true := by
  rw [matmuls, Finset.mem_filter, Finset.mem_range]
  refine ⟨fun h => h.2, fun isMatmul => ⟨?_, isMatmul⟩⟩
  obtain ⟨v, found, -⟩ := isMatmul?_eq_true_iff.mp isMatmul
  exact (Array.getElem?_eq_some_iff.mp found).1

theorem card_matmuls_le (p : Program) : p.matmuls.card ≤ p.values.size := by
  calc p.matmuls.card
    _ ≤ (Finset.range p.values.size).card := Finset.card_filter_le _ _
    _ = p.values.size := Finset.card_range _

theorem Contracts.chain_mem_matmuls (h : p.Contracts mpc environment chain q read)
    (ready : p.Chainable environment) : chain ∈ p.matmuls := by
  obtain ⟨isChain, -, -, -⟩ := h
  obtain ⟨w, found⟩ := exists_of_isChain? isChain
  have isMatmul := ((ready.isChain?_eq_true_iff found).mp isChain).1
  exact mem_matmuls.mpr (isMatmul?_eq_true_iff.mpr ⟨w, found, isMatmul⟩)

theorem Contracts.matmuls_subset (h : p.Contracts mpc environment chain q read)
    (ready : p.Chainable environment) : q.matmuls ⊆ p.matmuls.erase chain := by
  have tables := h.tables
  have notMatmul : chain ∉ q.matmuls := by
    intro mem
    obtain ⟨w, found, other⟩ := h.exists_replacement ready
    obtain ⟨v, now, product⟩ := isMatmul?_eq_true_iff.mp (mem_matmuls.mp mem)
    cases now.symm.trans found
    exact other product
  obtain ⟨isChain, -, -, reads⟩ := h
  obtain ⟨w, found⟩ := exists_of_isChain? isChain
  have there := (reads.extends.kept chain (Array.getElem?_eq_some_iff.mp found).1).trans found
  intro id mem
  have other : id ≠ chain := fun eq => notMatmul (eq ▸ mem)
  obtain ⟨v, now, product⟩ := isMatmul?_eq_true_iff.mp (mem_matmuls.mp mem)
  refine Finset.mem_erase.mpr ⟨other, mem_matmuls.mpr (isMatmul?_eq_true_iff.mpr
    ⟨v, ?_, (isMatmul_congr tables).mp product⟩)⟩
  obtain ⟨func, x, rest, kind, -⟩ := product
  rcases getElem?_contract_cases there now with ⟨same, -⟩ | ⟨-, rfl⟩ | ⟨-, old⟩
  · exact absurd same other
  · cases kind
  · cases reads with
    | known => exact old
    | new =>
      rcases getElem?_push_cases old with ⟨-, rfl⟩ | old
      · cases kind
      · exact old

/-- A contraction leaves one product less. -/
theorem Contracts.card_matmuls_lt (h : p.Contracts mpc environment chain q read)
    (ready : p.Chainable environment) : q.matmuls.card < p.matmuls.card :=
  Nat.lt_of_le_of_lt (Finset.card_le_card (h.matmuls_subset ready))
    (Finset.card_erase_lt_of_mem (h.chain_mem_matmuls ready))

theorem Contracts.marked {marks : Marks} (h : p.Contracts mpc environment chain q read)
    (ready : p.Chainable environment) (marked : p.Marked marks) : q.Marked marks where
  inside := Nat.le_trans marked.inside h.grows
  other id isMarked isChain := by
    obtain ⟨v, found, isChain⟩ := (h.chainable ready).isChain?_iff.mp isChain
    have kept (a : Nat) (w : Value) (isValue : q.values[a]? = some w) (isMatmul : q.IsMatmul w) :
        p.values[a]? = some w := by
      have product := mem_matmuls.mpr (isMatmul?_eq_true_iff.mpr ⟨w, isValue, isMatmul⟩)
      obtain ⟨other, product⟩ := Finset.mem_erase.mp (h.matmuls_subset ready product)
      obtain ⟨u, there, -⟩ := isMatmul?_eq_true_iff.mp (mem_matmuls.mp product)
      rw [← h.kept (Array.getElem?_eq_some_iff.mp there).1 other, isValue]
    exact marked.other id isMarked
      (ready.isChain?_iff.mpr ⟨v, isChain_of_isChain h.tables kept found isChain⟩)

end Contracts

end Program

namespace Work

open Program

variable {mpc : VarId} {environment : Option ValueId} {chain root : Nat} {b : Bench} {n : Nat}
  {roots : List ValueId}

/-- No chain can be replaced: there is no helper, or the environment cannot be read. -/
def Blocked (mpc : VarId) (p : Program) (environment : Option ValueId) (e : Failure) : Prop :=
  (e = .missingHelper MatrixChain.helperName ∧ p.helper? MatrixChain.helperName = none) ∨
    (e = .outOfRange ∧ environment = none ∧ p.vars[mpc]? = none)

theorem not_blocked_of_contracts {p q : Program} {read : ValueId} {e : Failure}
    (h : p.Contracts mpc environment chain q read) : ¬ Blocked mpc q (some read) e := by
  have helpers := h.helpers_eq
  obtain ⟨-, -, isHelper, -⟩ := h
  rintro (⟨-, missing⟩ | ⟨-, none, -⟩)
  · rw [helper?, helpers] at missing
    exact absurd (isHelper.symm.trans missing) nofun
  · cases none

theorem eq_of_contracted_of_blocked {p q : Program} {environment' : Option ValueId} {e : Failure}
    (h : Contracted mpc p environment q environment') (blocked : Blocked mpc q environment' e) :
    q = p ∧ environment' = environment := by
  induction h with
  | refl => exact ⟨rfl, rfl⟩
  | step first _ ih =>
    obtain ⟨rfl, rfl⟩ := ih blocked
    exact absurd blocked (not_blocked_of_contracts first)

theorem ends_readEnvironment :
    Ends (readEnvironment mpc environment) b
      (fun read b' => b.program.ReadsEnvironment mpc environment b'.program read)
      fun e b' => b'.program = b.program ∧ e = .outOfRange ∧ environment = none ∧
        b.program.vars[mpc]? = none := by
  cases environment with
  | some v => exact .known v
  | none =>
    rw [readEnvironment, addRead, Ends.bind_iff, Ends.get_iff, Ends.bind_iff]
    apply ends_demand
    · intro x found
      rw [ends_onProgram]
      exact .new found
    · exact fun absent => ⟨rfl, rfl, rfl, absent⟩

theorem ends_replaceChain (ready : b.program.Chainable environment)
    (isChain : b.program.isChain? chain = some true) :
    Ends (replaceChain mpc environment chain) b
      (fun read b' => b.program.Contracts mpc environment chain b'.program read)
      fun e b' => b'.program = b.program ∧ Blocked mpc b.program environment e := by
  obtain ⟨w, found⟩ := exists_of_isChain? isChain
  have lt := (Array.getElem?_eq_some_iff.mp found).1
  have defined := ready.isSome_chainOperands? lt
  rw [replaceChain, Ends.bind_iff, Ends.get_iff, Ends.bind_iff]
  apply ends_demand
  · intro operands flattened
    split
    · rename_i missing
      exact ⟨rfl, .inl ⟨rfl, missing⟩⟩
    · rename_i helper isHelper
      obtain ⟨f, isCallee, -⟩ := ready.helpers _ helper (mem_of_lookup isHelper)
      rw [Ends.bind_iff, isCallee, demand, Ends.pure_iff, ← isCallee, Ends.bind_iff]
      apply ends_readEnvironment.imp
      · intro read b₁ reads
        have tupled := extends_push b₁.program none (.tuple operands)
        have there := (reads.extends.trans tupled).kept chain lt
        rw [Ends.bind_iff, ends_onProgram, Ends.bind_iff, replaceValue, Ends.bind_iff]
        refine ends_value (there.trans found) ?_
        rw [ends_onProgram, Ends.bind_iff, note, Ends.modify_iff, Ends.pure_iff]
        exact .intro isChain flattened isHelper reads
      · rintro e b₁ ⟨same, kind, unknown, absent⟩
        exact ⟨same, .inr ⟨kind, unknown, absent⟩⟩
  · intro absent
    rw [absent] at defined
    cases defined

/-- The chains of one value, whatever has been marked. Each replacement leaves one product less, so
there are enough rounds. -/
theorem ends_replaceChainsAt {marks : Marks} (ready : b.program.Chainable environment)
    (marked : b.program.Marked marks) (enough : b.program.matmuls.card < n) :
    Ends (replaceChainsAt mpc root n marks environment) b
      (fun out b' => Exhausts mpc root b.program environment out.1 b'.program out.2)
      fun e b' => root < b.program.values.size → b'.program = b.program ∧
        Blocked mpc b.program environment e ∧
        ∃ chain, b.program.firstChain? root = some (some chain) := by
  induction n generalizing b environment marks with
  | zero => exact absurd enough (Nat.not_lt_zero _)
  | succ n ih =>
    obtain ⟨marks', next, marked'⟩ := ready.nextChain?_eq marked root
    rw [replaceChainsAt, Ends.bind_iff, Ends.get_iff, Ends.bind_iff, next]
    cases first : b.program.firstChain? root with
    | none =>
      intro lt
      have defined := ready.isSome_firstChain? lt
      rw [first] at defined
      cases defined
    | some found =>
      cases found with
      | none => exact .done first
      | some chain =>
        change Ends (replaceChain mpc environment chain >>= _) b _ _
        rw [Ends.bind_iff]
        apply (ends_replaceChain ready (isChain?_of_firstChain? first)).imp
        · intro read b₁ contracts
          have fewer := contracts.card_matmuls_lt ready
          rw [Ends.bind_iff]
          apply (ih (contracts.chainable ready) (contracts.marked ready marked') (by omega)).imp
          · exact fun out b₂ rest => .step first contracts rest
          · intro e b₂ fails lt
            obtain ⟨-, blocked, -⟩ := fails (Nat.lt_of_lt_of_le lt contracts.grows)
            exact absurd blocked (not_blocked_of_contracts contracts)
        · exact fun e b₁ fails _ => ⟨fails.1, fails.2, chain, rfl⟩

theorem ends_replaceChains (ready : b.program.Chainable environment) :
    Ends (replaceChains mpc roots environment) b
      (fun count b' => ∃ environment',
        ExhaustsAll mpc roots b.program environment count b'.program environment')
      fun e b' => (∀ root : Nat, root ∈ roots → root < b.program.values.size) →
        b'.program = b.program ∧ Blocked mpc b.program environment e ∧
        ∃ root ∈ roots, ∃ chain, b.program.firstChain? root = some (some chain) := by
  induction roots generalizing b environment with
  | nil => exact ⟨_, .nil⟩
  | cons root roots ih =>
    have enough := Nat.lt_succ_of_le b.program.card_matmuls_le
    rw [replaceChains, Ends.bind_iff, Ends.get_iff, Ends.bind_iff]
    apply (ends_replaceChainsAt ready b.program.marked_replicate enough).imp
    · rintro ⟨count, environment'⟩ b₁ exhausts
      have contracted := exhausts.contracted
      dsimp only at exhausts contracted ⊢
      rw [Ends.bind_iff]
      apply (ih (contracted.chainable ready)).imp
      · rintro _ b₂ ⟨environment'', rest⟩
        exact ⟨environment'', .cons exhausts rest⟩
      · intro e b₂ fails inside
        obtain ⟨same, blocked, root', mem, reached⟩ := fails fun root mem =>
          Nat.lt_of_lt_of_le (inside root (List.mem_cons_of_mem _ mem)) contracted.grows
        obtain ⟨eq, rfl⟩ := eq_of_contracted_of_blocked contracted blocked
        rw [eq] at same blocked reached
        exact ⟨same, blocked, root', List.mem_cons_of_mem root mem, reached⟩
    · intro e b₁ fails inside
      obtain ⟨same, blocked, reached⟩ := fails (inside root List.mem_cons_self)
      exact ⟨same, blocked, root, List.mem_cons_self, reached⟩

theorem ends_replaceChainsOf {s : Settings} {f : Function} {body : List Instruction}
    (ready : b.program.Chainable none) (inside : ∀ i ∈ body, i.value < b.program.values.size) :
    Ends (replaceChainsOf s f body) b
      (fun _ b' => (∃ mpc environment, Contracted mpc b.program none b'.program environment) ∧
        (s.replacesChainsOf f = false → b'.program = b.program))
      fun e b' => b'.program = b.program ∧ ∃ mpc ∈ f.mpc, Blocked mpc b.program none e := by
  have kept : (∃ mpc environment, Contracted mpc b.program none b.program environment) ∧
      (s.replacesChainsOf f = false → b.program = b.program) :=
    ⟨⟨0, none, .refl _ _⟩, fun _ => rfl⟩
  rw [replaceChainsOf, Ends.ite_iff]
  refine ⟨fun on => ?_, fun _ => kept⟩
  split
  · rename_i mpc isMpc
    apply (ends_replaceChains ready).imp
    · rintro _ b' ⟨environment, exhausts⟩
      exact ⟨⟨mpc, environment, exhausts.contracted⟩, fun off => absurd (on.symm.trans off) nofun⟩
    · intro e b' fails
      obtain ⟨same, blocked, -⟩ := fails fun root mem => by
        obtain ⟨i, inBody, rfl⟩ := List.mem_map.mp mem
        exact inside i inBody
      exact ⟨same, mpc, isMpc, blocked⟩
  · exact kept

section Forest

def KeepsForest {α : Type} (x : Work α) : Prop :=
  ∀ b, Ends x b (fun _ b' => b'.forest = b.forest) fun _ b' => b'.forest = b.forest

theorem KeepsForest.bind {α β : Type} {x : Work α} {f : α → Work β} (first : KeepsForest x)
    (next : ∀ a, KeepsForest (f a)) : KeepsForest (x >>= f) := by
  intro b
  rw [Ends.bind_iff]
  refine (first b).imp (fun a b' same => ?_) fun _ _ same => same
  rw [← same]
  exact next a b'

theorem keepsForest_pure {α : Type} (a : α) : KeepsForest (pure a) := fun _ => rfl

theorem keepsForest_get : KeepsForest get := fun _ => rfl

theorem keepsForest_throw {α : Type} (e : Failure) : KeepsForest (throw e : Work α) := fun _ => rfl

theorem keepsForest_note (e : Event) : KeepsForest (note e) := fun _ => rfl

theorem keepsForest_onProgram {α : Type} (f : Program → α × Program) :
    KeepsForest (onProgram f) := fun _ => rfl

theorem keepsForest_demand {α : Type} (x : Option α) : KeepsForest (demand x) := by
  cases x with
  | none => exact keepsForest_throw _
  | some a => exact keepsForest_pure a

theorem keepsForest_readEnvironment (mpc : VarId) (environment : Option ValueId) :
    KeepsForest (readEnvironment mpc environment) := by
  cases environment with
  | some v => exact keepsForest_pure v
  | none =>
    exact keepsForest_get.bind fun _ => (keepsForest_demand _).bind fun _ =>
      keepsForest_onProgram _

theorem keepsForest_replaceValue (id : ValueId) (kind : ValueKind) (type : Option TypeName) :
    KeepsForest (replaceValue id kind type) := by
  refine KeepsForest.bind (keepsForest_get.bind fun _ => keepsForest_demand _) fun _ => ?_
  exact keepsForest_onProgram _

theorem keepsForest_replaceChain (mpc : VarId) (environment : Option ValueId) (chain : ValueId) :
    KeepsForest (replaceChain mpc environment chain) := by
  refine keepsForest_get.bind fun b => (keepsForest_demand _).bind fun operands => ?_
  split
  · exact keepsForest_throw _
  · exact (keepsForest_demand _).bind fun _ => (keepsForest_readEnvironment mpc _).bind fun _ =>
      (keepsForest_onProgram _).bind fun _ => (keepsForest_replaceValue _ _ _).bind fun _ =>
        (keepsForest_note _).bind fun _ => keepsForest_pure _

theorem keepsForest_replaceChainsAt (mpc : VarId) (root : ValueId) (n : Nat) (marks : Marks)
    (environment : Option ValueId) :
    KeepsForest (replaceChainsAt mpc root n marks environment) := by
  induction n generalizing marks environment with
  | zero => exact keepsForest_pure _
  | succ n ih =>
    refine keepsForest_get.bind fun b => (keepsForest_demand _).bind fun next => ?_
    split
    · exact keepsForest_pure _
    · exact (keepsForest_replaceChain mpc _ _).bind fun _ => (ih _ _).bind fun _ =>
        keepsForest_pure _

theorem keepsForest_replaceChains (mpc : VarId) (roots : List ValueId)
    (environment : Option ValueId) : KeepsForest (replaceChains mpc roots environment) := by
  induction roots generalizing environment with
  | nil => exact keepsForest_pure _
  | cons root rest ih =>
    exact keepsForest_get.bind fun _ => (keepsForest_replaceChainsAt mpc root _ _ _).bind fun _ =>
      (ih _).bind fun _ => keepsForest_pure _

theorem keepsForest_replaceChainsOf (s : Settings) (f : Function) (body : List Instruction) :
    KeepsForest (replaceChainsOf s f body) := by
  unfold replaceChainsOf
  split
  · split
    · exact keepsForest_replaceChains _ _ _
    · exact (keepsForest_note _).bind fun _ => keepsForest_pure _
  · exact keepsForest_pure _

end Forest

end Work

end SecureArith
