import Mathlib.Algebra.FreeMonoid.Basic
import SecureArith.Proofs.Lowering
import SecureArith.Proofs.MatrixChain

set_option autoImplicit false

/-!
# Contracted chains compute the same

Where products are those of a semigroup and the helper multiplies the elements of its tuple in
order, all values compute what they did before chains were replaced, however many of them share the
chains and their operands.
-/

namespace SecureArith

universe u

variable {R : Type u} [Semigroup R] {I : Interpretation R} {env : Env R}

/-- Products are those of a semigroup, and the helper multiplies the elements of its tuple in order.
Nothing is asked of other callees or of tuples. -/
structure Interpretation.Multiplies (I : Interpretation R) : Prop where
  matmul : ∀ a b, I.call Operator.matmul.name [a, b] = a * b
  chain : ∀ m x xs, I.call MatrixChain.helperName [m, I.tuple (x :: xs)] = xs.foldl (· * ·) x

namespace Program

variable {p q : Program} {id : Nat} {operands operands' : List ValueId} {x y : R} {depth : Nat}

/-- Every matrix multiplication has two operands. -/
def BinaryMatmuls (p : Program) : Prop :=
  ∀ (id : Nat) (v : Value) (func : FuncId) (args : List ValueId), p.values[id]? = some v →
    v.kind = .call func args → p.funcName? func = some Operator.matmul.name → args.length = 2

instance (p : Program) : Decidable p.BinaryMatmuls :=
  decidable_of_iff (p.values.all fun v => match v.kind with
      | .call func args => p.funcName? func != some Operator.matmul.name || args.length == 2
      | _ => true) (by
    rw [Array.all_eq_true_iff_forall_mem]
    refine ⟨fun all id v func args found kind name => ?_, fun binary v mem => ?_⟩
    · simpa [kind, name] using all v (Array.mem_of_getElem? found)
    · obtain ⟨id, found⟩ := Array.mem_iff_getElem?.mp mem
      have binary := binary id v
      split <;> grind)

/-- What the values compute, multiplied in order, is the element. -/
def Multiplied (I : Interpretation R) (env : Env R) (p : Program) (operands : List ValueId)
    (x : R) : Prop :=
  ∃ y ys, operands.mapM (p.eval? I env) = some (y :: ys) ∧ ys.foldl (· * ·) y = x

theorem multiplied_singleton (found : p.eval? I env id = some x) :
    p.Multiplied I env [id] x := by
  refine ⟨x, [], ?_, rfl⟩
  rw [List.mapM_cons, found]
  rfl

theorem Multiplied.append (h : p.Multiplied I env operands x)
    (h' : p.Multiplied I env operands' y) : p.Multiplied I env (operands ++ operands') (x * y) := by
  obtain ⟨a, as, left, rfl⟩ := h
  obtain ⟨b, bs, right, rfl⟩ := h'
  refine ⟨a, as ++ b :: bs, ?_, ?_⟩
  · rw [List.mapM_append, left, right]
    rfl
  · rw [List.foldl_append, List.foldl_cons, List.foldl_assoc]

/-- A product computes what its flattened operands do, multiplied in order. -/
theorem WellFormed.multiplied_chainOperands? (wf : p.WellFormed) (binary : p.BinaryMatmuls)
    (laws : I.Multiplies) (isMatmul : p.isMatmul? id = some true)
    (flattened : p.chainOperands? depth id = some operands) :
    ∃ x, p.eval? I env id = some x ∧ p.Multiplied I env operands x := by
  induction depth generalizing id operands with
  | zero => cases flattened
  | succ depth ih =>
    obtain ⟨v, parts, found, rfl, isParts⟩ := exists_parts flattened
    obtain ⟨v', found', func, a, rest, kind, name⟩ := isMatmul?_eq_true_iff.mp isMatmul
    cases found.symm.trans found'
    have two := binary id v func _ found kind name
    obtain ⟨b, rfl⟩ : ∃ b, rest = [b] := List.length_eq_one_iff.mp (by simpa using two)
    have operands : v.operands = [a, b] := by simp [Value.operands, kind]
    rw [operands] at isParts
    obtain ⟨left, _, isLeft, isRest, rfl⟩ := List.forall₂_cons_left_iff.mp isParts
    obtain ⟨right, _, isRight, isNil, rfl⟩ := List.forall₂_cons_left_iff.mp isRest
    cases isNil
    have part {a : Nat} {part : List ValueId} (mem : a ∈ v.operands)
        (isPart : p.PartOf depth a part) :
        ∃ x, p.eval? I env a = some x ∧ p.Multiplied I env part x := by
      rcases isPart with ⟨known, below⟩ | ⟨-, rfl⟩
      · exact ih known below
      · have defined : (p.eval? I env a).isSome := wf.isSome_eval? (wf.closed id v found a mem)
        obtain ⟨x, yields⟩ := Option.isSome_iff_exists.mp defined
        exact ⟨x, yields, multiplied_singleton yields⟩
    obtain ⟨x, yieldsLeft, multipliedLeft⟩ := part (by simp [operands]) isLeft
    obtain ⟨y, yieldsRight, multipliedRight⟩ := part (by simp [operands]) isRight
    refine ⟨x * y, ?_, ?_⟩
    · rw [wf.eval?_eq found]
      simp [evalWith, kind, name, yieldsLeft, yieldsRight, laws.matmul]
    · simpa using multipliedLeft.append multipliedRight

variable {mpc : VarId} {environment environment' : Option ValueId} {chain read : ValueId}

theorem Contracts.binaryMatmuls (h : p.Contracts mpc environment chain q read)
    (binary : p.BinaryMatmuls) : q.BinaryMatmuls := by
  obtain ⟨isChain, -, -, reads⟩ := h
  rename_i r helper operands type
  have ext := reads.extends
  obtain ⟨w, found⟩ := exists_of_isChain? isChain
  have there := (ext.kept chain (Array.getElem?_eq_some_iff.mp found).1).trans found
  intro id v func args isValue kind name
  rcases getElem?_contract_cases there isValue with ⟨-, rfl⟩ | ⟨-, rfl⟩ | ⟨-, old⟩
  · cases kind
    rfl
  · cases kind
  · cases reads with
    | known => exact binary id v func args old kind name
    | new =>
      rcases getElem?_push_cases old with ⟨-, rfl⟩ | old
      · cases kind
      · exact binary id v func args old kind name

theorem Multiplied.mono (h : p.Multiplied I env operands x)
    (same : ∀ a ∈ operands, q.eval? I env a = p.eval? I env a) : q.Multiplied I env operands x := by
  obtain ⟨y, ys, mapped, isProduct⟩ := h
  refine ⟨y, ys, ?_, isProduct⟩
  rw [mapM_congr same, mapped]

theorem eval?_contract_chain {helper : FuncId} {type : Option TypeName} {e w : Value} {v : VarId}
    (wf : (p.contract chain read helper operands type).WellFormed) (laws : I.Multiplies)
    (there : p.values[chain]? = some w) (isRead : p.values[read]? = some e) (isVar : e.kind = .var v)
    (other : read ≠ chain) (name : p.funcName? helper = some MatrixChain.helperName)
    (product : (p.contract chain read helper operands type).Multiplied I env operands x) :
    (p.contract chain read helper operands type).eval? I env chain = some x := by
  obtain ⟨y, ys, mapped, rfl⟩ := product
  have lt := (Array.getElem?_eq_some_iff.mp there).1
  have isTuple : (p.contract chain read helper operands type).eval? I env p.values.size =
      some (I.tuple (y :: ys)) := by
    rw [wf.eval?_eq (getElem?_contract_tuple lt)]
    simp only [evalWith, mapped, Option.map_some]
  have isEnvironment : (p.contract chain read helper operands type).eval? I env read =
      some (env v) := by
    have readLt := (Array.getElem?_eq_some_iff.mp isRead).1
    rw [wf.eval?_eq ((getElem?_contract_of_ne readLt other).trans isRead)]
    simp only [evalWith, isVar]
  have isCall : (p.contract chain read helper operands type).funcName? helper =
      some MatrixChain.helperName := name
  rw [wf.eval?_eq (getElem?_contract_chain there)]
  simp [evalWith, isCall, isEnvironment, isTuple, laws.chain]

/-- Contracting a chain leaves the meaning of all values as it was. -/
theorem Contracts.eval?_eq (h : p.Contracts mpc environment chain q read)
    (ready : p.Chainable environment) (binary : p.BinaryMatmuls) (laws : I.Multiplies)
    (lt : id < p.values.size) : q.eval? I env id = p.eval? I env id := by
  have wf := (h.chainable ready).toWellFormed
  obtain ⟨isChain, flattened, isHelper, reads⟩ := h
  rename_i r helper operands type
  have ext := reads.extends
  have wfr := (reads.chainable ready).toWellFormed
  obtain ⟨e, v, isRead, isVar⟩ := (reads.chainable ready).read read rfl
  obtain ⟨w, found⟩ := exists_of_isChain? isChain
  have chainLt := (Array.getElem?_eq_some_iff.mp found).1
  have there := (ext.kept chain chainLt).trans found
  have isMatmul := ((ready.isChain?_eq_true_iff found).mp isChain).1
  have other : read ≠ chain := by
    rintro rfl
    cases there.symm.trans isRead
    obtain ⟨_, _, _, kind, -⟩ := isMatmul
    cases kind.symm.trans isVar
  have name : r.funcName? helper = some MatrixChain.helperName := by
    obtain ⟨f, callee, isName⟩ := ready.helpers _ helper (mem_of_lookup isHelper)
    rw [funcName?, ext.funcs_eq, callee, Option.map_some, isName]
  obtain ⟨x, yields, product⟩ : ∃ x, p.eval? I env chain = some x ∧ p.Multiplied I env operands x :=
    ready.multiplied_chainOperands? binary laws
      (isMatmul?_eq_true_iff.mpr ⟨w, found, isMatmul⟩) flattened
  obtain ⟨rank, ranked⟩ := wfr.acyclic
  have go (n : Nat) : ∀ id < r.values.size, rank id = n →
      (r.contract chain read helper operands type).eval? I env id = r.eval? I env id := by
    -- The operands of a value have smaller ranks, and so do the operands of a chain.
    induction n using Nat.strong_induction_on with
    | _ n ih =>
      intro id lt isRank
      by_cases same : id = chain
      · subst same
        rw [ext.eval?_eq ready.toWellFormed chainLt, yields]
        apply eval?_contract_chain wf laws there isRead isVar other name
        apply product.mono
        intro a mem
        have inside := ready.chainOperands?_lt flattened a mem
        have less := (ext.rankedBy ranked).chainOperands? flattened a mem
        rw [ih (rank a) (isRank ▸ less) a (Nat.lt_of_lt_of_le inside ext.grows) rfl]
        exact ext.eval?_eq ready.toWellFormed inside
      · obtain ⟨v, isValue⟩ : ∃ v, r.values[id]? = some v := ⟨_, Array.getElem?_eq_getElem lt⟩
        rw [wf.eval?_eq ((getElem?_contract_of_ne lt same).trans isValue), wfr.eval?_eq isValue]
        apply evalWith_congr
        intro a mem
        exact ih (rank a) (isRank ▸ ranked id v isValue a mem) a (wfr.closed id v isValue a mem) rfl
  rw [go (rank id) id (Nat.lt_of_lt_of_le lt ext.grows) rfl]
  exact ext.eval?_eq ready.toWellFormed lt

theorem Contracted.eval?_eq (h : Contracted mpc p environment q environment')
    (ready : p.Chainable environment) (binary : p.BinaryMatmuls) (laws : I.Multiplies)
    (lt : id < p.values.size) : q.eval? I env id = p.eval? I env id := by
  induction h with
  | refl => rfl
  | step first _ ih =>
    rw [ih (first.chainable ready) (first.binaryMatmuls binary)
      (Nat.lt_of_lt_of_le lt first.grows)]
    exact first.eval?_eq ready binary laws lt

end Program

/-- Replacing the chains of any values leaves a well-formed program, in which every value that was
there computes what it did. -/
theorem eval?_replaceChains {p : Program} {mpc : VarId} {roots : List ValueId} {forest : Forest}
    {journal : Journal} {count : Nat} {b : Bench} (wf : p.WellFormed) (helpers : p.NamesHelpers)
    (binary : p.BinaryMatmuls) (laws : I.Multiplies)
    (run : Work.replaceChains mpc roots none ⟨p, forest, journal⟩ = .ok count b) :
    b.program.WellFormed ∧ ∀ id < p.values.size, ∀ env : Env R,
      (p.eval? I env id).isSome ∧ b.program.eval? I env id = p.eval? I env id := by
  have ready := wf.chainable helpers
  obtain ⟨environment, exhausts⟩ := (Work.ends_replaceChains ready).of_ok run
  have contracted := exhausts.contracted
  refine ⟨(contracted.chainable ready).toWellFormed, fun id lt env => ⟨wf.isSome_eval? lt, ?_⟩⟩
  exact contracted.eval?_eq ready binary laws lt

/-- Words over the variables, where the other callees yield the empty word. -/
def Interpretation.words : Interpretation (FreeMonoid VarId) where
  int _ := 1
  float _ := 1
  call name args :=
    match args with
    | [a, b] =>
      if name = Operator.matmul.name then a * b
      else if name = MatrixChain.helperName then b
      else 1
    | _ => 1
  tuple := List.prod

theorem Interpretation.multiplies_words : words.Multiplies where
  matmul _ _ := rfl
  chain _ x xs := by
    change (x :: xs).prod = _
    rw [List.prod_eq_foldl, List.foldl_cons, one_mul]

def Description.productOfThree : Description where
  vars := ["a", "b", "c", "m"].map fun name => ⟨name, some "matrix"⟩
  operators := [⟨"matrix", "__matmul__", ["matrix", "matrix"], "matrix"⟩]
  helpers := [⟨MatrixChain.helperName, some "matrix"⟩]
  functions := [{
    name := "f"
    mpc := some "m"
    params := ["a", "b", "c"]
    attributes := { minimize := true, reorderMatmuls := true }
    body := [
      .ret (.call "__matmul__" [.call "__matmul__" [.var "a", .var "b"], .var "c"])] }]

/-- The square of a product shares it, and both are replaced. -/
theorem eval?_replaceChains_square :
    ∃ (p : Program) (count : Nat) (b : Bench),
      p.WellFormed ∧ p.NamesHelpers ∧ p.BinaryMatmuls ∧
      Work.replaceChains 3 [5, 4] none ⟨p, {}, {}⟩ = .ok count b ∧ count = 2 ∧
      b.program.WellFormed ∧
      (b.program.eval? Interpretation.words FreeMonoid.of 5).map FreeMonoid.toList =
        some [0, 1, 2, 0, 1, 2] := by
  have checked : (Description.productOfThree.first?.any fun (p, _) =>
      let q := (p.addCall 0 [4, 4]).2
      (result? (Work.replaceChains 3 [5, 4] none) ⟨q, {}, {}⟩).any fun (count, _) =>
        decide (p.values.size = 5 ∧ 0 < p.funcs.size ∧ q.BinaryMatmuls ∧ count = 2 ∧
          (q.eval? Interpretation.words FreeMonoid.of 5).map FreeMonoid.toList =
            some [0, 1, 2, 0, 1, 2])) = true := by
    decide +kernel
  obtain ⟨⟨p, f⟩, isFirst, checked⟩ := Option.any_eq_true _ _ |>.mp checked
  obtain ⟨⟨count, b⟩, result, checked⟩ := Option.any_eq_true _ _ |>.mp checked
  obtain ⟨lowered, -⟩ := Description.lower_of_first? isFirst
  obtain ⟨size, callee, binary, two, word⟩ := of_decide_eq_true checked
  have sound := Description.sound_of_lower lowered
  have wf : (p.addCall 0 [4, 4]).2.WellFormed := by
    apply sound.toWellFormed.push
    · simp [Value.operands, size]
    · rintro _ _ ⟨⟩
      exact ⟨_, Array.getElem?_eq_getElem callee⟩
  have run := eq_ok_of_result? result
  obtain ⟨wf', same⟩ :=
    eval?_replaceChains wf sound.helpers binary Interpretation.multiplies_words run
  have lt : 5 < (p.addCall 0 [4, 4]).2.values.size := by simp [Program.addCall, Program.push, size]
  refine ⟨_, count, b, wf, sound.helpers, binary, run, two, wf', ?_⟩
  rw [(same 5 lt FreeMonoid.of).2, word]

end SecureArith
