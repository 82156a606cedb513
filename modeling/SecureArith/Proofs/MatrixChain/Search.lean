import SecureArith.Pass.MatrixChain
import SecureArith.Proofs.WellFormed

set_option autoImplicit false

/-!
# The search for chains

On a well-formed program every search has an answer. The search for the next chain takes the first
product that is not marked, again and again. A mark stands at a product that is no chain, and each
turn makes one more, so in the end it comes to the first chain of all, or there is none
(`WellFormed.nextChain?_eq`).
-/

namespace SecureArith

section Option

variable {α β : Type} {f : α → Option Bool} {g g' : α → Option (Option β)} {l : List α}

theorem anyM_eq_some (defined : ∀ a ∈ l, (f a).isSome) :
    l.anyM f = some (l.any fun a => (f a).getD false) := by
  induction l with
  | nil => rfl
  | cons a l ih =>
    obtain ⟨x, hx⟩ := Option.isSome_iff_exists.mp (defined a List.mem_cons_self)
    rw [List.anyM, hx, List.any_cons, hx]
    cases x with
    | true => rfl
    | false => exact ih fun b mem => defined b (List.mem_cons_of_mem a mem)

theorem isSome_findSomeM? (defined : ∀ a ∈ l, (g a).isSome) : (l.findSomeM? g).isSome := by
  induction l with
  | nil => rfl
  | cons a l ih =>
    obtain ⟨x, hx⟩ := Option.isSome_iff_exists.mp (defined a List.mem_cons_self)
    rw [List.findSomeM?, hx]
    cases x with
    | some b => rfl
    | none => exact ih fun b mem => defined b (List.mem_cons_of_mem a mem)

theorem exists_of_findSomeM? {b : β} (found : l.findSomeM? g = some (some b)) :
    ∃ a ∈ l, g a = some (some b) := by
  induction l with
  | nil => cases found
  | cons a l ih =>
    rw [List.findSomeM?] at found
    cases here : g a with
    | none =>
      rw [here] at found
      cases found
    | some x =>
      rw [here] at found
      cases x with
      | some b' =>
        cases found
        exact ⟨a, List.mem_cons_self, here⟩
      | none =>
        obtain ⟨a', mem, isFound⟩ := ih found
        exact ⟨a', List.mem_cons_of_mem a mem, isFound⟩

theorem forall_of_findSomeM? (missed : l.findSomeM? g = some none) : ∀ a ∈ l, g a = some none := by
  induction l with
  | nil => exact fun _ mem => absurd mem List.not_mem_nil
  | cons a l ih =>
    rw [List.findSomeM?] at missed
    cases here : g a with
    | none =>
      rw [here] at missed
      cases missed
    | some x =>
      rw [here] at missed
      cases x with
      | some b => cases missed
      | none => exact List.forall_mem_cons.mpr ⟨here, ih missed⟩

theorem findSomeM?_of_imp {found : Option β}
    (same : ∀ a ∈ l, ∀ x, x = none ∨ x = found → g a = some x → g' a = some x)
    (ends : l.findSomeM? g = some found) : l.findSomeM? g' = some found := by
  induction l with
  | nil => exact ends
  | cons a l ih =>
    rw [List.findSomeM?] at ends ⊢
    cases here : g a with
    | none =>
      rw [here] at ends
      cases ends
    | some x =>
      rw [here] at ends
      cases x with
      | some b =>
        cases ends
        rw [same a List.mem_cons_self _ (.inr rfl) here]
        rfl
      | none =>
        rw [same a List.mem_cons_self _ (.inl rfl) here]
        exact ih (fun b mem => same b (List.mem_cons_of_mem a mem)) ends

end Option

namespace Marks

variable {marks marked : Marks} {id k size : Nat}

theorem size_grow (le : marks.size ≤ size) : (marks.grow size).size = size := by
  rw [grow, Array.size_append, Array.size_replicate]
  omega

theorem getElem?_of_grow (isMarked : (marks.grow size)[k]? = some true) :
    marks[k]? = some true := by
  rw [grow, Array.getElem?_append, Array.getElem?_replicate] at isMarked
  split at isMarked
  · exact isMarked
  · split at isMarked <;> cases isMarked

theorem mark?_eq (unmarked : marks[id]? = some false) :
    ∃ marked, marks.mark? id = some marked ∧ marked.size = marks.size ∧
      marked.count false < marks.count false ∧
      ∀ k : Nat, marked[k]? = some true → k = id ∨ marks[k]? = some true := by
  obtain ⟨lt, isFalse⟩ := Array.getElem?_eq_some_iff.mp unmarked
  have positive : 0 < marks.count false := Array.count_pos_iff.mpr (isFalse ▸ Array.getElem_mem lt)
  refine ⟨marks.set id true lt, dif_pos lt, Array.size_set lt, ?_, fun k isMarked => ?_⟩
  · rw [Array.count_set lt, isFalse]
    exact Nat.sub_lt positive Nat.one_pos
  · by_cases same : k = id
    · exact .inl same
    · rw [Array.getElem?_set_ne lt (Ne.symm same)] at isMarked
      exact .inr isMarked

end Marks

namespace Program

variable {p q : Program} {id root a : Nat} {v : Value} {depth n : Nat} {marks : Marks}
  {test : ValueId → Option Bool}

/-- A call with operands of the callee for products. -/
def IsMatmul (p : Program) (v : Value) : Prop :=
  ∃ func a rest, v.kind = .call func (a :: rest) ∧ p.funcName? func = some Operator.matmul.name

theorem isMatmul_congr (tables : { q with values := p.values } = p) :
    q.IsMatmul v ↔ p.IsMatmul v := by
  have funcs : q.funcs = p.funcs := by simpa only using congrArg Program.funcs tables
  simp only [IsMatmul, funcName?, funcs]

theorem isMatmul?_eq_true_iff :
    p.isMatmul? id = some true ↔ ∃ v, p.values[id]? = some v ∧ p.IsMatmul v := by
  unfold isMatmul? isCallOf? IsMatmul
  cases found : p.values[id]? with
  | none => simp
  | some v =>
    obtain ⟨_, _, kind⟩ := v
    cases kind with
    | int | float | var | tuple => simp
    | call func args =>
      cases args with
      | nil => simp
      | cons a rest => cases name : p.funcName? func <;> simp [name]

theorem WellFormed.isSome_isMatmul? (wf : p.WellFormed) (lt : id < p.values.size) :
    (p.isMatmul? id).isSome := by
  unfold isMatmul? isCallOf?
  obtain ⟨v, found⟩ : ∃ v, p.values[id]? = some v := ⟨_, Array.getElem?_eq_getElem lt⟩
  obtain ⟨_, _, kind⟩ := v
  cases kind with
  | int | float | var | tuple => simp [found]
  | call func args =>
    obtain ⟨f, callee⟩ := wf.callees id _ func args found rfl
    cases args <;> simp [found, funcName?, callee]

theorem WellFormed.isChain?_eq (wf : p.WellFormed) (found : p.values[id]? = some v) :
    p.isChain? id = some ((p.isMatmul? id).getD false &&
      v.operands.any fun a => (p.isMatmul? a).getD false) := by
  have lt := (Array.getElem?_eq_some_iff.mp found).1
  obtain ⟨x, isMatmul⟩ := Option.isSome_iff_exists.mp (wf.isSome_isMatmul? lt)
  have operands := anyM_eq_some fun a mem =>
    wf.isSome_isMatmul? (wf.closed id v found a mem)
  rw [isChain?, found]
  change (p.isMatmul? id <&&> v.operands.anyM p.isMatmul?) = _
  rw [operands, isMatmul]
  cases x <;> rfl

theorem WellFormed.isChain?_eq_true_iff (wf : p.WellFormed) (found : p.values[id]? = some v) :
    p.isChain? id = some true ↔ p.IsMatmul v ∧ ∃ a ∈ v.operands, p.isMatmul? a = some true := by
  have known (x : Option Bool) : x.getD false = true ↔ x = some true := by cases x <;> simp
  rw [wf.isChain?_eq found, Option.some.injEq, Bool.and_eq_true, List.any_eq_true, known,
    isMatmul?_eq_true_iff, found]
  simp [known]

theorem exists_of_isChain? {x : Bool} (known : p.isChain? id = some x) :
    ∃ v, p.values[id]? = some v := by
  unfold isChain? at known
  obtain ⟨v, found, -⟩ := Option.bind_eq_some_iff.mp known
  exact ⟨v, found⟩

def IsChain (p : Program) (v : Value) : Prop :=
  p.IsMatmul v ∧ ∃ a ∈ v.operands, ∃ w, p.values[a]? = some w ∧ p.IsMatmul w

theorem WellFormed.isChain?_iff (wf : p.WellFormed) :
    p.isChain? id = some true ↔ ∃ v, p.values[id]? = some v ∧ p.IsChain v := by
  constructor
  · intro isChain
    obtain ⟨v, found⟩ := exists_of_isChain? isChain
    obtain ⟨isMatmul, a, operand, known⟩ := (wf.isChain?_eq_true_iff found).mp isChain
    exact ⟨v, found, isMatmul, a, operand, isMatmul?_eq_true_iff.mp known⟩
  · rintro ⟨v, found, isMatmul, a, operand, known⟩
    exact (wf.isChain?_eq_true_iff found).mpr
      ⟨isMatmul, a, operand, isMatmul?_eq_true_iff.mpr known⟩

theorem isChain_of_isChain (tables : { q with values := p.values } = p)
    (kept : ∀ (a : Nat) (w : Value), q.values[a]? = some w → q.IsMatmul w → p.values[a]? = some w)
    (found : q.values[id]? = some v) (isChain : q.IsChain v) :
    p.values[id]? = some v ∧ p.IsChain v := by
  obtain ⟨isMatmul, a, operand, w, isOperand, isMatmul'⟩ := isChain
  exact ⟨kept id v found isMatmul, (isMatmul_congr tables).mp isMatmul, a, operand, w,
    kept a w isOperand isMatmul', (isMatmul_congr tables).mp isMatmul'⟩

section First

theorem test_of_first? (found : p.first? test depth id = some (some a)) : test a = some true := by
  induction depth generalizing id with
  | zero => cases found
  | succ depth ih =>
    rw [first?] at found
    obtain ⟨passes, known, found⟩ := Option.bind_eq_some_iff.mp found
    cases passes with
    | true =>
      cases found
      exact known
    | false =>
      obtain ⟨v, -, found⟩ := Option.bind_eq_some_iff.mp found
      obtain ⟨x, -, below⟩ := exists_of_findSomeM? found
      exact ih below

theorem WellFormed.isSome_first? (wf : p.WellFormed)
    (defined : ∀ a : Nat, a < p.values.size → (test a).isSome) (lt : id < p.values.size) :
    (p.first? test p.values.size id).isSome := by
  obtain ⟨rank, ranked, bounded⟩ := wf.exists_rank
  have go (depth id : Nat) (lt : id < p.values.size) (deep : rank id < depth) :
      (p.first? test depth id).isSome := by
    induction depth generalizing id with
    | zero => omega
    | succ depth ih =>
      obtain ⟨v, found⟩ : ∃ v, p.values[id]? = some v := ⟨_, Array.getElem?_eq_getElem lt⟩
      obtain ⟨passes, known⟩ := Option.isSome_iff_exists.mp (defined id lt)
      have below : (v.operands.findSomeM? (p.first? test depth)).isSome := by
        apply isSome_findSomeM?
        intro a mem
        have less := ranked id v found a mem
        exact ih a (wf.closed id v found a mem) (by omega)
      rw [first?, known, found]
      cases passes with
      | true => rfl
      | false => exact below
  exact go _ id lt (bounded id lt)

theorem first?_eq_none (absent : test id = none) : p.first? test depth id = none := by
  cases depth with
  | zero => rfl
  | succ depth =>
    rw [first?, absent]
    rfl

end First

/-- The first chain, a value before its operands. -/
def firstChain? (p : Program) (root : ValueId) : Option (Option ValueId) :=
  p.first? p.isChain? p.values.size root

theorem isChain?_of_firstChain? (found : p.firstChain? root = some (some a)) :
    p.isChain? a = some true := test_of_first? found

theorem WellFormed.isSome_isChain? (wf : p.WellFormed) (lt : id < p.values.size) :
    (p.isChain? id).isSome := by
  rw [wf.isChain?_eq (Array.getElem?_eq_getElem lt)]
  rfl

theorem WellFormed.isSome_firstChain? (wf : p.WellFormed) (lt : root < p.values.size) :
    (p.firstChain? root).isSome := wf.isSome_first? (fun _ => wf.isSome_isChain?) lt

theorem isUnmarked?_eq (isMatmul : p.isMatmul? id = some true) (marks : Marks) :
    p.isUnmarked? marks id = (marks[id]?).map (!·) := by
  rw [isUnmarked?, isMatmul]
  rfl

theorem getElem?_of_isUnmarked? (unmarked : p.isUnmarked? marks id = some true) :
    marks[id]? = some false := by
  unfold isUnmarked? at unmarked
  obtain ⟨isMatmul, -, unmarked⟩ := Option.bind_eq_some_iff.mp unmarked
  cases isMatmul with
  | false => cases unmarked
  | true =>
    change (marks[id]?).map (!·) = some true at unmarked
    simpa using unmarked

/-- Marks stand at values that are no chains. -/
structure Marked (p : Program) (marks : Marks) : Prop where
  inside : marks.size ≤ p.values.size
  other : ∀ id : Nat, marks[id]? = some true → p.isChain? id ≠ some true

namespace Marked

theorem grow (h : p.Marked marks) : p.Marked (marks.grow p.values.size) where
  inside := Nat.le_of_eq (Marks.size_grow h.inside)
  other id isMarked := h.other id (Marks.getElem?_of_grow isMarked)

/-- The first product without mark is the first chain, if it is one. If all products are marked,
there is no chain. -/
theorem first?_eq (h : p.Marked marks) (wf : p.WellFormed) {found : Option ValueId}
    (isChain : ∀ a : Nat, a ∈ found → p.isChain? a = some true)
    (ends : p.first? (p.isUnmarked? marks) depth id = some found) :
    p.first? p.isChain? depth id = some found := by
  induction depth generalizing id found with
  | zero => cases ends
  | succ depth ih =>
    rw [first?] at ends ⊢
    obtain ⟨unmarked, known, ends⟩ := Option.bind_eq_some_iff.mp ends
    cases unmarked with
    | true =>
      cases ends
      rw [isChain id rfl]
      rfl
    | false =>
      obtain ⟨v, here, ends⟩ := Option.bind_eq_some_iff.mp ends
      have lt := (Array.getElem?_eq_some_iff.mp here).1
      have other : p.isChain? id = some false := by
        obtain ⟨passes, decided⟩ := Option.isSome_iff_exists.mp (wf.isSome_isChain? lt)
        cases passes with
        | false => exact decided
        | true =>
          have isMatmul := isMatmul?_eq_true_iff.mpr
            ⟨v, here, ((wf.isChain?_eq_true_iff here).mp decided).1⟩
          rw [isUnmarked?_eq isMatmul] at known
          have marked : marks[id]? = some true := by simpa using known
          exact absurd decided (h.other id marked)
      rw [other, here]
      apply findSomeM?_of_imp _ ends
      intro a mem x cases below
      apply ih _ below
      rcases cases with rfl | rfl
      · exact fun _ none => by cases none
      · exact isChain

theorem mark (h : p.Marked marks) (unmarked : marks[id]? = some false)
    (other : p.isChain? id = some false) :
    ∃ marked, marks.mark? id = some marked ∧ marked.size = marks.size ∧
      marked.count false < marks.count false ∧ p.Marked marked := by
  obtain ⟨marked, isMarked, size, fewer, old⟩ := Marks.mark?_eq unmarked
  refine ⟨marked, isMarked, size, fewer, size ▸ h.inside, fun k new isChain => ?_⟩
  rcases old k new with rfl | old
  · cases other.symm.trans isChain
  · exact h.other k old isChain

end Marked

theorem marked_replicate (p : Program) : p.Marked (Array.replicate p.values.size false) where
  inside := Nat.le_of_eq Array.size_replicate
  other id isMarked := by
    rw [Array.getElem?_replicate] at isMarked
    split at isMarked <;> cases isMarked

theorem WellFormed.isSome_isUnmarked? (wf : p.WellFormed) (size : marks.size = p.values.size)
    (lt : id < p.values.size) : (p.isUnmarked? marks id).isSome := by
  obtain ⟨isMatmul, known⟩ := Option.isSome_iff_exists.mp (wf.isSome_isMatmul? lt)
  cases isMatmul with
  | false =>
    rw [isUnmarked?, known]
    rfl
  | true =>
    rw [isUnmarked?_eq known, Array.getElem?_eq_getElem (size ▸ lt)]
    rfl

/-- A search that has no answer starts at an index out of range. -/
theorem WellFormed.firstChain?_eq_none (wf : p.WellFormed) (size : marks.size = p.values.size)
    (ends : p.first? (p.isUnmarked? marks) p.values.size root = none) :
    p.firstChain? root = none := by
  have outside : p.values[root]? = none := by
    by_contra inside
    obtain ⟨v, found⟩ := Option.ne_none_iff_exists'.mp inside
    have answer := wf.isSome_first? (fun _ => wf.isSome_isUnmarked? size)
      (Array.getElem?_eq_some_iff.mp found).1
    rw [ends] at answer
    cases answer
  have absent : p.isChain? root = none := by
    rw [isChain?, outside]
    rfl
  rw [firstChain?, first?_eq_none absent]

/-- The next chain is the first one, whatever has been marked so far. -/
theorem WellFormed.nextChain?_eq_of_size (wf : p.WellFormed) (marked : p.Marked marks)
    (size : marks.size = p.values.size) (enough : marks.count false < n) :
    ∃ marks', p.nextChain? root n marks = (p.firstChain? root).map (·, marks') ∧
      p.Marked marks' := by
  induction n generalizing marks with
  | zero => exact absurd enough (Nat.not_lt_zero _)
  | succ n ih =>
    rw [nextChain?]
    cases ends : p.first? (p.isUnmarked? marks) p.values.size root with
    | none =>
      refine ⟨marks, ?_, marked⟩
      rw [wf.firstChain?_eq_none size ends]
      rfl
    | some found =>
      cases found with
      | none =>
        have none := marked.first?_eq wf (fun _ mem => absurd mem (Option.not_mem_none _)) ends
        refine ⟨marks, ?_, marked⟩
        rw [firstChain?, none]
        rfl
      | some product =>
        have unmarked := getElem?_of_isUnmarked? (test_of_first? ends)
        have lt : (product : Nat) < p.values.size := by
          rw [← size]
          exact (Array.getElem?_eq_some_iff.mp unmarked).1
        obtain ⟨isChain, decided⟩ := Option.isSome_iff_exists.mp (wf.isSome_isChain? lt)
        dsimp only [Option.bind_eq_bind, Option.bind_some]
        rw [decided]
        cases isChain with
        | true =>
          have first := marked.first?_eq wf (fun a mem => Option.mem_some.mp mem ▸ decided) ends
          refine ⟨marks, ?_, marked⟩
          rw [firstChain?, first]
          rfl
        | false =>
          obtain ⟨marks', isMarks, size', fewer, marked'⟩ := marked.mark unmarked decided
          rw [isMarks]
          exact ih marked' (size'.trans size) (by omega)

theorem WellFormed.nextChain?_eq (wf : p.WellFormed) (marked : p.Marked marks) (root : ValueId) :
    ∃ marks', p.nextChain? root (p.values.size + 1) (marks.grow p.values.size) =
      (p.firstChain? root).map (·, marks') ∧ p.Marked marks' := by
  have size := Marks.size_grow marked.inside
  apply wf.nextChain?_eq_of_size marked.grow size
  calc (marks.grow p.values.size).count false
    _ ≤ (marks.grow p.values.size).size := Array.count_le_size
    _ = p.values.size := size
    _ < p.values.size + 1 := Nat.lt_succ_self _

end Program

end SecureArith
