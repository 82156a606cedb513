import SecureArith.Proofs.Ends.Notes
import SecureArith.Proofs.Priority

set_option autoImplicit false

/-!
# Reordering comes to an end

A tree is reordered until no swap is possible. There are at most as many swaps as operations, so
the limit on swaps is never reached, and nothing is left to swap when reordering has ended without
a failure.
-/

namespace SecureArith

/-- A swap was noted. -/
def Event.IsSwap (e : Event) : Prop := ∃ tree, e = .reordered tree

namespace Tree

variable {c : Classifier} {t u : Tree}

/-- A subtree that is secure, as are all operations above it. -/
inductive Exposed (c : Classifier) (u : Tree) : Tree → Prop
  | root (secure : u.secure? c = some true) : Exposed c u u
  | child {id : NodeId} {label : Label} {child : Side → Tree} (side : Side)
      (secure : (Tree.node id label child).secure? c = some true)
      (h : Exposed c u (child side)) : Exposed c u (.node id label child)

/-- One operand is cheap, and the other one is an operation of the same operator that commutes and
has two operands, exactly one of which is secure. -/
def Unordered (c : Classifier) : Tree → Prop
  | .node _ label child => ∃ op side k label' child', label.op = some op ∧ op.commutes = true ∧
      child side = .node k label' child' ∧ label'.op = some op ∧
      (child side.flip).secure? c = some false ∧
      (child' .left).isNil = false ∧ (child' .right).isNil = false ∧
      ((child' .left).secure? c = some true ↔ ¬ (child' .right).secure? c = some true)
  | _ => False

theorem Exposed.secure?_eq (h : u.Exposed c t) : u.secure? c = some true := by
  induction h with
  | root secure => exact secure
  | child _ _ _ ih => exact ih

theorem Exposed.inOrder (h : u.Exposed c t) (inOrder : t.InOrder c) : u.InOrder c := by
  induction h with
  | root => exact inOrder
  | child side secure _ ih =>
    refine ih ?_
    rcases inOrder with leaf | cheap | ⟨-, -, below⟩
    · rw [children_of_childless leaf side]
      trivial
    · cases secure.symm.trans cheap
    · exact below side

theorem InOrder.not_unordered (h : t.InOrder c) (secure : t.secure? c = some true) :
    ¬ t.Unordered c := by
  cases t with
  | nil | missing => exact id
  | node id label child =>
    rintro ⟨op, side, k, label', child', upper, commutes, eq, lower, cheap, left, right, one⟩
    rcases h with leaf | cheap' | ⟨-, steady, -⟩
    · have inner : childless child = false := by
        cases side <;> simp [childless, eq, isNil]
      exact absurd (leaf.symm.trans inner) Bool.true_eq_false.mp
    · cases secure.symm.trans cheap'
    · have beside := steady op upper commutes side
      rw [eq] at beside
      rcases beside lower (isNil_of_secure? cheap) with secure' | ⟨-, same⟩
      · cases secure'.symm.trans cheap
      · obtain ⟨x, isLeft, isRight⟩ := same left right
        rw [isLeft, isRight] at one
        exact iff_not_self one

end Tree

namespace Work

variable {c : Classifier} {root k sibling operand : NodeId} {op : Option Operator}

theorem notes_exchange : Notes Event.IsSwap (exchange c root k sibling operand) := by
  refine .bind (.onStore _) fun _ => .bind (.onStore _) fun _ => .bind (.onStore _) fun _ =>
    .bind (.onStore _) fun _ => .noteAt (.bind (.shown root) fun _ => .pure _) fun b => ?_
  rw [Ends.bind_iff]
  exact (Ends.trivial _ b).imp (fun tree _ _ => ⟨tree, rfl⟩) fun _ _ _ => trivial

theorem notes_exchangeSecure (n : Node) :
    Notes Event.IsSwap (exchangeSecure c root k sibling n) := by
  refine (Notes.isSecure c sibling).bind fun _ => .ite (.pure false) ?_
  split
  · refine (Notes.isSecure c _).bind fun _ => (Notes.isSecure c _).bind fun _ => ?_
    exact .ite (.pure false) (.bind notes_exchange fun _ => .pure true)
  · exact .pure false

theorem notes_swap : Notes Event.IsSwap (swap c root k) := by
  refine (Notes.node root).bind fun r => .ite (.throw _) ((Notes.node k).bind fun n => ?_)
  refine .ite (.bind (.shown root) fun _ => .bind (.shown k) fun _ => .throw _) ?_
  split
  · exact notes_exchangeSecure n
  · exact .pure false

theorem notes_swapChild : Notes Event.IsSwap (swapChild c root op k) :=
  .bind (.node k) fun _ => .ite notes_swap (.pure false)

theorem notes_isConsecutive : Notes Event.IsSwap (isConsecutive root) := by
  refine (Notes.node root).bind fun n => ?_
  split
  · exact .ite (.anyM fun child => .bind (.node child) fun _ => .pure _) (.pure false)
  · exact .pure false

theorem notes_reorderOnceTo (c : Classifier) (depth : Nat) (id : NodeId) :
    Notes Event.IsSwap (reorderOnceTo c depth id) := by
  induction depth generalizing id with
  | zero => exact .throw _
  | succ depth ih =>
    refine (Notes.node id).bind fun n => .ite (.pure false) ?_
    refine (Notes.isSecure c id).bind fun _ => .ite (.pure false) ?_
    refine notes_isConsecutive.bind fun _ => .ite ?_ (.anyM ih)
    exact (Notes.anyM fun _ => notes_swapChild).bind fun _ => .ite (.pure true) (.anyM ih)

theorem notes_reorderOnce (c : Classifier) (id : NodeId) :
    Notes Event.IsSwap (reorderOnce c id) :=
  .bind .get fun b => notes_reorderOnceTo c b.forest.store.size id

variable {b b₁ b' : Bench} {t u : Tree}

theorem reorderAll_of_inOrder (h : b.forest.store.Owned (some root) t) (inOrder : t.InOrder c) :
    ∃ b', reorderAll c root b = .ok false b' ∧ Kept c b root t b' := by
  have still : Ends (reorderOnce c root) b (fun again b' => again = false ∧ Kept c b root t b')
      fun _ _ => False := by
    refine (ends_reorderOnce h).imp ?_ fun _ _ failed => failed.1 inOrder
    rintro again b' attempted
    cases again with
    | true => exact absurd inOrder attempted.1
    | false => exact ⟨rfl, attempted.2⟩
  obtain ⟨changed, b', run, rfl, kept⟩ :=
    (ends_reorderAll_of_repeats h (.zero b) (Nat.zero_le _) still).exists_ok
  exact ⟨b', run, kept⟩

end Work

variable {b : Bench} {root : Nat} {t : Tree}

/-- Whatever types are kept, reordering makes at most as many swaps as there are operations, fewer
than its limit, and no event but swaps is noted. It fails only where a type is not found. Otherwise
it ends where no secure operation below secure ones is out of order, and doing it again makes no
swap and changes nothing but kept types. -/
theorem reorderAll_reaches_order (c : Classifier) (h : b.forest.store.Owned (some root) t) :
    ∃ n b₁, n ≤ t.operations ∧ n < max (t.size * t.size) 16 ∧
      Repeats (Work.reorderOnce c root) n b b₁ ∧
      Ends (Work.reorderAll c root) b
        (fun changed b' => changed = decide (0 < n) ∧ Work.reorderOnce c root b₁ = .ok false b' ∧
          b.journal.Grew Event.IsSwap b'.journal ∧
          ∃ u, b.Reworked (some root) t b' u ∧ (∀ v : Tree, v.Exposed c u → ¬ v.Unordered c) ∧
            ∃ b'' v, Work.reorderAll c root b' = .ok false b'' ∧
              b'.Reworked (some root) u b'' v ∧ v.untyped = u.untyped)
        fun e b' => e.kind = .type ∧ Work.reorderOnce c root b₁ = .error e b' ∧
          b.journal.Grew Event.IsSwap b'.journal := by
  obtain ⟨n, b₁, u, swaps⟩ := Work.exists_swaps c h
  have noted := (Work.notes_reorderOnce c root).repeats swaps.repeats
  refine ⟨n, b₁, swaps.le_operations,
    Nat.lt_of_le_of_lt swaps.le_operations (Work.operations_lt_limit t), swaps.repeats, ?_⟩
  have last : Ends (Work.reorderOnce c root) b₁ (fun again b' => again = false ∧
      (u.InOrder c ∧ Work.Kept c b₁ root u b') ∧ b₁.journal.Grew Event.IsSwap b'.journal ∧
        Work.reorderOnce c root b₁ = .ok false b')
      fun e b' => (Work.Untyped c b₁ root u e b' ∧ b₁.journal.Grew Event.IsSwap b'.journal) ∧
        Work.reorderOnce c root b₁ = .error e b' := by
    refine ((swaps.last.and (Work.notes_reorderOnce c root b₁)).and (Ends.run _ b₁)).imp ?_
      fun _ _ h => h
    rintro again b' ⟨⟨⟨rfl, settled⟩, grew⟩, run⟩
    exact ⟨rfl, settled, grew, run⟩
  refine (Work.ends_reorderAll_of_repeats h swaps.repeats swaps.le_operations last).imp ?_ ?_
  · rintro changed b' ⟨eq, ⟨inOrder, v, reworked, learns⟩, grew, run⟩
    have inOrder' := learns.inOrder_iff.mpr inOrder
    obtain ⟨b'', again, w, reworked', learns'⟩ :=
      Work.reorderAll_of_inOrder reworked.owned inOrder'
    refine ⟨eq, run, noted.trans grew, v, swaps.reworked.trans reworked, fun x exposed => ?_,
      b'', w, again, reworked', learns'.untyped_eq⟩
    exact (exposed.inOrder inOrder').not_unordered exposed.secure?_eq
  · rintro e b' ⟨⟨⟨kind, -⟩, grew⟩, run⟩
    exact ⟨kind, run, noted.trans grew⟩

/-- The sum `(($0 + $1) + $2) + $3` of a secret and three integers, where an old type is kept for
`$0 + $1`. -/
def Store.secretFirst : Store :=
  let sum (left right : NodeId) (memo : Option TypeName) : Node :=
    { op := some .add, left := some left, right := some right, memo }
  let read (v : VarId) (type : TypeName) : Node := { origin := some ⟨v, some type, .var v⟩ }
  ⟨#[sum 1 6 none, sum 2 5 (some "secret"), sum 3 4 (some "int"), read 0 "secret", read 1 .int,
    read 2 .int, read 3 .int]⟩

/-- Secrets are secure. -/
def Classifier.ofSecrets : Classifier := ⟨(· == "secret"), (· == "secret"), fun _ => false⟩

theorem reorderAll_reaches_order_secretFirst :
    ∃ (b b₁ b' : Bench) (t u : Tree) (n : Nat), b.forest.store = .secretFirst ∧
      b.forest.store.Owned (some 0) t ∧ t.operations = 3 ∧ n ≤ 3 ∧
      Repeats (Work.reorderOnce .ofSecrets 0) n b b₁ ∧
      Work.reorderAll .ofSecrets 0 b = .ok true b' ∧ 0 < n ∧
      Work.reorderOnce .ofSecrets 0 b₁ = .ok false b' ∧ b.Reworked (some 0) t b' u ∧
      ∀ v : Tree, v.Exposed .ofSecrets u → ¬ v.Unordered .ofSecrets := by
  let b : Bench := { forest := { store := .secretFirst } }
  let t := b.forest.store.tree 0
  have owned : b.forest.store.Owned (some 0) t :=
    Store.owned_tree (by decide +kernel) (by decide +kernel)
  have three : t.operations = 3 := by decide +kernel
  have changes : ((result? (Work.reorderAll .ofSecrets 0) b).any (·.1)) = true := by decide +kernel
  obtain ⟨⟨changed, b'⟩, result, rfl⟩ := Option.any_eq_true _ _ |>.mp changes
  have run := eq_ok_of_result? result
  obtain ⟨n, b₁, few, -, repeats, ends⟩ := reorderAll_reaches_order .ofSecrets owned
  obtain ⟨some, last, -, u, reworked, ordered, -⟩ := ends.of_ok run
  exact ⟨b, b₁, b', t, u, n, rfl, owned, three, three ▸ few, repeats, run,
    of_decide_eq_true some.symm, last, reworked, ordered⟩

end SecureArith
