import SecureArith.Proofs.Isolation

set_option autoImplicit false

/-!
# Values that stay

Some values of a program, together with their operands, stay as they are while others are appended
or replaced. What is built from them is built in the same way later.
-/

namespace SecureArith

namespace Program

variable {S T : Nat → Prop} {p q r : Program} {id : Nat}

/-- The values of a set are the same later. Their operands are in the set. -/
structure Retains (p : Program) (S : Nat → Prop) (q : Program) : Prop where
  grows : p.values.size ≤ q.values.size
  funcs : q.funcs = p.funcs
  inside : ∀ a, S a → a < p.values.size
  kept : ∀ a, S a → q.values[a]? = p.values[a]?
  closed : ∀ (a : Nat) (v : Value), S a → p.values[a]? = some v → ∀ x : Nat, x ∈ v.operands → S x

theorem Precedes.retains (h : p.Precedes q) (wf : p.WellFormed) :
    p.Retains (· < p.values.size) q :=
  ⟨h.grows, h.funcs_eq, fun _ lt => lt, h.kept, fun a v _ found => wf.closed a v found⟩

theorem Halfway.retains {p' q' : Program} {owner : Nat → Nat} {index : Nat}
    (h : p.Halfway owner index q) (advances : Advances owner index p q p' q') :
    q.Retains (fun a => (a < p.values.size → owner a < index) ∧ a < q.values.size) q' where
  grows := advances.follows.grows
  funcs := advances.follows.funcs_eq
  inside _ done := done.2
  kept _ done := advances.kept (fun lt => Nat.ne_of_lt (done.1 lt)) done.2
  closed a v done found x mem := ⟨h.apart a v done.1 found x mem, h.closed a v found x mem⟩

theorem Retains.trans (h : p.Retains S q) (h' : q.Retains T r) (sub : ∀ a, S a → T a) :
    p.Retains S r where
  grows := Nat.le_trans h.grows h'.grows
  funcs := h'.funcs.trans h.funcs
  inside := h.inside
  kept a mem := (h'.kept a (sub a mem)).trans (h.kept a mem)
  closed := h.closed

theorem Retains.withFunctions (h : p.Retains S q) (functions : Array Function) :
    p.Retains S { q with functions } :=
  ⟨h.grows, h.funcs, h.inside, h.kept, h.closed⟩

theorem Retains.buildTo_eq {rank : Nat → Nat} {depth depth' : Nat} (h : p.Retains S q)
    (ranked : p.RankedBy rank) (mem : S id) (deep : rank id < depth) (deep' : rank id < depth') :
    Store.buildTo q depth' id = Store.buildTo p depth id := by
  induction depth generalizing id depth' with
  | zero => omega
  | succ depth ih =>
    obtain ⟨depth', rfl⟩ : ∃ k, depth' = k + 1 := ⟨depth' - 1, by omega⟩
    obtain ⟨v, found⟩ : ∃ v, p.values[id]? = some v :=
      ⟨_, Array.getElem?_eq_getElem (h.inside id mem)⟩
    have operator (func : FuncId) : Store.operatorOf q func = Store.operatorOf p func := by
      rw [Store.operatorOf, Store.operatorOf, funcName?, funcName?, h.funcs]
    have operand (a : Nat) (isOperand : a ∈ v.operands) :
        Store.buildTo q depth' a = Store.buildTo p depth a := by
      have less := ranked id v found a isOperand
      exact ih (h.closed id v mem found a isOperand) (by omega) (by omega)
    have found' := (h.kept id mem).trans found
    rcases v.cases_arity with ⟨func, a, kind⟩ | ⟨func, a, b, kind⟩ | other
    · rw [Store.buildTo_unary found kind, Store.buildTo_unary found' kind, operator,
        operand a (by simp [Value.operands, kind])]
    · rw [Store.buildTo_binary found kind, Store.buildTo_binary found' kind, operator,
        operand a (by simp [Value.operands, kind]), operand b (by simp [Value.operands, kind])]
    · rw [Store.buildTo_leaf found other, Store.buildTo_leaf found' other]

theorem Retains.build_eq (h : p.Retains S q) (wf : p.WellFormed) (mem : S id) :
    Store.build q id = Store.build p id := by
  obtain ⟨rank, ranked, bounded⟩ := wf.exists_rank
  have enough := bounded id (h.inside id mem)
  exact h.buildTo_eq ranked mem enough (Nat.lt_of_lt_of_le enough h.grows)

end Program

/-- What runs twice from the same state ends alike. -/
theorem Agrees.refl {ε σ α : Type} (x : EStateM ε σ α) : Agrees Eq Eq Eq x x := by
  rintro s _ rfl
  unfold Alike
  cases x s <;> exact ⟨rfl, rfl⟩

namespace Work

variable {S : Nat → Prop} {p q : Program}

/-- The same forest, for one program and for another. -/
structure Beside (p q : Program) (b c : Bench) : Prop where
  left : b.program = p
  right : c.program = q
  forest : c.forest = b.forest

theorem Beside.agrees_onStore {α β : Type} {Q : α → β → Prop} {x : StoreM α} {y : StoreM β}
    (h : Agrees Eq Eq Q x y) : Agrees (Beside p q) Eq Q (onStore x) (onStore y) := by
  rintro ⟨_, ⟨registry, store⟩, journal⟩ ⟨_, _, journal'⟩ ⟨rfl, rfl, rfl⟩
  have edited := h store store rfl
  unfold Alike at edited ⊢
  unfold onStore
  cases first : x store <;> cases second : y store <;> simp only [first, second] at edited ⊢
  · exact ⟨edited.1, rfl, rfl, by rw [edited.2]⟩
  · exact ⟨edited.1, rfl, rfl, by rw [edited.2]⟩

theorem agrees_buildSeries {body : List Instruction} (h : p.Retains S q) (wf : p.WellFormed)
    (inside : ∀ i ∈ body, S i.value) :
    Agrees (Beside p q) Eq (fun _ _ => True) (buildSeries body) (buildSeries body) := by
  induction body with
  | nil => exact .pure trivial
  | cons i rest ih =>
    rw [buildSeries, List.forM]
    refine Agrees.bind (Q := fun _ _ => True) ?_ fun _ _ _ => ?_
    · refine Agrees.get.bind fun b c beside => ?_
      dsimp only
      rw [beside.left, beside.right, h.build_eq wf (inside i List.mem_cons_self)]
      refine (Beside.agrees_onStore (.refl _)).bind ?_
      rintro root _ rfl
      refine .modify fun b c beside => ⟨beside.left, beside.right, ?_⟩
      dsimp only
      rw [beside.forest]
    · exact ih fun j mem => inside j (List.mem_cons_of_mem i mem)

end Work

end SecureArith
