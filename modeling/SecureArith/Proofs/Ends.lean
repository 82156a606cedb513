import SecureArith.Work

set_option autoImplicit false

/-!
# How work ends

`Ends x s ok failed` says what holds when `x` is run on `s`: `ok` of the result and the last state,
or `failed` of the failure and the state that it leaves. One equation for each way of putting work
together takes a run apart.
-/

namespace SecureArith

variable {ε σ α β : Type}

def Ends (x : EStateM ε σ α) (s : σ) (ok : α → σ → Prop) (failed : ε → σ → Prop) : Prop :=
  match x s with
  | .ok a s => ok a s
  | .error e s => failed e s

/-- The result of a run and the state that it leaves, if it does not fail. -/
def result? (x : EStateM ε σ α) (s : σ) : Option (α × σ) :=
  match x s with
  | .ok a s => some (a, s)
  | .error .. => none

theorem eq_ok_of_result? {x : EStateM ε σ α} {s s' : σ} {a : α}
    (h : result? x s = some (a, s')) : x s = .ok a s' := by
  unfold result? at h
  split at h
  · cases h
    assumption
  · cases h

def answer? (x : EStateM ε σ α) (s : σ) : Option α := (result? x s).map (·.1)

def failed? (x : EStateM ε σ α) (s : σ) : Option (ε × σ) :=
  match x s with
  | .ok .. => none
  | .error e s => some (e, s)

theorem eq_error_of_failed? {x : EStateM ε σ α} {s s' : σ} {e : ε}
    (h : failed? x s = some (e, s')) : x s = .error e s' := by
  unfold failed? at h
  split at h
  · cases h
  · cases h
    assumption

namespace Ends

variable {x : EStateM ε σ α} {s s' : σ} {ok ok' : α → σ → Prop} {failed failed' : ε → σ → Prop}

theorem imp (h : Ends x s ok failed) (hok : ∀ a s, ok a s → ok' a s)
    (hfailed : ∀ e s, failed e s → failed' e s) : Ends x s ok' failed' := by
  unfold Ends at h ⊢
  split at h
  · exact hok _ _ h
  · exact hfailed _ _ h

theorem of_ok {a : α} (h : Ends x s ok failed) (run : x s = .ok a s') : ok a s' := by
  simpa only [Ends, run] using h

theorem of_error {e : ε} (h : Ends x s ok failed) (run : x s = .error e s') : failed e s' := by
  simpa only [Ends, run] using h

/-- A run that cannot fail has a result. -/
theorem exists_ok (h : Ends x s ok fun _ _ => False) : ∃ a s', x s = .ok a s' ∧ ok a s' := by
  unfold Ends at h
  split at h
  · exact ⟨_, _, by assumption, h⟩
  · exact h.elim

theorem and (h : Ends x s ok failed) (h' : Ends x s ok' failed') :
    Ends x s (fun a s => ok a s ∧ ok' a s) (fun e s => failed e s ∧ failed' e s) := by
  unfold Ends at *
  split at h
  · rename_i run
    rw [run] at h'
    exact ⟨h, h'⟩
  · rename_i run
    rw [run] at h'
    exact ⟨h, h'⟩

theorem run (x : EStateM ε σ α) (s : σ) :
    Ends x s (fun a s' => x s = .ok a s') fun e s' => x s = .error e s' := by
  unfold Ends
  split <;> assumption

/-- A run succeeds under a condition that holds where it does, and fails where it does not. -/
theorem exists_ok_iff {P : Prop} (h : Ends x s (fun _ _ => P) fun _ _ => ¬ P) :
    (∃ a s', x s = .ok a s') ↔ P := by
  constructor
  · rintro ⟨a, s', run⟩
    exact h.of_ok run
  · intro holds
    obtain ⟨a, s', run, -⟩ := exists_ok (h.imp (fun _ _ holds => holds) fun _ _ not => not holds)
    exact ⟨a, s', run⟩

theorem exists_error_iff {P : Prop} (h : Ends x s (fun _ _ => ¬ P) fun _ _ => P) :
    (∃ e s', x s = .error e s') ↔ P := by
  constructor
  · rintro ⟨e, s', run⟩
    exact h.of_error run
  · intro holds
    cases run : x s with
    | ok a s' => exact absurd holds (h.of_ok run)
    | error e s' => exact ⟨e, s', rfl⟩

theorem trivial (x : EStateM ε σ α) (s : σ) : Ends x s (fun _ _ => True) (fun _ _ => True) := by
  unfold Ends
  split <;> exact True.intro

theorem bind_iff {f : α → EStateM ε σ β} {ok : β → σ → Prop} :
    Ends (x >>= f) s ok failed ↔ Ends x s (fun a s => Ends (f a) s ok failed) failed := by
  simp only [Ends, Bind.bind, EStateM.bind]
  cases x s <;> rfl

theorem map_iff {f : α → β} {ok : β → σ → Prop} :
    Ends (f <$> x) s ok failed ↔ Ends x s (fun a s => ok (f a) s) failed := by
  simp only [Ends, Functor.map, EStateM.map]
  cases x s <;> rfl

theorem pure_iff {a : α} :
    Ends (pure a : EStateM ε σ α) s ok failed ↔ ok a s := Iff.rfl

theorem mapM_singleton_iff {f : α → EStateM ε σ β} {a : α} {ok : List β → σ → Prop} :
    Ends ([a].mapM f) s ok failed ↔ Ends (f a) s (fun b s => ok [b] s) failed := by
  rw [List.mapM_cons, bind_iff]
  rfl

theorem get_iff {ok : σ → σ → Prop} :
    Ends (get : EStateM ε σ σ) s ok failed ↔ ok s s := Iff.rfl

theorem modify_iff {f : σ → σ} {ok : PUnit → σ → Prop} :
    Ends (modify f : EStateM ε σ PUnit) s ok failed ↔ ok ⟨⟩ (f s) := Iff.rfl

theorem ite_iff {c : Prop} [Decidable c] {y : EStateM ε σ α} :
    Ends (if c then x else y) s ok failed ↔
      (c → Ends x s ok failed) ∧ (¬c → Ends y s ok failed) := by
  by_cases h : c <;> simp [h]

theorem anyM {f : α → EStateM ε σ Bool} {l : List α} (misses : α → Prop) (before after : σ → Prop)
    (start : before s)
    (step : ∀ a ∈ l, ∀ s, before s → Ends (f a) s
      (fun hit s => if hit then ¬ misses a ∧ after s else misses a ∧ before s)
      fun e s => ¬ misses a ∧ failed e s) :
    Ends (l.anyM f) s
      (fun hit s => if hit then ¬ (∀ a ∈ l, misses a) ∧ after s else (∀ a ∈ l, misses a) ∧ before s)
      fun e s => ¬ (∀ a ∈ l, misses a) ∧ failed e s := by
  induction l generalizing s with
  | nil => exact ⟨by simp, start⟩
  | cons a l ih =>
    rw [List.anyM, bind_iff]
    refine (step a List.mem_cons_self s start).imp ?_ ?_
    · rintro hit s' h
      cases hit with
      | true => exact ⟨fun all => h.1 (all a List.mem_cons_self), h.2⟩
      | false =>
        refine (ih h.2 fun a mem => step a (List.mem_cons_of_mem _ mem)).imp ?_ ?_
        · rintro hit s'' h'
          cases hit with
          | true => exact ⟨fun all => h'.1 fun a mem => all a (List.mem_cons_of_mem _ mem), h'.2⟩
          | false => exact ⟨List.forall_mem_cons.mpr ⟨h.1, h'.1⟩, h'.2⟩
        · rintro e s'' h'
          exact ⟨fun all => h'.1 fun a mem => all a (List.mem_cons_of_mem _ mem), h'.2⟩
    · rintro e s' h
      exact ⟨fun all => h.1 (all a List.mem_cons_self), h.2⟩

end Ends

/-- An attempt succeeds a number of times, one time after the other. -/
inductive Repeats (x : EStateM ε σ Bool) : Nat → σ → σ → Prop
  | zero (s : σ) : Repeats x 0 s s
  | succ {n : Nat} {s s' s'' : σ} (first : x s = .ok true s') (rest : Repeats x n s' s'') :
      Repeats x (n + 1) s s''

/-- An attempt that leaves less to do each time that it succeeds does so no more often than there is
something to do. -/
theorem Repeats.exists_last {x : EStateM ε σ Bool} {left : Nat → σ → Prop}
    (step : ∀ n s, left n s →
      Ends x s (fun again s' => again = true → ∃ m < n, left m s') fun _ _ => True)
    {n : Nat} {s : σ} (start : left n s) :
    ∃ k m s', k + m ≤ n ∧ Repeats x k s s' ∧ left m s' ∧
      Ends x s' (fun again _ => again = false) fun _ _ => True := by
  induction n using Nat.strongRecOn generalizing s with
  | ind n ih =>
    have here := step n s start
    rcases run : x s with ⟨again, s'⟩ | ⟨e, s'⟩
    · cases again with
      | false => exact ⟨0, n, s, by omega, .zero s, start, by rw [Ends, run]⟩
      | true =>
        obtain ⟨m, less, left⟩ := here.of_ok run rfl
        obtain ⟨k, rest, last, bound, repeats, remain, done⟩ := ih m less left
        exact ⟨k + 1, rest, last, by omega, .succ run repeats, remain, done⟩
    · exact ⟨0, n, s, by omega, .zero s, start, by rw [Ends, run]; trivial⟩

end SecureArith
