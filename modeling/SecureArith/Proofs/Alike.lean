import Mathlib.Data.List.Forall2
import SecureArith.Proofs.Ends

set_option autoImplicit false

/-!
# Runs that end alike

`Alike` relates how two runs end as `Ends` says how one does: both succeed or both fail. `Agrees`
says so of all runs that start in related states, and that they end in related states; it is proved
step by step, along the way in which work is put together.
-/

namespace SecureArith

variable {ε ε' σ τ α β γ δ : Type}

/-- Both runs succeed or both fail. -/
def Alike (x : EStateM ε σ α) (y : EStateM ε' τ β) (s : σ) (t : τ)
    (ok : α → β → σ → τ → Prop) (failed : ε → ε' → σ → τ → Prop) : Prop :=
  match x s, y t with
  | .ok a s, .ok b t => ok a b s t
  | .error e s, .error e' t => failed e e' s t
  | _, _ => False

namespace Alike

variable {x : EStateM ε σ α} {y : EStateM ε' τ β} {s s' : σ} {t : τ}
  {ok ok' : α → β → σ → τ → Prop} {failed failed' : ε → ε' → σ → τ → Prop}

theorem imp (h : Alike x y s t ok failed) (hok : ∀ a b s t, ok a b s t → ok' a b s t)
    (hfailed : ∀ e e' s t, failed e e' s t → failed' e e' s t) : Alike x y s t ok' failed' := by
  unfold Alike at h ⊢
  split at h
  · exact hok _ _ _ _ h
  · exact hfailed _ _ _ _ h
  · exact h

theorem bind {f : α → EStateM ε σ γ} {g : β → EStateM ε' τ δ} {ok : γ → δ → σ → τ → Prop}
    (h : Alike x y s t (fun a b s t => Alike (f a) (g b) s t ok failed) failed) :
    Alike (x >>= f) (y >>= g) s t ok failed := by
  simp only [Alike, Bind.bind, EStateM.bind] at h ⊢
  cases first : x s <;> cases second : y t <;> simp only [first, second] at h ⊢
  · exact h
  · exact h

theorem get_bind {f : σ → EStateM ε σ γ} {g : τ → EStateM ε' τ δ} {ok : γ → δ → σ → τ → Prop}
    (h : Alike (f s) (g t) s t ok failed) :
    Alike (get >>= f) (get >>= g) s t ok failed :=
  bind h

theorem and_left {ok₁ : α → σ → Prop} {failed₁ : ε → σ → Prop} (h : Alike x y s t ok failed)
    (h₁ : Ends x s ok₁ failed₁) :
    Alike x y s t (fun a b s t => ok a b s t ∧ ok₁ a s)
      fun e e' s t => failed e e' s t ∧ failed₁ e s := by
  unfold Alike at h ⊢
  unfold Ends at h₁
  cases first : x s <;> cases second : y t <;> simp only [first, second] at h h₁ ⊢
  · exact ⟨h, h₁⟩
  · exact ⟨h, h₁⟩

theorem and_right {ok₂ : β → τ → Prop} {failed₂ : ε' → τ → Prop} (h : Alike x y s t ok failed)
    (h₂ : Ends y t ok₂ failed₂) :
    Alike x y s t (fun a b s t => ok a b s t ∧ ok₂ b t)
      fun e e' s t => failed e e' s t ∧ failed₂ e' t := by
  unfold Alike at h ⊢
  unfold Ends at h₂
  cases first : x s <;> cases second : y t <;> simp only [first, second] at h h₂ ⊢
  · exact ⟨h, h₂⟩
  · exact ⟨h, h₂⟩

theorem of_ok {a : α} (h : Alike x y s t ok failed) (run : x s = .ok a s') :
    Ends y t (fun b t' => ok a b s' t') fun _ _ => False := by
  unfold Alike at h
  unfold Ends
  rw [run] at h
  cases second : y t <;> simp only [second] at h ⊢
  exact h

theorem of_error {e : ε} (h : Alike x y s t ok failed) (run : x s = .error e s') :
    Ends y t (fun _ _ => False) fun e' t' => failed e e' s' t' := by
  unfold Alike at h
  unfold Ends
  rw [run] at h
  cases second : y t <;> simp only [second] at h ⊢
  exact h

end Alike

/-- Runs that start in related states end alike, in related states. -/
def Agrees (S : σ → τ → Prop) (E : ε → ε' → Prop) (Q : α → β → Prop) (x : EStateM ε σ α)
    (y : EStateM ε' τ β) : Prop :=
  ∀ s t, S s t → Alike x y s t (fun a b s t => Q a b ∧ S s t) fun e e' s t => E e e' ∧ S s t

namespace Agrees

variable {S : σ → τ → Prop} {E : ε → ε' → Prop} {Q : α → β → Prop} {x : EStateM ε σ α}
  {y : EStateM ε' τ β}

theorem pure {a : α} {b : β} (h : Q a b) :
    Agrees S E Q (Pure.pure a : EStateM ε σ α) (Pure.pure b : EStateM ε' τ β) :=
  fun _ _ start => ⟨h, start⟩

theorem throw {e : ε} {e' : ε'} (h : E e e') :
    Agrees S E Q (MonadExcept.throw e : EStateM ε σ α) (MonadExcept.throw e' : EStateM ε' τ β) :=
  fun _ _ start => ⟨h, start⟩

theorem throw_bind {e : ε} {e' : ε'} {f : γ → EStateM ε σ α} {g : δ → EStateM ε' τ β}
    (h : E e e') :
    Agrees S E Q ((MonadExcept.throw e : EStateM ε σ γ) >>= f)
      ((MonadExcept.throw e' : EStateM ε' τ δ) >>= g) :=
  fun _ _ start => ⟨h, start⟩

theorem get : Agrees S E S (MonadState.get : EStateM ε σ σ) (MonadState.get : EStateM ε' τ τ) :=
  fun _ _ start => ⟨start, start⟩

theorem modify {f : σ → σ} {g : τ → τ} (h : ∀ s t, S s t → S (f s) (g t)) :
    Agrees S E (fun _ _ => True) (modify f : EStateM ε σ PUnit)
      (modify g : EStateM ε' τ PUnit) :=
  fun s t start => ⟨trivial, h s t start⟩

theorem bind {f : α → EStateM ε σ γ} {g : β → EStateM ε' τ δ} {R : γ → δ → Prop}
    (h : Agrees S E Q x y) (next : ∀ a b, Q a b → Agrees S E R (f a) (g b)) :
    Agrees S E R (x >>= f) (y >>= g) := by
  intro s t start
  apply Alike.bind
  apply (h s t start).imp
  · exact fun a b s t done => next a b done.1 s t done.2
  · exact fun _ _ _ _ fails => fails

theorem map {f : α → γ} {g : β → δ} {R : γ → δ → Prop} (h : Agrees S E Q x y)
    (next : ∀ a b, Q a b → R (f a) (g b)) : Agrees S E R (f <$> x) (g <$> y) := by
  rw [map_eq_pure_bind, map_eq_pure_bind]
  exact h.bind fun a b related => .pure (next a b related)

theorem ite {c c' : Prop} [Decidable c] [Decidable c'] {x' : EStateM ε σ α} {y' : EStateM ε' τ β}
    (same : c ↔ c') (pos : c → Agrees S E Q x y) (neg : ¬ c → Agrees S E Q x' y') :
    Agrees S E Q (if c then x else x') (if c' then y else y') := by
  by_cases h : c
  · rw [if_pos h, if_pos (same.mp h)]
    exact pos h
  · rw [if_neg h, if_neg fun h' => h (same.mpr h')]
    exact neg h

theorem mapM {R : γ → δ → Prop} {l : List γ} {l' : List δ} {f : γ → EStateM ε σ α}
    {g : δ → EStateM ε' τ β} (related : List.Forall₂ R l l')
    (step : ∀ a b, R a b → Agrees S E Q (f a) (g b)) :
    Agrees S E (List.Forall₂ Q) (l.mapM f) (l'.mapM g) := by
  induction related with
  | nil => exact .pure .nil
  | cons head _ ih =>
    rw [List.mapM_cons, List.mapM_cons]
    apply (step _ _ head).bind
    intro a b first
    apply ih.bind
    intro as bs rest
    exact .pure (.cons first rest)

/-! The same list on both sides, with the same results. -/

variable {f : γ → EStateM ε σ α} {l : List γ}

theorem mapM_eq {g : γ → EStateM ε' τ α} (step : ∀ a, Agrees S E Eq (f a) (g a)) :
    Agrees S E Eq (l.mapM f) (l.mapM g) := by
  induction l with
  | nil => exact .pure rfl
  | cons a l ih =>
    rw [List.mapM_cons, List.mapM_cons]
    apply (step a).bind
    rintro first _ rfl
    apply ih.bind
    rintro rest _ rfl
    exact .pure rfl

theorem optionMapM {o : Option γ} {g : γ → EStateM ε' τ α}
    (step : ∀ a, Agrees S E Eq (f a) (g a)) : Agrees S E Eq (o.mapM f) (o.mapM g) := by
  cases o with
  | none => exact .pure rfl
  | some a =>
    rw [Option.mapM_some, Option.mapM_some]
    exact (step a).map fun _ _ eq => congrArg some eq

theorem forM {f : γ → EStateM ε σ PUnit} {g : γ → EStateM ε' τ PUnit}
    (step : ∀ a, Agrees S E (fun _ _ => True) (f a) (g a)) :
    Agrees S E (fun _ _ => True) (l.forM f) (l.forM g) := by
  induction l with
  | nil => exact .pure trivial
  | cons a l ih => exact (step a).bind fun _ _ _ => ih

theorem anyM {f : γ → EStateM ε σ Bool} {g : γ → EStateM ε' τ Bool}
    (step : ∀ a, Agrees S E Eq (f a) (g a)) : Agrees S E Eq (l.anyM f) (l.anyM g) := by
  induction l with
  | nil => exact .pure rfl
  | cons a l ih =>
    rw [List.anyM, List.anyM]
    apply (step a).bind
    rintro found _ rfl
    cases found with
    | true => exact .pure rfl
    | false => exact ih

end Agrees

end SecureArith
