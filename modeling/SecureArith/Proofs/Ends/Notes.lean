import SecureArith.Proofs.Ends.Work

set_option autoImplicit false

/-!
# What work notes

`Notes kind x` says that all events that `x` adds to the journal are of a kind, wherever it is done
and however it ends. One lemma for each way of putting work together.
-/

namespace SecureArith

variable {α β : Type} {kind : Event → Prop}

/-- Events were added, all of a kind. -/
def Journal.Grew (kind : Event → Prop) (j j' : Journal) : Prop :=
  ∃ new, j'.events.toList = j.events.toList ++ new ∧ ∀ e ∈ new, kind e

namespace Journal.Grew

theorem refl (j : Journal) : j.Grew kind j := ⟨[], by simp, by simp⟩

theorem trans {j j' j'' : Journal} (h : j.Grew kind j') (h' : j'.Grew kind j'') :
    j.Grew kind j'' := by
  obtain ⟨new, eq, all⟩ := h
  obtain ⟨new', eq', all'⟩ := h'
  refine ⟨new ++ new', by rw [eq', eq, List.append_assoc], fun e mem => ?_⟩
  rcases List.mem_append.mp mem with mem | mem
  · exact all e mem
  · exact all' e mem

theorem note (j : Journal) {e : Event} (h : kind e) : j.Grew kind (j.note e) := by
  unfold Journal.note
  split
  · exact ⟨[e], by simp, by simpa using h⟩
  · exact .refl j

end Journal.Grew

namespace Work

def Notes (kind : Event → Prop) (x : Work α) : Prop :=
  ∀ b, Ends x b (fun _ b' => b.journal.Grew kind b'.journal)
    fun _ b' => b.journal.Grew kind b'.journal

namespace Notes

theorem of_kept {x : Work α}
    (h : ∀ b, Ends x b (fun _ b' => b'.journal = b.journal) fun _ b' => b'.journal = b.journal) :
    Notes kind x := by
  intro b
  refine (h b).imp ?_ ?_
  · rintro _ b' same
    rw [same]
    exact .refl b.journal
  · rintro _ b' same
    rw [same]
    exact .refl b.journal

theorem pure (a : α) : Notes kind (pure a : Work α) := fun b => Journal.Grew.refl b.journal

theorem throw (e : Failure) : Notes kind (throw e : Work α) := fun b => Journal.Grew.refl b.journal

theorem bind {x : Work α} {f : α → Work β} (hx : Notes kind x) (hf : ∀ a, Notes kind (f a)) :
    Notes kind (x >>= f) := by
  intro b
  rw [Ends.bind_iff]
  refine (hx b).imp ?_ fun _ _ h => h
  rintro a b' grew
  exact (hf a b').imp (fun _ _ h => grew.trans h) fun _ _ h => grew.trans h

theorem ite {c : Prop} [Decidable c] {x y : Work α} (hx : Notes kind x) (hy : Notes kind y) :
    Notes kind (if c then x else y) := by
  split
  · exact hx
  · exact hy

theorem get : Notes kind (get : Work Bench) := fun b => Journal.Grew.refl b.journal

theorem onStore (x : StoreM α) : Notes kind (onStore x) := by
  refine .of_kept fun b => ?_
  rw [ends_onStore]
  exact (Ends.trivial x b.forest.store).imp (fun _ _ _ => rfl) fun _ _ _ => rfl

theorem node (id : NodeId) : Notes kind (node id) := .onStore _

theorem tree (id : NodeId) : Notes kind (tree id) := .bind .get fun _ => .pure _

theorem demand (x : Option α) : Notes kind (demand x) := by
  cases x with
  | none => exact .throw _
  | some a => exact .pure a

theorem shown (id : NodeId) : Notes kind (shown id) := .bind (.tree id) fun _ => .demand _

theorem isSecure (c : Classifier) (id : NodeId) : Notes kind (isSecure c id) :=
  .bind (.onStore _) fun _ => .pure _

theorem note {e : Event} (h : kind e) : Notes kind (note e) := fun b => Journal.Grew.note b.journal h

theorem noteAt {level : Level} {event : Work Event} (worked : Notes kind event)
    (h : ∀ b, Ends event b (fun e _ => kind e) fun _ _ => True) :
    Notes kind (noteAt level event) := by
  intro b
  rw [Work.noteAt, Ends.bind_iff, Ends.get_iff, Ends.ite_iff]
  refine ⟨fun _ => ?_, fun _ => .refl b.journal⟩
  rw [Ends.bind_iff]
  refine ((worked b).and (h b)).imp ?_ fun _ _ h => h.1
  rintro e b' ⟨grew, isKind⟩
  exact (note isKind b').imp (fun _ _ h => grew.trans h) fun _ _ h => grew.trans h

theorem anyM {f : α → Work Bool} {l : List α} (h : ∀ a, Notes kind (f a)) :
    Notes kind (l.anyM f) := by
  induction l with
  | nil => exact .pure false
  | cons a l ih =>
    rw [List.anyM]
    refine (h a).bind fun hit => ?_
    cases hit with
    | true => exact .pure true
    | false => exact ih

theorem repeats {x : Work Bool} {n : Nat} {b b' : Bench} (h : Notes kind x)
    (repeats : Repeats x n b b') : b.journal.Grew kind b'.journal := by
  induction repeats with
  | zero b => exact .refl b.journal
  | succ first _ ih => exact ((h _).of_ok first).trans ih

end Notes

end Work

end SecureArith
