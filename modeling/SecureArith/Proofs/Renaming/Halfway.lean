import SecureArith.Proofs.Renaming.Text

set_option autoImplicit false

/-!
# Programs in the middle of a run

Each function of a program owns its values. While the functions are optimized one after the other,
the values of those that are still to come stay as they are, and nothing that is done refers to
them. So the next function is optimized as if it were the first, by other names for what it appends.
-/

namespace SecureArith

namespace Renaming

/-- What comes after a table of length `n` comes after one of length `m` instead. -/
def moved (n m a : Nat) : Nat := if a < n then a else a - n + m

/-- The function at `index` owns its values and what is still to be appended, which comes after what
has been appended for other functions. -/
def shift (p q : Program) (owner : Nat → Nat) (index : Nat) : Renaming where
  owns a := a < p.values.size → owner a = index
  name := moved p.values.size q.values.size

variable {n m a b : Nat}

theorem moved_of_lt (lt : a < n) : moved n m a = a := if_pos lt

theorem moved_of_le (le : n ≤ a) : moved n m a = a - n + m := if_neg (Nat.not_lt.mpr le)

theorem moved_inj (le : n ≤ m) (same : moved n m a = moved n m b) : a = b := by
  unfold moved at same
  split at same <;> split at same <;> omega

end Renaming

namespace Program

variable {p p' q q' : Program} {owner : Nat → Nat} {index a : Nat}

/-- A well-formed program with the same tables and no fewer values. -/
structure Follows (p q : Program) : Prop extends WellFormed q where
  tables : { q with values := p.values } = p
  grows : p.values.size ≤ q.values.size

theorem Follows.vars_eq (h : p.Follows q) : q.vars = p.vars := by
  simpa only using congrArg Program.vars h.tables

theorem Follows.funcs_eq (h : p.Follows q) : q.funcs = p.funcs := by
  simpa only using congrArg Program.funcs h.tables

theorem Follows.helpers_eq (h : p.Follows q) : q.helpers = p.helpers := by
  simpa only using congrArg Program.helpers h.tables

theorem Follows.functions_eq (h : p.Follows q) : q.functions = p.functions := by
  simpa only using congrArg Program.functions h.tables

/-- What the function at `index` does to the program `p` when it is alone, and to `q` when others
are done. -/
structure Advances (owner : Nat → Nat) (index : Nat) (p q p' q' : Program) : Prop where
  alone : p.Follows p'
  follows : q.Follows q'
  renamed : p'.Renamed (.shift p q owner index) (q.values[·]?) q'

/-- The functions before `index` are done. -/
structure Halfway (p : Program) (owner : Nat → Nat) (index : Nat) (q : Program) : Prop
    extends WellFormed q where
  tables : { q with values := p.values, functions := p.functions } = p
  grows : p.values.size ≤ q.values.size
  pending : ∀ a : Nat, a < p.values.size → index ≤ owner a → q.values[a]? = p.values[a]?
  apart : ∀ (a : Nat) (v : Value), (a < p.values.size → owner a < index) → q.values[a]? = some v →
    ∀ x : Nat, x ∈ v.operands → x < p.values.size → owner x < index

theorem WellFormed.halfway (wf : p.WellFormed) (owner : Nat → Nat) : p.Halfway owner 0 p := by
  refine ⟨wf, rfl, Nat.le_refl _, fun _ _ _ => rfl, fun a v done found => ?_⟩
  exact absurd (done (Array.getElem?_eq_some_iff.mp found).1) (Nat.not_lt_zero _)

theorem abreast_shift (wf : p.WellFormed)
    (tables : { q with values := p.values, functions := p.functions } = p)
    (grows : p.values.size ≤ q.values.size)
    (kept : ∀ a < p.values.size, owner a = index → q.values[a]? = p.values[a]?)
    (operands : ∀ (a : Nat) (v : Value), p.values[a]? = some v →
      ∀ x : Nat, x ∈ v.operands → owner x = owner a) :
    Abreast (.shift p q owner index) (q.values[·]?) p p q := by
  refine ⟨⟨tables, fun a b _ _ => Renaming.moved_inj grows, fun a own => ?_, fun _ _ => rfl,
    fun a v _ found => wf.ids a v found, fun a v own found x mem _ => ?_, fun n => ⟨?_, ?_⟩⟩,
    .refl p, grows⟩
  · change q.values[Renaming.moved _ _ a]? = _
    by_cases lt : a < p.values.size
    · rw [Renaming.moved_of_lt lt, kept a lt (own lt)]
      cases found : p.values[a]? with
      | none => rfl
      | some v =>
        refine congrArg some (Value.rename_eq_self ?_ fun x mem => ?_).symm
        · rw [wf.ids a v found]
          exact Renaming.moved_of_lt lt
        · exact Renaming.moved_of_lt (wf.closed a v found x mem)
    · rw [Renaming.moved_of_le (Nat.not_lt.mp lt), Array.getElem?_eq_none (by omega),
        Array.getElem?_eq_none (by omega)]
      rfl
  · rw [operands a v found x mem]
    exact own (Array.getElem?_eq_some_iff.mp found).1
  · exact fun lt => absurd lt (Nat.not_lt.mpr (Nat.le_add_right _ n))
  · change _ = Renaming.moved _ _ _
    rw [Renaming.moved_of_le (Nat.le_add_right _ n), Nat.add_sub_cancel_left, Nat.add_comm]

namespace Halfway

theorem vars_eq (h : p.Halfway owner index q) : q.vars = p.vars := by
  simpa only using congrArg Program.vars h.tables

theorem funcs_eq (h : p.Halfway owner index q) : q.funcs = p.funcs := by
  simpa only using congrArg Program.funcs h.tables

theorem helpers_eq (h : p.Halfway owner index q) : q.helpers = p.helpers := by
  simpa only using congrArg Program.helpers h.tables

theorem abreast (h : p.Halfway owner index q) (wf : p.WellFormed) (divided : p.Divided owner) :
    Abreast (.shift p q owner index) (q.values[·]?) p p q :=
  abreast_shift wf h.tables h.grows (fun a lt own => h.pending a lt (Nat.le_of_eq own.symm))
    divided.operands

theorem advances (h : p.Halfway owner index q) (wf : p.WellFormed) (divided : p.Divided owner) :
    Advances owner index p q p q :=
  ⟨⟨wf, rfl, Nat.le_refl _⟩, ⟨h.toWellFormed, rfl, Nat.le_refl _⟩,
    (h.abreast wf divided).toRenamed⟩

end Halfway

theorem Advances.kept (advances : Advances owner index p q p' q')
    (other : a < p.values.size → owner a ≠ index) (old : a < q.values.size) :
    q'.values[a]? = q.values[a]? := by
  apply advances.renamed.others
  intro (x : Nat) own (same : Renaming.moved _ _ x = a)
  by_cases lt : x < p.values.size
  · rw [Renaming.moved_of_lt lt] at same
    subst same
    exact other lt (own lt)
  · rw [Renaming.moved_of_le (Nat.not_lt.mp lt)] at same
    omega

namespace Halfway

variable {body : List Instruction}

/-- Values of the function at `index` are named, and so is what is appended for it. -/
theorem exists_name (h : p.Halfway owner index q) (new : a < p.values.size → owner a = index)
    (later : p.values.size ≤ a → q.values.size ≤ a) :
    ∃ x, (Renaming.shift p q owner index).owns x ∧
      Renaming.moved p.values.size q.values.size x = a := by
  have grows := h.grows
  by_cases lt : a < p.values.size
  · exact ⟨a, fun _ => new lt, Renaming.moved_of_lt lt⟩
  · have le := later (Nat.not_lt.mp lt)
    have beyond : p.values.size ≤ a - q.values.size + p.values.size := Nat.le_add_left _ _
    refine ⟨a - q.values.size + p.values.size, fun lt' => absurd lt' (Nat.not_lt.mpr beyond), ?_⟩
    rw [Renaming.moved_of_le beyond]
    omega

theorem step (h : p.Halfway owner index q) (advances : Advances owner index p q p' q') :
    p.Halfway owner (index + 1) q' := by
  have grows := h.grows
  have renamed := advances.renamed
  refine ⟨advances.follows.toWellFormed, ?_, Nat.le_trans grows advances.follows.grows,
    fun a lt le => ?_, fun a v done found x mem lt => ?_⟩
  · calc { q' with values := p.values, functions := p.functions }
      _ = { { q' with values := p'.values, functions := p'.functions } with
          values := p.values } := by rw [advances.alone.functions_eq]
      _ = p := by rw [renamed.tables, advances.alone.tables]
  · rw [advances.kept (fun _ => by omega) (by omega)]
    exact h.pending a lt (by omega)
  · by_cases new : (a < p.values.size → owner a = index) ∧ (p.values.size ≤ a → q.values.size ≤ a)
    · -- What the function owns refers to what it owns.
      obtain ⟨b, own, rfl⟩ := h.exists_name new.1 new.2
      replace found := (renamed.values b own).symm.trans found
      obtain ⟨w, isValue, rfl⟩ := Option.map_eq_some_iff.mp found
      rw [Value.operands_rename] at mem
      obtain ⟨y, operand, isName⟩ := List.mem_map.mp mem
      change Renaming.moved _ _ y = x at isName
      by_cases old : y < p.values.size
      · rw [Renaming.moved_of_lt old] at isName
        rw [← isName, renamed.closed b w own isValue y operand old]
        exact Nat.lt_succ_self index
      · rw [Renaming.moved_of_le (Nat.not_lt.mp old)] at isName
        omega
    · have before : (a < p.values.size → owner a < index) ∧ a < q.values.size := by
        by_cases old : a < p.values.size
        · have := done old
          exact ⟨fun _ => by omega, by omega⟩
        · exact ⟨fun old' => absurd old' old, by omega⟩
      rw [advances.kept (fun old => Nat.ne_of_lt (before.1 old)) before.2] at found
      exact Nat.lt_succ_of_lt (h.apart a v before.1 found x mem lt)

theorem withFunctions (h : p.Halfway owner index q) (functions : Array Function) :
    p.Halfway owner index { q with functions } :=
  ⟨h.toWellFormed.withFunctions functions, h.tables, h.grows, h.pending, h.apart⟩

/-- A new body holds nothing of the functions that are still to come. -/
theorem placed (h : p.Halfway owner index q) {body' : List Instruction}
    (renamed : List.Forall₂ (Instruction.Renamed (.shift p q owner index)) body body') :
    ∀ i ∈ body', i.value < p.values.size → owner i.value < index + 1 := by
  intro i mem lt
  obtain ⟨j, -, isName⟩ := exists_of_mem_right renamed mem
  have name := isName.names.eq
  change i.value = Renaming.moved _ _ j.value at name
  by_cases old : j.value < p.values.size
  · rw [Renaming.moved_of_lt old] at name
    rw [name, isName.owns old]
    exact Nat.lt_succ_self index
  · rw [Renaming.moved_of_le (Nat.not_lt.mp old)] at name
    rw [name] at lt
    exact absurd (Nat.lt_of_lt_of_le lt h.grows) (Nat.not_lt.mpr (Nat.le_add_left _ _))

theorem bodyText?_pending (h : p.Halfway owner index q) (wf : p.WellFormed)
    (divided : p.Divided owner) (ext : q.Extends q') (wf' : q'.WellFormed)
    (inside : ∀ i ∈ body, owner i.value = index ∧ i.value < p.values.size) :
    q'.bodyText? body = p.bodyText? body := by
  refine bodyText?_congr (fun a : Nat => owner a = index ∧ a < p.values.size) wf wf'
    (ext.vars_eq.trans h.vars_eq) (ext.funcs_eq.trans h.funcs_eq) ?_ ?_
    fun i mem => ⟨inside i mem, (inside i mem).2⟩
  · rintro a ⟨own, lt⟩
    rw [ext.kept a (Nat.lt_of_lt_of_le lt h.grows), h.pending a lt (Nat.le_of_eq own.symm)]
  · rintro a v ⟨own, lt⟩ found x mem
    exact ⟨(divided.operands a v found x mem).trans own, wf.closed a v found x mem⟩

theorem bodyText?_done (h : p.Halfway owner index q) (advances : Advances owner index p q p' q')
    (inside : ∀ i ∈ body, (i.value < p.values.size → owner i.value < index) ∧
      i.value < q.values.size) : q'.bodyText? body = q.bodyText? body := by
  refine bodyText?_congr
    (fun a : Nat => (a < p.values.size → owner a < index) ∧ a < q.values.size)
    h.toWellFormed advances.follows.toWellFormed advances.follows.vars_eq advances.follows.funcs_eq
    ?_ ?_ fun i mem => ⟨inside i mem, (inside i mem).2⟩
  · rintro a ⟨done, old⟩
    exact advances.kept (fun lt => Nat.ne_of_lt (done lt)) old
  · rintro a v ⟨done, -⟩ found x mem
    exact ⟨h.apart a v done found x mem, h.closed a v found x mem⟩

end Halfway

end Program

end SecureArith
