import SecureArith.Proofs.Lowering
import SecureArith.Proofs.Minimize

set_option autoImplicit false

/-!
# The optimizer preserves meaning

A body that assigns each variable once, and none that was read before, is stable. So the registry
stays coherent while such a body is minimized, and the new body computes, instruction by
instruction, what the old one does.
-/

namespace SecureArith

namespace Program

variable {p : Program} {deps : List (VarId × List VarId)} {id : Nat} {x : VarId}

/-- No variable is assigned twice, and none by an instruction that reads it itself or that comes
after one that does. -/
def AssignsOnce (p : Program) (body : List Instruction) : Prop :=
  (∀ i ∈ body, ∀ v ∈ i.target?, v ∉ p.reads i.value) ∧
    body.Pairwise fun i j => ∀ v ∈ j.target?, v ∉ i.target? ∧ v ∉ p.reads i.value

instance (p : Program) (body : List Instruction) : Decidable (p.AssignsOnce body) :=
  inferInstanceAs (Decidable (_ ∧ _))

/-- Trees read what their values read and what the trees of variables read. -/
theorem WellFormed.mem_treeReads (wf : p.WellFormed) (h : x ∈ p.treeReads deps id) :
    x ∈ p.reads id ∨ ∃ entry ∈ deps, x ∈ entry.2 := by
  have go (depth id : Nat) (h : x ∈ p.treeReadsTo deps depth id) :
      x ∈ p.reads id ∨ ∃ entry ∈ deps, x ∈ entry.2 := by
    induction depth generalizing id with
    | zero => simp [treeReadsTo] at h
    | succ depth ih =>
      rw [treeReadsTo] at h
      split at h
      · rename_i valueId type y found
        cases known : deps.lookup y with
        | none =>
          rw [known] at h
          rw [reads_eq_of_found wf found]
          exact .inl h
        | some reads =>
          rw [known] at h
          exact .inr ⟨_, mem_of_lookup known, h⟩
      · rename_i valueId type func a b found
        have operand {a' : Nat} (mem : a' ∈ [a, b]) (read : x ∈ p.reads a') : x ∈ p.reads id :=
          wf.mem_reads_of_operand found mem read
        rcases List.mem_append.mp h with h | h
        · exact (ih a h).imp_left (operand (by simp))
        · exact (ih b h).imp_left (operand (by simp))
      · exact .inl h
  exact go _ id h

/-- What is known of registered trees comes from the instructions before. -/
def KnownFrom (p : Program) (before : List Instruction) (deps : List (VarId × List VarId)) : Prop :=
  ∀ entry ∈ deps, (∃ i ∈ before, entry.1 ∈ i.target?) ∧
    ∀ x ∈ entry.2, ∃ i ∈ before, x ∈ p.reads i.value

theorem KnownFrom.after {before : List Instruction} (wf : p.WellFormed)
    (known : p.KnownFrom before deps) (i : Instruction) :
    p.KnownFrom (before ++ [i]) (p.depsAfter deps i) := by
  have old : p.KnownFrom (before ++ [i]) deps := by
    intro entry mem
    obtain ⟨⟨j, inBefore, target⟩, reads⟩ := known entry mem
    refine ⟨⟨j, List.mem_append_left _ inBefore, target⟩, fun x read => ?_⟩
    obtain ⟨j, inBefore, read⟩ := reads x read
    exact ⟨j, List.mem_append_left _ inBefore, read⟩
  have last : i ∈ before ++ [i] := List.mem_append_right _ List.mem_cons_self
  cases i with
  | ret | eval => exact old
  | assign v id =>
    rw [depsAfter]
    split
    · exact old
    · intro entry mem
      rcases List.mem_cons.mp mem with rfl | mem
      · refine ⟨⟨_, last, rfl⟩, fun x read => ?_⟩
        rcases wf.mem_treeReads read with own | ⟨entry, mem, read⟩
        · exact ⟨_, last, own⟩
        · exact (old entry mem).2 x read
      · exact old entry (List.mem_of_mem_filter mem)

theorem stable_of_assignsOnce {before body : List Instruction} (wf : p.WellFormed)
    (once : p.AssignsOnce (before ++ body))
    (known : p.KnownFrom before deps) : p.Stable deps body := by
  induction body generalizing before deps with
  | nil => trivial
  | cons i rest ih =>
    have known' := known.after wf i
    refine ⟨?_, ih (by simpa using once) known'⟩
    obtain ⟨own, pairs⟩ := once
    have earlier (j : Instruction) (mem : j ∈ before) :=
      (List.pairwise_append.mp pairs).2.2 j mem i List.mem_cons_self
    cases i with
    | ret | eval => trivial
    | assign v id =>
      refine ⟨fun entry mem read => ?_, fun _ => ?_⟩
      · obtain ⟨j, inside, read⟩ := (known' entry mem).2 v read
        rcases List.mem_append.mp inside with inBefore | isLast
        · exact (earlier j inBefore v rfl).2 read
        · cases List.mem_singleton.mp isLast
          exact own _ (by simp) v rfl read
      · cases found : deps.lookup v with
        | none => rfl
        | some reads =>
          obtain ⟨j, inBefore, target⟩ := (known _ (mem_of_lookup found)).1
          exact absurd target (earlier j inBefore v rfl).1

end Program

namespace Work

universe u

variable {R : Type u} [CommRing R] {I : Interpretation R} {s : Settings} {p : Program}
  {f : Function}

theorem ends_aside {α : Type} {x : Work α} {forest : Forest} {journal : Journal}
    {ok : α → Bench → Prop} {failed : Failure → Bench → Prop} :
    Ends (aside x) ⟨p, forest, journal⟩ ok failed ↔
      Ends x ⟨p, {}, journal⟩ (fun a b => ok a { b with forest })
        fun e b => failed e { b with forest } := by
  simp only [Ends, aside]
  cases x ⟨p, {}, journal⟩ <;> rfl

theorem ends_minimizeFunction {journal : Journal} (laws : I.Arithmetic) (wf : p.WellFormed)
    (inside : ∀ i ∈ f.body, i.value < p.values.size) :
    Ends (minimizeFunction s f) ⟨p, {}, journal⟩
      (fun out b' => p.Linked s.classifier b'.program ∧
        (∀ i ∈ out.1, i.value < b'.program.values.size) ∧
        ∀ env, p.Stable [] f.body → b'.program.trace? I env out.1 = p.trace? I env f.body)
      fun e b' => p.Linked s.classifier b'.program ∧ e.kind ≠ .range := by
  rw [minimizeFunction, Ends.ite_iff]
  refine ⟨fun _ => ?_, fun _ => ⟨.refl, inside, fun _ _ => rfl⟩⟩
  refine (ends_minimizeBody laws wf (Bench.keeps_empty _ p journal) inside).imp ?_
    fun _ _ h => h
  rintro out b' ⟨trees, keeps, -, inside', run⟩
  refine ⟨keeps.linked, inside', fun env stable => (run [] env ?_ ?_ stable).1⟩
  · exact fun _ => rfl
  · exact nofun

theorem replaceChainsOf_eq (noChains : s.reorderMatmuls = false) (f : Function)
    (body : List Instruction) : replaceChainsOf s f body = pure 0 := by
  have off : s.replacesChainsOf f = false := by simp [Settings.replacesChainsOf, noChains]
  rw [replaceChainsOf, off]
  rfl

theorem ends_optimizeFunction {forest : Forest} {journal : Journal} (laws : I.Arithmetic)
    (wf : p.WellFormed) (inside : ∀ i ∈ f.body, i.value < p.values.size)
    (noChains : s.reorderMatmuls = false) :
    Ends (optimizeFunction s f) ⟨p, forest, journal⟩
      (fun out b' => p.Linked s.classifier b'.program ∧
        ∀ env, p.Stable [] f.body → b'.program.trace? I env out.2 = p.trace? I env f.body)
      fun _ b' => p.Linked s.classifier b'.program := by
  rw [optimizeFunction, ends_aside, Ends.bind_iff]
  refine (ends_minimizeFunction laws wf inside).imp ?_ fun _ _ h => h.1
  rintro ⟨body, regenerated⟩ b' done
  dsimp only
  rw [replaceChainsOf_eq noChains, pure_bind, Ends.bind_iff]
  exact ends_counts ⟨done.1, done.2.2⟩ fun _ => done.1

end Work

universe u

/-- Executing the new body yields, instruction by instruction, the values and environments that the
old body yields. -/
theorem trace?_optimizeFunction {R : Type u} [CommRing R] {I : Interpretation R} {s : Settings}
    {p : Program} {f : Function} {forest : Forest} {journal : Journal} {report : Report}
    {body : List Instruction} {b : Bench} (described : p.Described) (mem : f ∈ p.functions)
    (noChains : s.reorderMatmuls = false) (once : p.AssignsOnce f.body) (laws : I.Arithmetic)
    (run : Work.optimizeFunction s f ⟨p, forest, journal⟩ = .ok (report, body) b) (env : Env R) :
    (p.trace? I env f.body).isSome ∧
      b.program.trace? I env body = p.trace? I env f.body := by
  have sound := described.sound
  have inside := sound.bodies f mem
  have start : p.KnownFrom [] [] := nofun
  have once : p.AssignsOnce ([] ++ f.body) := once
  have stable := Program.stable_of_assignsOnce sound.toWellFormed once start
  have optimized := (Work.ends_optimizeFunction laws sound.toWellFormed inside noChains).of_ok run
  exact ⟨sound.isSome_trace? inside, optimized.2 env stable⟩

/-- Integers, where the other callees yield zero. -/
def Interpretation.integers : Interpretation Int where
  int n := n
  float _ := 0
  call name args :=
    match args with
    | [a, b] =>
      if name = "__add__" then a + b
      else if name = "__mul__" then a * b
      else if name = "__pow__" then a ^ b.toNat
      else 0
    | _ => 0
  tuple _ := 0

theorem Interpretation.arithmetic_integers : integers.Arithmetic where
  add _ _ := rfl
  mul _ _ := rfl
  pow _ _ _ _ := rfl
  float_eq _ _ _ := rfl

/-- The sum of two products with a common factor is assigned, and its square is returned. -/
def Description.factorable : Description where
  vars := ["x", "y", "z"].map fun name => ⟨name, some .int⟩
  operators := ["__add__", "__mul__", "__pow__"].map fun name => ⟨.int, name, [.int, .int], .int⟩
  functions := [{
    name := "f"
    mpc := none
    params := ["x", "y", "z"]
    attributes := { minimize := true }
    body := [
      .assign "s" (.call "__add__" [.call "__mul__" [.var "x", .var "y"],
        .call "__mul__" [.var "x", .var "z"]]),
      .ret (.call "__pow__" [.var "s", .int 2])] }]

theorem trace?_optimizeFunction_factorable :
    ∃ (p : Program) (f : Function) (report : Report) (body : List Instruction) (b : Bench),
      p.Described ∧ f ∈ p.functions ∧ p.AssignsOnce f.body ∧
      Work.optimizeFunction (.ofPreset .basic) f ⟨p, {}, {}⟩ = .ok (report, body) b ∧
      report.regenerated = 2 ∧
      ∀ env, (p.trace? .integers env f.body).isSome ∧
        b.program.trace? .integers env body = p.trace? .integers env f.body := by
  have checked : (Description.factorable.first?.any fun (p, f) =>
      (result? (Work.optimizeFunction (.ofPreset .basic) f) ⟨p, {}, {}⟩).any fun (out, _) =>
        decide (p.AssignsOnce f.body ∧ out.1.regenerated = 2)) = true := by
    decide +kernel
  obtain ⟨⟨p, f⟩, isFirst, checked⟩ := Option.any_eq_true _ _ |>.mp checked
  obtain ⟨⟨⟨report, body⟩, b⟩, result, checked⟩ := Option.any_eq_true _ _ |>.mp checked
  obtain ⟨lowered, mem⟩ := Description.lower_of_first? isFirst
  obtain ⟨once, two⟩ := of_decide_eq_true checked
  have run := eq_ok_of_result? result
  refine ⟨p, f, report, body, b, ⟨_, lowered⟩, mem, once, run, two, fun env => ?_⟩
  exact trace?_optimizeFunction ⟨_, lowered⟩ mem rfl once Interpretation.arithmetic_integers run env

end SecureArith
