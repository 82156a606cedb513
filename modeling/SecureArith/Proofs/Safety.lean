import SecureArith.Proofs.Isolation

set_option autoImplicit false

/-!
# Runs stay in range

Optimizing and encoding a function of a sound program meets no index out of range and leaves the
program sound, whether it succeeds or fails. So does a run, and then any number of runs one after
another, which may work on bodies that share values by now. All that a run does fail in is counted.
-/

namespace SecureArith

namespace Program

variable {p q : Program} {f : Function} {index : Nat} {body : List Instruction}

theorem Follows.sound (h : p.Follows q) (sound : p.Sound) (declared : q.Declared) : q.Sound := by
  have functions := h.functions_eq
  have funcs := h.funcs_eq
  have helpers := h.helpers_eq
  refine ⟨h.toWellFormed, declared, ?_, fun g mem i inBody => ?_⟩
  · unfold NamesHelpers
    rw [helpers, funcs]
    exact sound.helpers
  · rw [functions] at mem
    exact Nat.lt_of_lt_of_le (sound.bodies g mem i inBody) h.grows

theorem Sound.withBody (h : p.Sound) (found : p.functions[index]? = some f)
    (inside : ∀ i ∈ body, i.value < p.values.size)
    (same : body.map (·.target?) = f.body.map (·.target?)) :
    Sound { p with functions := p.functions.modify index ({ · with body }) } := by
  have isFunction := Array.mem_of_getElem? found
  have cases {g : Function} (mem : g ∈ p.functions.modify index ({ · with body })) :
      g ∈ p.functions ∨ g = { f with body } := by
    obtain ⟨k, lt, rfl⟩ := Array.mem_iff_getElem.mp mem
    have there := Array.getElem?_eq_getElem lt
    rw [Array.getElem?_modify] at there
    split at there
    · rename_i here
      subst here
      rw [found] at there
      exact .inr (Option.some.inj there).symm
    · exact .inl (Array.mem_of_getElem? there)
  refine ⟨h.toWellFormed.of_tables rfl (fun _ g found => ⟨g, found, rfl⟩) fun _ => .inl,
    ⟨h.reads, fun g mem i inBody x isTarget => ?_, fun g mem x isMpc => ?_⟩, h.helpers,
    fun g mem i inBody => ?_⟩
  · rcases cases mem with old | rfl
    · exact h.targets g old i inBody x isTarget
    · have assigned : i.target? ∈ f.body.map (·.target?) := same ▸ List.mem_map_of_mem inBody
      obtain ⟨j, inOld, eq⟩ := List.mem_map.mp assigned
      exact h.targets f isFunction j inOld x (eq ▸ isTarget)
  · rcases cases mem with old | rfl
    · exact h.environments g old x isMpc
    · exact h.environments f isFunction x isMpc
  · rcases cases mem with old | rfl
    · exact h.bodies g old i inBody
    · exact inside i inBody

end Program

namespace Work

variable {s : Settings} {f : Function} {b : Bench} {index : Nat} {o : Outcome}

/-- What one step of a run keeps, and how it counts the functions and their failures. -/
structure Counts (b : Bench) (o : Outcome) (b' : Bench) (o' : Outcome) (functions : Nat)
    (failures : List Failure) : Prop where
  sound : b'.program.Sound
  size : b'.program.functions.size = b.program.functions.size
  total : o'.stats.total = o.stats.total + functions
  failed : o'.stats.failed = o.stats.failed + failures.length
  kinds : ∀ e ∈ failures, e.kind ≠ .range

theorem counts_nil {b' : Bench} {o' : Outcome} {n : Nat} (sound : b'.program.Sound)
    (size : b'.program.functions.size = b.program.functions.size)
    (total : o'.stats.total = o.stats.total + n) (failed : o'.stats.failed = o.stats.failed) :
    Counts b o b' o' n [] :=
  ⟨sound, size, total, failed, fun _ mem => absurd mem List.not_mem_nil⟩

theorem Counts.trans {b' b'' : Bench} {o' o'' : Outcome} {m n : Nat} {es es' : List Failure}
    (h : Counts b o b' o' m es) (h' : Counts b' o' b'' o'' n es') :
    Counts b o b'' o'' (m + n) (es ++ es') where
  sound := h'.sound
  size := h'.size.trans h.size
  total := by rw [h'.total, h.total, Nat.add_assoc]
  failed := by rw [h'.failed, h.failed, List.length_append, Nat.add_assoc]
  kinds e mem := (List.mem_append.mp mem).elim (h.kinds e) (h'.kinds e)

theorem ends_optimizeAt_counts (sound : b.program.Sound)
    (found : b.program.functions[index]? = some f) :
    Ends (optimizeAt s index f o) b
      (fun out b' => if out.2 then Counts b o b' out.1 0 [] ∧ rewrite s index f b = .ok () b'
        else ∃ e b'', Counts b o b' out.1 0 [e] ∧ rewrite s index f b = .error e b'')
      fun _ _ => False := by
  rw [optimizeAt, rewrite, Ends.ite_iff]
  constructor
  · intro asks
    let b₁ : Bench := { b with journal := b.journal.note (.optimizing f.name) }
    have mem := Array.mem_of_getElem? found
    have optimizes : Ends (optimizeFunction s f) b₁ _ _ :=
      ends_optimizeFunction_sound sound mem b₁.forest b₁.journal
    rw [if_pos asks, note_bind_eq, Ends.bind_iff, note, Ends.modify_iff, Ends.bind_iff]
    apply ends_attempt
    cases run : optimizeFunction s f b₁ with
    | ok out b₂ =>
      obtain ⟨report, body⟩ := out
      obtain ⟨follows, inside, declared⟩ := optimizes.of_ok run
      have same := (ends_optimizeFunction_targets s f b₁).of_ok run
      have functions := follows.functions_eq
      have isFunction : b₂.program.functions[index]? = some f := by rw [functions, found]
      have sound' := (follows.sound sound declared).withBody isFunction inside same
      rw [bind_eq_of_ok run, Ends, run]
      change Ends (setBody index body >>= _) b₂ _ _
      rw [Ends.bind_iff]
      apply ends_setBody isFunction
      refine ⟨counts_nil sound' ?_ rfl rfl, setBody_eq isFunction body⟩
      change (b₂.program.functions.modify index _).size = _
      rw [Array.size_modify, functions]
    | error e b₂ =>
      obtain ⟨follows, -, kind, declared⟩ := optimizes.of_error run
      have functions := follows.functions_eq
      rw [bind_eq_of_error run, Ends, run]
      refine ⟨kind, e, b₂, ⟨follows.sound sound declared, ?_, rfl, rfl, ?_⟩, rfl⟩
      · exact congrArg Array.size functions
      · simpa using kind
  · intro declines
    rw [if_neg declines]
    exact ⟨counts_nil sound rfl rfl rfl, rfl⟩

theorem ends_encodeAt_counts (sound : b.program.Sound) {g : Function}
    (found : b.program.functions[index]? = some g) :
    Ends (encodeAt s index f o) b
      (fun o' b' => Counts b o b' o' 0 (failure? (record s index f) b).toList)
      fun _ _ => False := by
  rw [encodeAt, record, Ends.ite_iff]
  constructor
  · intro asks
    let b₁ : Bench := { b with journal := b.journal.note (.encoding f.name) }
    have found : b₁.program.functions[index]? = some g := found
    have encodes : Ends (encodeFunction s.classifier g) b₁ _ _ :=
      ends_encodeFunction sound.toWellFormed (sound.bodies g (Array.mem_of_getElem? found))
    rw [if_pos asks, failure?, note_bind_eq, bind_eq_of_ok (function_eq found), Ends.bind_iff, note,
      Ends.modify_iff, Ends.bind_iff]
    apply ends_function found
    rw [Ends.bind_iff]
    apply ends_attempt
    cases run : encodeFunction s.classifier g b₁ with
    | ok e b₂ =>
      obtain ⟨program, -⟩ := encodes.of_ok run
      rw [bind_eq_of_ok run, Ends, run]
      exact counts_nil (program ▸ sound) (congrArg (·.functions.size) program) rfl rfl
    | error e b₂ =>
      obtain ⟨kind, program, -⟩ := encodes.of_error run
      rw [bind_eq_of_error run, Ends, run]
      have other : e.kind ≠ .range := by simp [kind]
      refine ⟨other, program ▸ sound, congrArg (·.functions.size) program, rfl, rfl, ?_⟩
      simpa using other
  · intro declines
    rw [if_neg declines]
    exact counts_nil sound rfl rfl rfl

theorem ends_runAt_counts (sound : b.program.Sound) (lt : index < b.program.functions.size) :
    Ends (runAt s o index) b
      (fun o' b' => Counts b o b' o' 1 (failure? (serve s index) b).toList)
      fun _ _ => False := by
  have found : b.program.functions[index]? = some b.program.functions[index] :=
    Array.getElem?_eq_getElem lt
  generalize b.program.functions[index] = f at found
  rw [runAt, serve, failure?, bind_eq_of_ok (function_eq found), Ends.bind_iff]
  apply ends_function found
  dsimp only
  rw [Ends.bind_iff]
  have counted (b' : Bench) (o' : Outcome) (es : List Failure)
      (h : Counts b { o with stats := { o.stats with total := o.stats.total + 1 } } b' o' 0 es) :
      Counts b o b' o' 1 es := ⟨h.sound, h.size, h.total, h.failed, h.kinds⟩
  apply (ends_optimizeAt_counts sound found).imp
  · rintro ⟨o₁, go⟩ b₁ optimized
    cases go with
    | true =>
      obtain ⟨counts, rewritten⟩ := optimized
      have lt₁ : index < b₁.program.functions.size := counts.size ▸ lt
      rw [bind_eq_of_ok rewritten]
      apply (ends_encodeAt_counts counts.sound (Array.getElem?_eq_getElem lt₁)).imp
      · exact fun o₂ b₂ counts' => counted _ _ _ (counts.trans counts')
      · exact fun _ _ fails => fails
    | false =>
      obtain ⟨e, b₂, counts, rewritten⟩ := optimized
      rw [bind_eq_of_error rewritten]
      exact counted _ _ _ counts
  · exact fun _ _ fails => fails

theorem ends_foldlM_runAt {indices : List Nat} (sound : b.program.Sound)
    (inside : ∀ index ∈ indices, index < b.program.functions.size) :
    Ends (indices.foldlM (runAt s) o) b
      (fun o' b' => Counts b o b' o' indices.length (failuresFrom s indices o b))
      fun _ _ => False := by
  induction indices generalizing o b with
  | nil => exact counts_nil sound rfl rfl rfl
  | cons index rest ih =>
    obtain ⟨o₁, b₁, run, first⟩ :=
      (ends_runAt_counts (s := s) (o := o) sound (inside index List.mem_cons_self)).exists_ok
    rw [List.foldlM_cons, Ends, bind_eq_of_ok run, failuresFrom, run]
    apply (ih first.sound _).imp
    · intro o₂ b₂ later
      rw [List.length_cons, Nat.add_comm]
      exact first.trans later
    · exact fun _ _ fails => fails
    · intro k mem
      rw [first.size]
      exact inside k (List.mem_cons_of_mem index mem)

theorem ends_run_of_foldlM {ok : Outcome → Bench → Prop}
    (h : Ends ((List.range b.program.functions.size).foldlM (runAt s) {})
      { b with journal := b.journal.note .starting }
      (fun o b' => ok o { b' with
        journal := b'.journal.note
          (.finished o.stats.optimized o.stats.encoded o.stats.failed o.stats.total) })
      fun _ _ => False) :
    Ends (run s) b ok fun _ _ => False := by
  rw [run, Ends.bind_iff, note, Ends.modify_iff, Ends.bind_iff, Ends.get_iff, Ends.bind_iff]
  exact h

/-- A run succeeds and counts every failure. -/
theorem ends_run_counts (s : Settings) (sound : b.program.Sound) :
    Ends (run s) b (fun o b' => Counts b {} b' o b.program.functions.size (failures s b))
      fun _ _ => False := by
  have inside (index : Nat) (mem : index ∈ List.range b.program.functions.size) :
      index < b.program.functions.size := List.mem_range.mp mem
  apply ends_run_of_foldlM
  apply (ends_foldlM_runAt (b := { b with journal := b.journal.note .starting }) sound inside).imp
  · intro o b' counts
    rw [List.length_range] at counts
    exact ⟨counts.sound, counts.size, counts.total, counts.failed, counts.kinds⟩
  · exact fun _ _ fails => fails

theorem ends_mapM_run (runs : List Settings) (sound : b.program.Sound) :
    Ends (runs.mapM run) b
      (fun _ b' => b'.program.Sound ∧ b'.program.functions.size = b.program.functions.size)
      fun _ _ => False := by
  induction runs generalizing b with
  | nil => exact ⟨sound, rfl⟩
  | cons s rest ih =>
    rw [List.mapM_cons, Ends.bind_iff]
    apply (ends_run_counts s sound).imp
    · intro o b₁ counts
      rw [Ends.bind_iff]
      apply (ih counts.sound).imp
      · exact fun _ _ done => ⟨done.1, done.2.trans counts.size⟩
      · exact fun _ _ fails => fails
    · exact fun _ _ fails => fails

end Work

/-- Whatever was run before on a described program, the next run succeeds and leaves a sound
program, so no index is out of range and no key missing. All functions are counted, and all
failures, which are of other kinds. -/
theorem run_after_runs {p : Program} (described : p.Described) (earlier : List Settings)
    (s : Settings) (forest : Forest) (journal : Journal) :
    ∃ os b o b', earlier.mapM Work.run ⟨p, forest, journal⟩ = .ok os b ∧
      Work.run s b = .ok o b' ∧ b'.program.Sound ∧ o.stats.total = p.functions.size ∧
      o.stats.failed = (Work.failures s b).length ∧ ∀ e ∈ Work.failures s b, e.kind ≠ .range := by
  have before : Ends (earlier.mapM Work.run) ⟨p, forest, journal⟩ _ _ :=
    Work.ends_mapM_run earlier described.sound
  obtain ⟨os, b, ran, sound, size⟩ := before.exists_ok
  obtain ⟨o, b', run, counts⟩ := (Work.ends_run_counts s sound).exists_ok
  refine ⟨os, b, o, b', ran, run, counts.sound, ?_, ?_, counts.kinds⟩
  · rw [counts.total, size]
    exact Nat.zero_add _
  · rw [counts.failed]
    exact Nat.zero_add _

/-- A function whose chain is replaced by a tuple without a type, one with a power that cannot be
expanded, and one that reads a variable without a type. -/
def Description.faulty : Description where
  vars := [⟨"x", some .int⟩, ⟨"y", some .int⟩, ⟨"m", some .int⟩, ⟨"w", none⟩]
  operators := ["__add__", "__mul__", "__pow__", "__matmul__"].map fun name =>
    ⟨.int, name, [.int, .int], .int⟩
  helpers := [⟨MatrixChain.helperName, some .int⟩]
  functions :=
    let product : Expr := .call "__matmul__" [.call "__matmul__" [.var "x", .var "y"], .var "x"]
    let sum : Expr := .call "__add__" [.call "__mul__" [.var "x", .var "y"],
      .call "__mul__" [.var "x", .var "x"]]
    [⟨"chained", some "m", [], ⟨true, true, true⟩, [.eval sum, .ret product]⟩,
      ⟨"powered", none, [], { minimize := true },
        [.eval sum, .ret (.call "__pow__" [.var "x", .var "y"])]⟩,
      ⟨"untyped", none, [], { encode := true }, [.ret (.var "w")]⟩]

theorem run_after_runs_faulty :
    ∃ (p : Program) (os : List Outcome) (b b' : Bench) (o : Outcome), p.Described ∧
      [Settings.ofPreset .aggressive].mapM Work.run ⟨p, {}, {}⟩ = .ok os b ∧
      p.values.size < b.program.values.size ∧
      Work.run (.ofPreset .aggressive) b = .ok o b' ∧ o.stats.total = 3 ∧ o.stats.failed = 3 ∧
      (Work.failures (.ofPreset .aggressive) b).length = 3 ∧
      ∀ e ∈ Work.failures (.ofPreset .aggressive) b, e.kind ≠ .range := by
  have checked : (Description.faulty.first?.any fun (p, _) =>
      (result? ([Settings.ofPreset .aggressive].mapM Work.run) ⟨p, {}, {}⟩).any fun (_, b) =>
        (result? (Work.run (.ofPreset .aggressive)) b).any fun (o, _) =>
          decide (p.functions.size = 3 ∧ p.values.size < b.program.values.size ∧
            o.stats.failed = 3)) = true := by
    decide +kernel
  obtain ⟨⟨p, f⟩, isFirst, checked⟩ := Option.any_eq_true _ _ |>.mp checked
  obtain ⟨⟨os, b⟩, first, checked⟩ := Option.any_eq_true _ _ |>.mp checked
  obtain ⟨⟨o, b'⟩, second, checked⟩ := Option.any_eq_true _ _ |>.mp checked
  obtain ⟨lowered, -⟩ := Description.lower_of_first? isFirst
  obtain ⟨three, grown, fail⟩ := of_decide_eq_true checked
  have first := eq_ok_of_result? first
  have second := eq_ok_of_result? second
  obtain ⟨os', b₁, o', b₁', first', second', -, total, failed, kinds⟩ :=
    run_after_runs ⟨_, lowered⟩ [.ofPreset .aggressive] (.ofPreset .aggressive) {} {}
  cases first.symm.trans first'
  cases second.symm.trans second'
  exact ⟨p, os, b, b', o, ⟨_, lowered⟩, first, grown, second, total.trans three, fail,
    failed.symm.trans fail, kinds⟩

end SecureArith
