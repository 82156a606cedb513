import SecureArith.Proofs.Serving
import SecureArith.Proofs.Stationary

set_option autoImplicit false

/-!
# Running twice

What becomes of a function does not depend on the values that are appended later. So a function that
could not be rewritten fails again in the same way, and one that was rewritten by factoring alone
stays as it is, with the same encoding or the same failure of it. `Work.verdicts` tells of each
function of a run how its rewriting and its encoding fail, and is the same for a second run.
-/

namespace SecureArith

namespace Program

variable {p q : Program} {id : Nat} {body : List Instruction}

theorem Precedes.abreast (h : p.Precedes q) (wf : p.WellFormed) :
    Abreast (.shift p q (fun _ => 0) 0) (q.values[·]?) p p q :=
  abreast_shift wf h.tables h.grows (fun a lt _ => h.kept a lt) fun _ _ _ _ _ => rfl

theorem Precedes.assignsOnce (h : p.Precedes q) (wf : p.WellFormed)
    (inside : ∀ i ∈ body, i.value < p.values.size) (once : p.AssignsOnce body) :
    q.AssignsOnce body := by
  have reads (i : Instruction) (mem : i ∈ body) : q.reads i.value = p.reads i.value :=
    h.reads_eq wf (inside i mem)
  refine ⟨fun i mem => ?_, once.2.imp_of_mem fun {i j} mem _ apart => ?_⟩
  · rw [reads i mem]
    exact once.1 i mem
  · rwa [reads i mem]

end Program

namespace Work

variable {s : Settings} {p q : Program} {f : Function} {forest forest' : Forest}
  {journal journal' : Journal} {level : Option Level}

theorem alike_optimizeFunction_later (precedes : p.Precedes q) (wf : p.WellFormed)
    (wf' : q.WellFormed) (helpers : p.NamesHelpers)
    (inside : ∀ i ∈ f.body, i.value < p.values.size) (left : journal.level = level)
    (right : journal'.level = level) :
    Alike (optimizeFunction s f) (optimizeFunction s f) ⟨p, forest, journal⟩ ⟨q, forest', journal'⟩
      (fun _ _ _ c => c.journal.level = level)
      fun e e' _ c => e.kind = e'.kind ∧ c.journal.level = level := by
  have self : List.Forall₂ (Instruction.Renamed (.shift p q (fun _ => 0) 0)) f.body f.body :=
    List.forall₂_same.mpr fun i mem =>
      Instruction.renamed_self (fun _ => rfl) (Renaming.moved_of_lt (inside i mem))
  exact (alike_optimizeFunction (precedes.abreast wf) wf wf' helpers self inside left right).imp
    (fun _ _ _ _ done => done.2.2.2) fun _ _ _ _ fails => ⟨fails.1, fails.2.2⟩

theorem ends_optimizeFunction_level (wf : p.WellFormed) (helpers : p.NamesHelpers)
    (inside : ∀ i ∈ f.body, i.value < p.values.size) (forest : Forest) (journal : Journal) :
    Ends (optimizeFunction s f) ⟨p, forest, journal⟩
      (fun _ b => b.journal.level = journal.level) fun _ b => b.journal.level = journal.level := by
  have alike : Alike (optimizeFunction s f) (optimizeFunction s f) ⟨p, forest, journal⟩
      ⟨p, forest, journal⟩ _ _ :=
    alike_optimizeFunction_later (.refl p) wf wf helpers inside rfl rfl
  unfold Ends
  cases run : optimizeFunction s f ⟨p, forest, journal⟩ with
  | ok out b => exact (alike.of_ok run).of_ok run
  | error e b => exact ((alike.of_error run).of_error run).2

/-- What optimizing and encoding a function comes to from a program on, whatever is appended to it:
either it stays as it is, or it fails. -/
structure Spent (s : Settings) (level : Option Level) (p : Program) (f : Function) (v : Verdict) :
    Prop where
  inside : ∀ i ∈ f.body, i.value < p.values.size
  rewrites : s.optimizes f = true → ∀ (q : Program) (forest : Forest) (journal : Journal),
    p.Precedes q → q.WellFormed → journal.level = level →
    Ends (optimizeFunction s f) ⟨q, forest, journal⟩
      (fun out b => v.rewriting = none ∧ out.1.regenerated = 0 ∧ out.2 = f.body ∧ b.program = q)
      fun e b => v = ⟨some e.kind, some e.kind⟩ ∧ q.Extends b.program
  declines : s.optimizes f = false → v.rewriting = none
  serving : v.rewriting = none → v.serving = encodingKind? s p f

theorem Spent.mono {v : Verdict} (h : Spent s level p f v) (precedes : p.Precedes q)
    (wf : p.WellFormed) : Spent s level q f v where
  inside i mem := Nat.lt_of_lt_of_le (h.inside i mem) precedes.grows
  rewrites asks r forest journal later := h.rewrites asks r forest journal (precedes.trans later)
  declines := h.declines
  serving succeeds := (h.serving succeeds).trans (encodingKind?_eq precedes wf h.inside).symm

theorem spent_of_declined (declines : s.optimizes f = false)
    (inside : ∀ i ∈ f.body, i.value < p.values.size) :
    Spent s level p f ⟨none, encodingKind? s p f⟩ :=
  ⟨inside, fun asks => absurd (declines.symm.trans asks) Bool.false_ne_true, fun _ => rfl,
    fun _ => rfl⟩

theorem spent_of_stationary (wf : p.WellFormed) (inside : ∀ i ∈ f.body, i.value < p.values.size)
    (stationary : s.changesTreesOf f = true → p.Stationary (fun _ => none) f.body)
    (noPowers : s.expandPowers = false) (off : s.reorderPriorities = false)
    (noChains : s.reorderMatmuls = false) :
    Spent s level p f ⟨none, encodingKind? s p f⟩ := by
  refine ⟨inside, fun _ q forest journal precedes wf' _ => ?_, fun _ => rfl, fun _ => rfl⟩
  refine (ends_optimizeFunction_rests wf' (fun i mem => Nat.lt_of_lt_of_le (inside i mem)
    precedes.grows) (fun asks => (stationary asks).mono precedes wf) noPowers off noChains forest
    journal).imp ?_ fun _ _ fails => fails.elim
  rintro out b ⟨regenerated, -, body, program⟩
  exact ⟨rfl, regenerated, body, program⟩

theorem spent_of_failed {e : Failure} {b : Bench} (wf : p.WellFormed) (helpers : p.NamesHelpers)
    (inside : ∀ i ∈ f.body, i.value < p.values.size) (asks : s.optimizes f = true)
    (noChains : s.reorderMatmuls = false)
    (run : optimizeFunction s f ⟨p, forest, journal⟩ = .error e b) :
    Spent s journal.level p f ⟨some e.kind, some e.kind⟩ := by
  refine ⟨inside, fun _ q forest' journal' precedes wf' level => ?_, fun declines =>
    absurd (declines.symm.trans asks) Bool.false_ne_true, fun succeeds => ?_⟩
  · have inside' (i : Instruction) (mem : i ∈ f.body) : i.value < q.values.size :=
      Nat.lt_of_lt_of_le (inside i mem) precedes.grows
    have fails : Ends (optimizeFunction s f) ⟨q, forest', journal'⟩ _ _ :=
      (alike_optimizeFunction_later precedes wf wf' helpers inside rfl level).of_error run
    refine (fails.and (ends_optimizeFunction Interpretation.arithmetic_integers wf' inside'
      noChains)).imp (fun _ _ done => done.1.elim) ?_
    rintro e' c ⟨⟨kind, -⟩, linked⟩
    exact ⟨by rw [kind], linked.extends⟩
  · exact absurd succeeds (Option.some_ne_none _)

section Steps

variable {index : Nat} {o o' : Outcome} {b b' : Bench}

theorem Served.spends (h : Served s index f o b o' b') (sound : b.program.Sound)
    (found : b.program.functions[index]? = some f) (once : b.program.AssignsOnce f.body)
    (noPowers : s.expandPowers = false) (off : s.reorderPriorities = false)
    (noChains : s.reorderMatmuls = false) :
    b.program.Precedes b'.program ∧ b'.journal.level = b.journal.level ∧
      ∃ body, b'.program.functions = b.program.functions.modify index ({ · with body }) ∧
        Spent s b.journal.level b'.program { f with body } (verdict s index b) := by
  let noted := b.journal.note (.optimizing f.name)
  have wf := sound.toWellFormed
  have mem := Array.mem_of_getElem? found
  have inside := sound.bodies f mem
  have unchanged := modify_body_self found
  have optimizes : Ends (optimizeFunction s f) ⟨b.program, b.forest, noted⟩ _ _ :=
    ends_optimizeFunction_stationary wf inside once noPowers off noChains b.forest noted
  have leveled : Ends (optimizeFunction s f) ⟨b.program, b.forest, noted⟩ _ _ :=
    ends_optimizeFunction_level wf sound.helpers inside b.forest noted
  cases h with
  | @rewritten report body b₁ _ _ asks run program level _ _ _ verdict =>
    obtain ⟨ext, stationary⟩ := optimizes.of_ok run
    obtain ⟨follows, inside', -⟩ := (ends_optimizeFunction_sound sound mem b.forest noted).of_ok run
    have later : b₁.program.Precedes b'.program := by
      rw [program]
      exact (Program.Precedes.refl b₁.program).withFunctions _
    have wf' : b'.program.WellFormed := by
      rw [program]
      exact follows.toWellFormed.withFunctions _
    refine ⟨ext.precedes.trans later, ?_, body, ?_, ?_⟩
    · rw [level, leveled.of_ok run, level_note]
    · rw [program, ext.functions_eq]
    · rw [verdict]
      refine spent_of_stationary wf' (fun i mem => Nat.lt_of_lt_of_le (inside' i mem) later.grows)
        (fun asks => (stationary asks).mono later ?_) noPowers off noChains
      exact follows.toWellFormed
  | @failed e b₁ _ _ asks run program level _ _ _ verdict =>
    have ext := optimizes.of_error run
    rw [program, verdict, level, leveled.of_error run]
    refine ⟨ext.precedes, level_note _ _, f.body, ext.functions_eq.trans unchanged.symm, ?_⟩
    have spent := spent_of_failed wf sound.helpers inside asks noChains run
    rw [level_note] at spent
    exact spent.mono ext.precedes wf
  | declined declines program level _ _ _ verdict =>
    rw [program] at verdict ⊢
    rw [verdict]
    exact ⟨.refl _, level, f.body, unchanged.symm, spent_of_declined declines inside⟩

def SpentAt (s : Settings) (b : Bench) (index : Nat) (v : Verdict) : Prop :=
  ∃ f, b.program.functions[index]? = some f ∧ Spent s b.journal.level b.program f v

theorem SpentAt.mono {v : Verdict} (h : SpentAt s b index v) (wf : b.program.WellFormed)
    (precedes : b.program.Precedes b'.program) (level : b'.journal.level = b.journal.level)
    (same : b'.program.functions[index]? = b.program.functions[index]?) :
    SpentAt s b' index v := by
  obtain ⟨f, found, spent⟩ := h
  exact ⟨f, same.trans found, level ▸ spent.mono precedes wf⟩

theorem ends_foldlM_runAt_spends {indices : List Nat} (apart : indices.Nodup)
    (sound : b.program.Sound)
    (once : ∀ index ∈ indices, ∃ f, b.program.functions[index]? = some f ∧
      b.program.AssignsOnce f.body)
    (noPowers : s.expandPowers = false) (off : s.reorderPriorities = false)
    (noChains : s.reorderMatmuls = false) :
    Ends (indices.foldlM (runAt s) o) b
      (fun _ b' => b.program.Precedes b'.program ∧ b'.journal.level = b.journal.level ∧
        (∀ j ∉ indices, b'.program.functions[j]? = b.program.functions[j]?) ∧
        List.Forall₂ (SpentAt s b') indices (verdictsFrom s indices o b))
      fun _ _ => False := by
  induction indices generalizing o b with
  | nil => exact ⟨.refl _, rfl, fun _ _ => rfl, .nil⟩
  | cons index rest ih =>
    obtain ⟨fresh, apart⟩ := List.nodup_cons.mp apart
    obtain ⟨f, found, once'⟩ := once index List.mem_cons_self
    obtain ⟨o₁, b₁, run, served, sound'⟩ := exists_runAt_served (s := s) (o := o) sound found
    obtain ⟨precedes, level, body, functions, spent⟩ :=
      served.spends sound found once' noPowers off noChains
    have others (j : Nat) (ne : j ≠ index) :
        b₁.program.functions[j]? = b.program.functions[j]? := by
      rw [functions, Array.getElem?_modify, if_neg ne.symm]
    have here : SpentAt s b₁ index (verdict s index b) := by
      refine ⟨{ f with body }, ?_, level ▸ spent⟩
      rw [functions, Array.getElem?_modify, if_pos rfl, found]
      rfl
    rw [List.foldlM_cons, Ends, bind_eq_of_ok run, verdictsFrom_cons run]
    refine (ih apart sound' fun j mem => ?_).imp ?_ fun _ _ fails => fails
    · obtain ⟨g, found', once''⟩ := once j (List.mem_cons_of_mem index mem)
      refine ⟨g, ?_, precedes.assignsOnce sound.toWellFormed
        (sound.bodies g (Array.mem_of_getElem? found')) once''⟩
      rw [others j (ne_of_mem_of_not_mem mem fresh), found']
    · rintro o₂ b₂ ⟨precedes', level', others', spent'⟩
      refine ⟨precedes.trans precedes', level'.trans level, fun j away => ?_, .cons ?_ spent'⟩
      · rw [others' j fun mem => away (List.mem_cons_of_mem index mem),
          others j (List.ne_of_not_mem_cons away)]
      · exact here.mono sound'.toWellFormed precedes' level' (others' index fresh)

/-- What is done again changes no function and reports nothing new. -/
structure Repeats (o : Outcome) (b : Bench) (o' : Outcome) (b' : Bench) : Prop where
  precedes : b.program.Precedes b'.program
  level : b'.journal.level = b.journal.level
  functions : b'.program.functions = b.program.functions
  regenerated : o'.stats.regenerated = o.stats.regenerated
  reports : ∀ report ∈ o'.reports, report ∈ o.reports ∨ report.regenerated = 0

theorem Repeats.trans {o'' : Outcome} {b'' : Bench} (h : Repeats o b o' b')
    (h' : Repeats o' b' o'' b'') : Repeats o b o'' b'' where
  precedes := h.precedes.trans h'.precedes
  level := h'.level.trans h.level
  functions := h'.functions.trans h.functions
  regenerated := h'.regenerated.trans h.regenerated
  reports report mem := (h'.reports report mem).elim (h.reports report) .inr

/-- The second time, a function that is spent stays as it is, with the same verdict. -/
theorem Served.repeats {v : Verdict} (h : Served s index f o b o' b') (sound : b.program.Sound)
    (found : b.program.functions[index]? = some f)
    (spent : Spent s b.journal.level b.program f v) :
    Repeats o b o' b' ∧ verdict s index b = v := by
  have wf := sound.toWellFormed
  have again (asks : s.optimizes f = true) := spent.rewrites asks b.program b.forest
    (b.journal.note (.optimizing f.name)) (.refl _) wf (level_note _ _)
  have leveled : Ends (optimizeFunction s f)
      { b with journal := b.journal.note (.optimizing f.name) } _ _ :=
    ends_optimizeFunction_level wf sound.helpers spent.inside b.forest _
  cases h with
  | @rewritten report body b₁ _ _ asks run program level reports regenerated _ verdict =>
    obtain ⟨succeeds, nothing, same, program'⟩ := (again asks).of_ok run
    dsimp only at nothing same
    subst same
    have unchanged : b'.program = b.program := by
      rw [program, program', modify_body_self found]
    refine ⟨⟨unchanged ▸ .refl _, ?_, by rw [unchanged], ?_, fun r mem => ?_⟩, ?_⟩
    · rw [level, leveled.of_ok run, level_note]
    · rw [regenerated, nothing, Nat.add_zero]
    · rw [reports] at mem
      refine (List.mem_append.mp mem).imp_right fun mem => ?_
      rw [List.mem_singleton.mp mem, nothing]
    · rw [verdict, unchanged]
      exact Verdict.ext succeeds.symm (spent.serving succeeds).symm
  | @failed e b₁ _ _ asks run program level reports regenerated _ verdict =>
    obtain ⟨same, ext⟩ := (again asks).of_error run
    refine ⟨⟨program ▸ ext.precedes, ?_, by rw [program, ext.functions_eq], regenerated,
      fun r mem => .inl (reports ▸ mem)⟩, verdict.trans same.symm⟩
    rw [level, leveled.of_error run, level_note]
  | declined declines program level reports regenerated _ verdict =>
    have succeeds := spent.declines declines
    refine ⟨⟨program ▸ .refl _, level, by rw [program], regenerated,
      fun r mem => .inl (reports ▸ mem)⟩, ?_⟩
    rw [verdict, program]
    exact Verdict.ext succeeds.symm (spent.serving succeeds).symm

theorem ends_foldlM_runAt_repeats {indices : List Nat} {vs : List Verdict}
    (sound : b.program.Sound) (spent : List.Forall₂ (SpentAt s b) indices vs) :
    Ends (indices.foldlM (runAt s) o) b
      (fun o' b' => Repeats o b o' b' ∧ verdictsFrom s indices o b = vs) fun _ _ => False := by
  induction indices generalizing o b vs with
  | nil =>
    cases spent
    exact ⟨⟨.refl _, rfl, rfl, rfl, fun _ => .inl⟩, rfl⟩
  | cons index rest ih =>
    cases spent with
    | @cons _ v _ vs first spent =>
      obtain ⟨f, found, first⟩ := first
      obtain ⟨o₁, b₁, run, served, sound'⟩ := exists_runAt_served (s := s) (o := o) sound found
      obtain ⟨repeats, same⟩ := served.repeats sound found first
      have spent' : List.Forall₂ (SpentAt s b₁) rest vs := spent.imp fun j w h =>
        h.mono sound.toWellFormed repeats.precedes repeats.level (by rw [repeats.functions])
      rw [List.foldlM_cons, Ends, bind_eq_of_ok run, verdictsFrom_cons run, same]
      refine (ih sound' spent').imp ?_ fun _ _ fails => fails
      rintro o₂ b₂ ⟨later, same'⟩
      exact ⟨repeats.trans later, congrArg (v :: ·) same'⟩

theorem ends_run_spends (sound : b.program.Sound)
    (once : ∀ f ∈ b.program.functions, b.program.AssignsOnce f.body)
    (noPowers : s.expandPowers = false) (off : s.reorderPriorities = false)
    (noChains : s.reorderMatmuls = false) :
    Ends (run s) b
      (fun _ b' =>
        List.Forall₂ (SpentAt s b') (List.range b.program.functions.size) (verdicts s b))
      fun _ _ => False := by
  apply ends_run_of_foldlM
  refine (ends_foldlM_runAt_spends (b := { b with journal := b.journal.note .starting })
    List.nodup_range sound ?_ noPowers off noChains).imp ?_ fun _ _ fails => fails
  · intro index mem
    have found := Array.getElem?_eq_getElem (List.mem_range.mp mem)
    exact ⟨_, found, once _ (Array.mem_of_getElem? found)⟩
  · rintro o b' ⟨-, -, -, spent⟩
    refine List.Forall₂.imp ?_ spent
    rintro index v ⟨f, found, here⟩
    exact ⟨f, found, (level_note _ _).symm ▸ here⟩

/-- A run on functions that are spent changes none of them and reports no change. -/
theorem ends_run_repeats {vs : List Verdict} (sound : b.program.Sound)
    (spent : List.Forall₂ (SpentAt s b) (List.range b.program.functions.size) vs) :
    Ends (run s) b
      (fun o b' => b'.program.functions = b.program.functions ∧ o.stats.regenerated = 0 ∧
        (∀ report ∈ o.reports, report.regenerated = 0) ∧ verdicts s b = vs)
      fun _ _ => False := by
  apply ends_run_of_foldlM
  refine (ends_foldlM_runAt_repeats (b := { b with journal := b.journal.note .starting }) sound
    (List.Forall₂.imp ?_ spent)).imp ?_ fun _ _ fails => fails
  · rintro index v ⟨f, found, here⟩
    exact ⟨f, found, (level_note _ _).symm ▸ here⟩
  · rintro o b' ⟨repeats, same⟩
    refine ⟨repeats.functions, repeats.regenerated, fun report mem => ?_, same⟩
    exact (repeats.reports report mem).resolve_left List.not_mem_nil

theorem map_kind_failuresFrom (indices : List Nat) (o : Outcome) (b : Bench) :
    (failuresFrom s indices o b).map (·.kind) =
      (verdictsFrom s indices o b).filterMap (·.serving) := by
  induction indices generalizing o b with
  | nil => rfl
  | cons index rest ih =>
    have first : (failure? (serve s index) b).toList.map (·.kind) =
        (verdict s index b).serving.toList := by
      simp only [verdict, failureKind?]
      cases failure? (serve s index) b <;> rfl
    rw [failuresFrom, verdictsFrom, List.map_append, first, List.filterMap_cons]
    cases runAt s o index b with
    | ok o' b' =>
      dsimp only
      rw [ih]
      cases (verdict s index b).serving <;> rfl
    | error e b' => cases (verdict s index b).serving <;> rfl

theorem serving_eq_rewriting (off : s.encodeTrees = false) {indices : List Nat} {o : Outcome}
    {b : Bench} {v : Verdict} (mem : v ∈ verdictsFrom s indices o b) : v.serving = v.rewriting := by
  have here (index : Nat) (b : Bench) :
      (verdict s index b).serving = (verdict s index b).rewriting := by
    have alone (f : Function) : record s index f = pure () := by
      rw [record, Settings.encodes, off, Bool.and_false]
      rfl
    simp only [verdict, serve, alone, bind_pure_unit]
  induction indices generalizing o b with
  | nil => exact absurd mem List.not_mem_nil
  | cons index rest ih =>
    rw [verdictsFrom] at mem
    rcases List.mem_cons.mp mem with rfl | later
    · exact here index b
    · cases next : runAt s o index b with
      | ok o' b' =>
        rw [next] at later
        exact ih later
      | error e b' =>
        rw [next] at later
        exact absurd later List.not_mem_nil

end Steps

end Work

/-- Factoring is done once and for all: a second run leaves every function as it is and reports no
change, and every function that could not be rewritten or encoded fails again in the same way. Where
nothing is encoded, these are the functions that could not be rewritten. -/
theorem run_again {p : Program} {s : Settings} (described : p.Described)
    (once : ∀ f ∈ p.functions, p.AssignsOnce f.body) (noPowers : s.expandPowers = false)
    (off : s.reorderPriorities = false) (noChains : s.reorderMatmuls = false) (forest : Forest)
    (journal : Journal) :
    ∃ o b o' b', Work.run s ⟨p, forest, journal⟩ = .ok o b ∧ Work.run s b = .ok o' b' ∧
      b'.program.functions = b.program.functions ∧ o'.stats.regenerated = 0 ∧
      (∀ report ∈ o'.reports, report.regenerated = 0) ∧
      Work.verdicts s b = Work.verdicts s ⟨p, forest, journal⟩ ∧
      o'.stats.failed = o.stats.failed ∧
      (s.encodeTrees = false → ∀ v ∈ Work.verdicts s b, v.serving = v.rewriting) := by
  have start : (Bench.mk p forest journal).program.Sound := described.sound
  obtain ⟨o, b, run, counts⟩ := (Work.ends_run_counts s start).exists_ok
  have spent := (Work.ends_run_spends start once noPowers off noChains).of_ok run
  have size : b.program.functions.size = p.functions.size := counts.size
  rw [← size] at spent
  obtain ⟨o', b', run', functions, regenerated, reports, verdicts⟩ :=
    (Work.ends_run_repeats counts.sound spent).exists_ok
  have counts' := (Work.ends_run_counts s counts.sound).of_ok run'
  have failures : (Work.failures s b).map (·.kind) =
      (Work.failures s ⟨p, forest, journal⟩).map (·.kind) := by
    rw [Work.failures, Work.failures, Work.map_kind_failuresFrom, Work.map_kind_failuresFrom]
    exact congrArg (List.filterMap (·.serving)) verdicts
  refine ⟨o, b, o', b', run, run', functions, regenerated, reports, verdicts, ?_,
    fun off _ mem => Work.serving_eq_rewriting off mem⟩
  rw [counts'.failed, counts.failed]
  simpa using congrArg List.length failures

/-- A sum of products that is factored, one whose factored form has no callee, and a function that
reads a variable without a type. -/
def Description.factorableOnce : Description where
  vars := [⟨"a", some .int⟩, ⟨"b", some .int⟩, ⟨"x", some .int⟩, ⟨"y", some .float⟩, ⟨"w", none⟩]
  operators := [⟨.int, "__add__", [.int, .int], .int⟩, ⟨.int, "__mul__", [.int, .int], .int⟩,
    ⟨.float, "__add__", [.float, .float], .float⟩, ⟨.int, "__mul__", [.int, .float], .float⟩]
  functions :=
    let sum (x : String) : Expr := .call "__add__" [.call "__mul__" [.var "a", .var x],
      .call "__mul__" [.var "b", .var x]]
    [⟨"factored", none, [], { minimize := true }, [.assign "s" (sum "x"), .ret (.var "s")]⟩,
      ⟨"unlinked", none, [], { minimize := true }, [.ret (sum "y")]⟩,
      ⟨"untyped", none, [], { encode := true }, [.ret (.var "w")]⟩]

def Settings.factoringAndEncoding : Settings := ⟨true, false, false, false, true, []⟩

theorem run_again_factorableOnce :
    ∃ (p : Program) (o o' : Outcome) (b b' : Bench), p.Described ∧
      Work.run .factoringAndEncoding ⟨p, {}, {}⟩ = .ok o b ∧ 0 < o.stats.regenerated ∧
      Work.run .factoringAndEncoding b = .ok o' b' ∧
      b'.program.functions = b.program.functions ∧ o'.stats.regenerated = 0 ∧
      (∀ report ∈ o'.reports, report.regenerated = 0) ∧
      Work.verdicts .factoringAndEncoding b =
        [⟨none, none⟩, ⟨some .link, some .link⟩, ⟨none, some .type⟩] ∧
      o'.stats.failed = 2 := by
  have checked : (Description.factorableOnce.first?.any fun (p, _) =>
      (result? (Work.run .factoringAndEncoding) ⟨p, {}, {}⟩).any fun (o, _) =>
        decide ((∀ f ∈ p.functions, p.AssignsOnce f.body) ∧ 0 < o.stats.regenerated ∧
          Work.verdicts .factoringAndEncoding ⟨p, {}, {}⟩ =
            [⟨none, none⟩, ⟨some .link, some .link⟩, ⟨none, some .type⟩] ∧
          o.stats.failed = 2)) = true := by
    decide +kernel
  obtain ⟨⟨p, f⟩, isFirst, checked⟩ := Option.any_eq_true _ _ |>.mp checked
  obtain ⟨⟨o, b⟩, result, checked⟩ := Option.any_eq_true _ _ |>.mp checked
  obtain ⟨lowered, -⟩ := Description.lower_of_first? isFirst
  obtain ⟨once, changed, listed, two⟩ := of_decide_eq_true checked
  obtain ⟨o₁, b, o', b', run, run', functions, regenerated, reports, verdicts, failed, -⟩ :=
    run_again (s := .factoringAndEncoding) ⟨_, lowered⟩ once rfl rfl rfl {} {}
  cases (eq_ok_of_result? result).symm.trans run
  exact ⟨p, o, o', b, b', ⟨_, lowered⟩, run, changed, run', functions, regenerated, reports,
    verdicts.trans listed, failed.trans two⟩

/-- A sum of products that is factored, beside a variable without a type. -/
def Description.unencodable : Description where
  vars := [⟨"a", some .int⟩, ⟨"b", some .int⟩, ⟨"x", some .int⟩, ⟨"w", none⟩]
  operators := [⟨.int, "__add__", [.int, .int], .int⟩, ⟨.int, "__mul__", [.int, .int], .int⟩]
  functions := [⟨"f", none, [], { minimize := true, encode := true },
    [.assign "s" (.call "__add__" [.call "__mul__" [.var "a", .var "x"],
      .call "__mul__" [.var "b", .var "x"]]), .ret (.var "w")]⟩]

/-- A function whose rewriting goes well in the first run fails in both runs if it cannot be
encoded. -/
theorem rewritten_fails_again :
    ∃ (p : Program) (o o' : Outcome) (b b' : Bench), p.Described ∧
      (∀ f ∈ p.functions, p.AssignsOnce f.body) ∧
      Work.run .factoringAndEncoding ⟨p, {}, {}⟩ = .ok o b ∧
      Work.run .factoringAndEncoding b = .ok o' b' ∧
      Work.verdicts .factoringAndEncoding ⟨p, {}, {}⟩ = [⟨none, some .type⟩] ∧
      o.stats.optimized = 1 ∧ o'.stats.failed = 1 := by
  have checked : (Description.unencodable.first?.any fun (p, _) =>
      (result? (Work.run .factoringAndEncoding) ⟨p, {}, {}⟩).any fun (o, b) =>
        (result? (Work.run .factoringAndEncoding) b).any fun (o', _) =>
          decide ((∀ f ∈ p.functions, p.AssignsOnce f.body) ∧
            Work.verdicts .factoringAndEncoding ⟨p, {}, {}⟩ = [⟨none, some .type⟩] ∧
            o.stats.optimized = 1 ∧ o'.stats.failed = 1)) = true := by
    decide +kernel
  obtain ⟨⟨p, f⟩, isFirst, checked⟩ := Option.any_eq_true _ _ |>.mp checked
  obtain ⟨⟨o, b⟩, result, checked⟩ := Option.any_eq_true _ _ |>.mp checked
  obtain ⟨⟨o', b'⟩, result', checked⟩ := Option.any_eq_true _ _ |>.mp checked
  obtain ⟨lowered, -⟩ := Description.lower_of_first? isFirst
  obtain ⟨once, verdicts, optimized, failed⟩ := of_decide_eq_true checked
  exact ⟨p, o, o', b, b', ⟨_, lowered⟩, once, eq_ok_of_result? result, eq_ok_of_result? result',
    verdicts, optimized, failed⟩

end SecureArith
