import SecureArith.Proofs.Retention
import SecureArith.Proofs.Safety

set_option autoImplicit false

/-!
# One function of a run

A run rewrites a function, or fails to, or leaves it alone where it does not ask for that. Then it
encodes the function, unless that fails. Whether encoding fails does not depend on the values that
are appended later.
-/

namespace SecureArith

/-- Whatever numbers come after the values of a program, the same nodes are recorded. -/
theorem Forest.agrees_encode (c : Classifier) (f : Forest) (n m : Nat) (params : List VarId) :
    Agrees Eq Eq (fun _ _ => True) (f.encode c n params) (f.encode c m params) := by
  unfold encode
  cases f.nodes? with
  | none => exact .throw rfl
  | some order =>
    have record (id : NodeId) : Agrees Eq Eq (fun _ _ => True)
        (Store.record c (Encoding.identities f.store n order) params id)
        (Store.record c (Encoding.identities f.store m order) params id) := by
      unfold Store.record
      refine (Agrees.refl _).bind ?_
      rintro type _ rfl
      refine (Agrees.refl _).bind ?_
      rintro node _ rfl
      refine .ite ?_ (fun _ => .pure trivial) fun _ => .throw rfl
      simp only [List.all_eq_true, Encoding.isSome_lookup_identities]
    have step (id id' : NodeId) (same : id = id') : Agrees Eq Eq (fun _ _ => True)
        (Store.record c (Encoding.identities f.store n order) params id)
        (Store.record c (Encoding.identities f.store m order) params id') := same ▸ record id
    intro s t start
    exact (Agrees.mapM (List.forall₂_refl order) step s t start).imp
      (fun _ _ _ _ done => ⟨trivial, done.2⟩) fun _ _ _ _ fails => fails

namespace Work

variable {s : Settings} {p q : Program} {f : Function} {forest forest' : Forest}
  {journal journal' : Journal} {level : Option Level}

theorem alike_encodeFunction {c : Classifier} (precedes : p.Precedes q) (wf : p.WellFormed)
    (inside : ∀ i ∈ f.body, i.value < p.values.size) :
    Alike (encodeFunction c f) (encodeFunction c f) ⟨p, forest, journal⟩ ⟨q, forest', journal'⟩
      (fun _ _ _ _ => True) fun e e' _ _ => e = e' := by
  have encoded : Agrees (Beside p q) Eq (fun _ _ => True)
      (do buildSeries f.body; encodeForest c f.params)
      (do buildSeries f.body; encodeForest c f.params) := by
    refine (agrees_buildSeries (precedes.retains wf) wf inside).bind fun _ _ _ => ?_
    refine Agrees.get.bind fun b b' beside => ?_
    rw [beside.forest]
    exact Beside.agrees_onStore (Forest.agrees_encode c b.forest _ _ f.params)
  have start : Beside p q ⟨p, {}, journal⟩ ⟨q, {}, journal'⟩ := ⟨rfl, rfl, rfl⟩
  unfold encodeFunction
  apply alike_aside
  exact (encoded _ _ start).imp (fun _ _ _ _ _ => trivial) fun _ _ _ _ fails => fails.1

/-- How encoding a function fails, if it is asked for. -/
def encodingKind? (s : Settings) (p : Program) (f : Function) : Option Failure.Kind :=
  if s.encodes f then failureKind? (encodeFunction s.classifier f) ⟨p, {}, {}⟩ else none

theorem encodingKind?_eq (precedes : p.Precedes q) (wf : p.WellFormed)
    (inside : ∀ i ∈ f.body, i.value < p.values.size) :
    encodingKind? s q f = encodingKind? s p f := by
  unfold encodingKind?
  split
  · exact failureKind?_eq_of_alike (alike_encodeFunction precedes wf inside) fun _ _ _ _ same =>
      congrArg Failure.kind same
  · rfl

section Serve

variable {index : Nat} {o : Outcome} {b : Bench}

/-- The encoding of a function is put among the others, or none is. -/
def Files (c : Classifier) (f : Function) (p : Program) (es es' : List (String × Encoding)) : Prop :=
  es' = es ∨ ∃ e b b', encodeFunction c f b = .ok e b' ∧ b.program = p ∧
    es' = Outcome.insert f.name e es

/-- What a run does for a function: it is rewritten, or its rewriting fails, or it does not ask for
that. -/
inductive Served (s : Settings) (index : Nat) (f : Function) (o : Outcome) (b : Bench) :
    Outcome → Bench → Prop
  | rewritten {report : Report} {body : List Instruction} {b₁ b' : Bench} {o' : Outcome}
      (asks : s.optimizes f = true)
      (run : optimizeFunction s f { b with journal := b.journal.note (.optimizing f.name) } =
        .ok (report, body) b₁)
      (program : b'.program = { b₁.program with
        functions := b₁.program.functions.modify index ({ · with body }) })
      (level : b'.journal.level = b₁.journal.level) (reports : o'.reports = o.reports ++ [report])
      (regenerated : o'.stats.regenerated = o.stats.regenerated + report.regenerated)
      (files : Files s.classifier { f with body } b'.program o.encodings o'.encodings)
      (verdict : verdict s index b = ⟨none, encodingKind? s b'.program { f with body }⟩) :
      Served s index f o b o' b'
  | failed {e : Failure} {b₁ b' : Bench} {o' : Outcome} (asks : s.optimizes f = true)
      (run : optimizeFunction s f { b with journal := b.journal.note (.optimizing f.name) } =
        .error e b₁)
      (program : b'.program = b₁.program) (level : b'.journal.level = b₁.journal.level)
      (reports : o'.reports = o.reports)
      (regenerated : o'.stats.regenerated = o.stats.regenerated)
      (encodings : o'.encodings = o.encodings)
      (verdict : verdict s index b = ⟨some e.kind, some e.kind⟩) : Served s index f o b o' b'
  | declined {b' : Bench} {o' : Outcome} (declines : s.optimizes f = false)
      (program : b'.program = b.program) (level : b'.journal.level = b.journal.level)
      (reports : o'.reports = o.reports)
      (regenerated : o'.stats.regenerated = o.stats.regenerated)
      (files : Files s.classifier f b'.program o.encodings o'.encodings)
      (verdict : verdict s index b = ⟨none, encodingKind? s b'.program f⟩) :
      Served s index f o b o' b'

theorem ends_encodeAt_served {g : Function} (sound : b.program.Sound)
    (found : b.program.functions[index]? = some g) (same : s.encodes g = s.encodes f)
    (name : g.name = f.name) :
    failureKind? (record s index f) b = encodingKind? s b.program g ∧
      Ends (encodeAt s index f o) b
        (fun o' b' => b'.program = b.program ∧ b'.journal.level = b.journal.level ∧
          o'.reports = o.reports ∧ o'.stats.regenerated = o.stats.regenerated ∧
          Files s.classifier g b.program o.encodings o'.encodings)
        fun _ _ => False := by
  rw [encodeAt, record, encodingKind?, same]
  cases asks : s.encodes f with
  | false => exact ⟨rfl, rfl, rfl, rfl, rfl, .inl rfl⟩
  | true =>
    let b₁ : Bench := { b with journal := b.journal.note (.encoding f.name) }
    have found : b₁.program.functions[index]? = some g := found
    have inside := sound.bodies g (Array.mem_of_getElem? found)
    have encodes : Ends (encodeFunction s.classifier g) b₁ _ _ :=
      ends_encodeFunction sound.toWellFormed inside
    have kind : failureKind? (encodeFunction s.classifier g) b₁ =
        failureKind? (encodeFunction s.classifier g) ⟨b.program, {}, {}⟩ :=
      failureKind?_eq_of_alike (alike_encodeFunction (.refl b.program) sound.toWellFormed inside)
        fun _ _ _ _ same => congrArg Failure.kind same
    rw [if_pos rfl, if_pos rfl, if_pos rfl, ← kind]
    constructor
    · rw [failureKind?_note_bind, failureKind?_bind_of_ok (function_eq found)]
      cases run : encodeFunction s.classifier g b₁ with
      | ok e b₂ =>
        rw [failureKind?_of_ok run, failureKind?_bind_of_ok run]
        rfl
      | error e b₂ => rw [failureKind?_of_error run, failureKind?_bind_of_error run]
    · rw [Ends.bind_iff, note, Ends.modify_iff, Ends.bind_iff]
      apply ends_function found
      rw [Ends.bind_iff]
      apply ends_attempt
      unfold Ends at encodes ⊢
      cases run : encodeFunction s.classifier g b₁ with
      | ok e b₂ =>
        rw [run] at encodes
        obtain ⟨program, journal⟩ := encodes
        refine ⟨program, ?_, rfl, rfl, .inr ⟨e, b₁, b₂, run, rfl, ?_⟩⟩
        · exact (level_note _ _).trans ((congrArg Journal.level journal).trans (level_note _ _))
        · rw [name]
      | error e b₂ =>
        rw [run] at encodes
        obtain ⟨kind, program, journal⟩ := encodes
        refine ⟨by simp [kind], program, ?_, rfl, rfl, .inl rfl⟩
        exact (level_note _ _).trans ((congrArg Journal.level journal).trans (level_note _ _))

theorem attempt_of_ok {α : Type} {x : Work α} {a : α} {b' : Bench} (run : x b = .ok a b') :
    attempt x b = .ok (.ok a) b' := by
  rw [attempt, run]

theorem attempt_of_error {α : Type} {x : Work α} {e : Failure} {b' : Bench}
    (run : x b = .error e b') (kind : e.kind ≠ .range) : attempt x b = .ok (.error e) b' := by
  rw [attempt, run]
  exact if_neg kind

theorem optimizeAt_of_declines (declines : s.optimizes f = false) (index : Nat) (o : Outcome)
    (b : Bench) :
    optimizeAt s index f o b = .ok (o, true) b ∧ rewrite s index f b = .ok () b := by
  have declines : ¬ s.optimizes f = true := Bool.eq_false_iff.mp declines
  rw [optimizeAt, if_neg declines, rewrite, if_neg declines]
  exact ⟨rfl, rfl⟩

theorem optimizeAt_of_ok {report : Report} {body : List Instruction} {b₁ : Bench}
    (asks : s.optimizes f = true)
    (run : optimizeFunction s f { b with journal := b.journal.note (.optimizing f.name) } =
      .ok (report, body) b₁) (found : b₁.program.functions[index]? = some f) (o : Outcome) :
    ∃ o' b', optimizeAt s index f o b = .ok (o', true) b' ∧ rewrite s index f b = .ok () b' ∧
      b'.program = { b₁.program with
        functions := b₁.program.functions.modify index ({ · with body }) } ∧
      b'.journal = b₁.journal ∧ o'.reports = o.reports ++ [report] ∧
      o'.stats.regenerated = o.stats.regenerated + report.regenerated ∧
      o'.encodings = o.encodings := by
  have given := setBody_eq found body
  rw [optimizeAt, if_pos asks, note_bind_eq, bind_eq_of_ok (attempt_of_ok run), rewrite,
    if_pos asks, note_bind_eq, bind_eq_of_ok run]
  dsimp only
  rw [bind_eq_of_ok given]
  exact ⟨_, _, rfl, given, rfl, rfl, rfl, rfl, rfl⟩

theorem optimizeAt_of_error {e : Failure} {b₁ : Bench} (asks : s.optimizes f = true)
    (run : optimizeFunction s f { b with journal := b.journal.note (.optimizing f.name) } =
      .error e b₁) (kind : e.kind ≠ .range) (index : Nat) (o : Outcome) :
    ∃ o' b', optimizeAt s index f o b = .ok (o', false) b' ∧ rewrite s index f b = .error e b₁ ∧
      b'.program = b₁.program ∧ b'.journal.level = b₁.journal.level ∧ o'.reports = o.reports ∧
      o'.stats.regenerated = o.stats.regenerated ∧ o'.encodings = o.encodings := by
  rw [optimizeAt, if_pos asks, note_bind_eq, bind_eq_of_ok (attempt_of_error run kind), rewrite,
    if_pos asks, note_bind_eq, bind_eq_of_error run]
  dsimp only
  rw [note_bind_eq]
  exact ⟨_, _, rfl, rfl, rfl, level_note _ _, rfl, rfl, rfl⟩

theorem ends_runAt_rewritten {g : Function} {o₁ : Outcome} {b₁ : Bench} (sound : b₁.program.Sound)
    (found : b.program.functions[index]? = some f)
    (optimized : optimizeAt s index f { o with stats.total := o.stats.total + 1 } b =
      .ok (o₁, true) b₁)
    (rewritten : rewrite s index f b = .ok () b₁)
    (found' : b₁.program.functions[index]? = some g) (same : s.encodes g = s.encodes f)
    (name : g.name = f.name) :
    Ends (runAt s o index) b
      (fun o' b' => b'.program = b₁.program ∧ b'.journal.level = b₁.journal.level ∧
        o'.reports = o₁.reports ∧ o'.stats.regenerated = o₁.stats.regenerated ∧
        Files s.classifier g b'.program o₁.encodings o'.encodings ∧
        verdict s index b = ⟨none, encodingKind? s b'.program g⟩)
      fun _ _ => False := by
  have rewriting : (verdict s index b).rewriting = none :=
    (failureKind?_bind_of_ok (function_eq found)).trans (failureKind?_of_ok rewritten)
  obtain ⟨kind, ends⟩ := ends_encodeAt_served (o := o₁) sound found' same name
  have serving : (verdict s index b).serving = encodingKind? s b₁.program g :=
    calc (verdict s index b).serving
      _ = failureKind? (do rewrite s index f; record s index f) b :=
        failureKind?_bind_of_ok (function_eq found)
      _ = failureKind? (record s index f) b₁ := failureKind?_bind_of_ok rewritten
      _ = encodingKind? s b₁.program g := kind
  rw [runAt, Ends, bind_eq_of_ok (function_eq found), bind_eq_of_ok optimized]
  refine ends.imp ?_ fun _ _ fails => fails
  rintro o' b' ⟨program, level, reports, regenerated, files⟩
  rw [program]
  exact ⟨rfl, level, reports, regenerated, files, Verdict.ext rewriting serving⟩

theorem ends_runAt_served (sound : b.program.Sound)
    (found : b.program.functions[index]? = some f) :
    Ends (runAt s o index) b (fun o' b' => Served s index f o b o' b') fun _ _ => False := by
  let counted : Outcome := { o with stats.total := o.stats.total + 1 }
  cases asks : s.optimizes f with
  | false =>
    obtain ⟨optimized, rewritten⟩ := optimizeAt_of_declines asks index counted b
    refine (ends_runAt_rewritten sound found optimized rewritten found rfl rfl).imp ?_
      fun _ _ fails => fails
    rintro o' b' ⟨program, level, reports, regenerated, files, verdict⟩
    exact .declined asks program level reports regenerated files verdict
  | true =>
    let b₁ : Bench := { b with journal := b.journal.note (.optimizing f.name) }
    have mem := Array.mem_of_getElem? found
    have optimizes : Ends (optimizeFunction s f) b₁ _ _ :=
      ends_optimizeFunction_sound sound mem b₁.forest b₁.journal
    cases run : optimizeFunction s f b₁ with
    | ok out b₂ =>
      obtain ⟨report, body⟩ := out
      obtain ⟨follows, -⟩ := optimizes.of_ok run
      have isFunction : b₂.program.functions[index]? = some f := by
        rw [follows.functions_eq]
        exact found
      obtain ⟨o₁, b₃, optimized, rewritten, program, journal, reports, regenerated, kept⟩ :=
        optimizeAt_of_ok asks run isFunction counted
      have here : b₃.program.functions[index]? = some { f with body } := by
        rw [program]
        change (b₂.program.functions.modify index ({ · with body }))[index]? = _
        rw [Array.getElem?_modify, if_pos rfl, isFunction]
        rfl
      have sound' := ((ends_optimizeAt_counts sound found).of_ok optimized).1.sound
      refine (ends_runAt_rewritten sound' found optimized rewritten here rfl rfl).imp ?_
        fun _ _ fails => fails
      rintro o' b' ⟨program', level, reports', regenerated', files, verdict⟩
      exact .rewritten asks run (program'.trans program) (level.trans (congrArg Journal.level journal))
        (reports'.trans reports) (regenerated'.trans regenerated) (kept ▸ files) verdict
    | error e b₂ =>
      obtain ⟨-, -, kind, -⟩ := optimizes.of_error run
      obtain ⟨o₁, b₃, optimized, rewritten, program, level, reports, regenerated, kept⟩ :=
        optimizeAt_of_error asks run kind index counted
      have rewriting : (verdict s index b).rewriting = some e.kind :=
        (failureKind?_bind_of_ok (function_eq found)).trans (failureKind?_of_error rewritten)
      have serving : (verdict s index b).serving = some e.kind :=
        (failureKind?_bind_of_ok (function_eq found)).trans (failureKind?_bind_of_error rewritten)
      rw [runAt, Ends, bind_eq_of_ok (function_eq found), bind_eq_of_ok optimized]
      exact .failed asks run program level reports regenerated kept (Verdict.ext rewriting serving)

theorem exists_runAt_served (sound : b.program.Sound)
    (found : b.program.functions[index]? = some f) :
    ∃ o' b', runAt s o index b = .ok o' b' ∧ Served s index f o b o' b' ∧ b'.program.Sound := by
  obtain ⟨o', b', run, served⟩ := (ends_runAt_served (s := s) (o := o) sound found).exists_ok
  have counts := (ends_runAt_counts sound (Array.getElem?_eq_some_iff.mp found).1).of_ok run
  exact ⟨o', b', run, served, counts.sound⟩

theorem modify_body_self {functions : Array Function} (found : functions[index]? = some f) :
    functions.modify index ({ · with body := f.body }) = functions := by
  apply Array.ext_getElem?
  intro k
  rw [Array.getElem?_modify]
  split
  · rename_i here
    rw [← here, found]
    rfl
  · rfl

/-- Only the body of the function is replaced, and what is encoded is the function as it is then. -/
theorem Served.exists_body {o' : Outcome} {b' : Bench} (h : Served s index f o b o' b')
    (sound : b.program.Sound) (found : b.program.functions[index]? = some f) :
    ∃ body, b'.program.functions = b.program.functions.modify index ({ · with body }) ∧
      Files s.classifier { f with body } b'.program o.encodings o'.encodings := by
  have mem := Array.mem_of_getElem? found
  have unchanged := modify_body_self found
  have optimizes : Ends (optimizeFunction s f)
      { b with journal := b.journal.note (.optimizing f.name) } _ _ :=
    ends_optimizeFunction_sound sound mem b.forest _
  cases h with
  | @rewritten report body b₁ _ _ asks run program _ _ _ files =>
    refine ⟨body, ?_, files⟩
    rw [program, ← (optimizes.of_ok run).1.functions_eq]
  | @failed e b₁ _ _ asks run program _ _ _ encodings =>
    refine ⟨f.body, ?_, .inl encodings⟩
    rw [program, (optimizes.of_error run).1.functions_eq, unchanged]
  | declined _ program _ _ _ files =>
    refine ⟨f.body, ?_, files⟩
    rw [program, unchanged]

end Serve

end Work

end SecureArith
