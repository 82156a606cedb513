import SecureArith.Proofs.Renaming.Function
import SecureArith.Proofs.Renaming.Halfway
import SecureArith.Proofs.RoundTrip
import SecureArith.Proofs.Verdict

set_option autoImplicit false

/-!
# Functions do not interfere

In a run, every function ends up as if it alone had been optimized on the program that the run
started with, and all that fails or is not asked for leaves a function as it was. One step takes a
program in which some functions are done to one in which the next one is done too.
-/

namespace SecureArith

namespace Program

variable {c : Classifier} {mpc : VarId} {p q : Program} {environment environment' : Option ValueId}

theorem Linked.declared (h : p.Linked c q) (declared : p.Declared) : q.Declared := by
  induction h with
  | refl => exact declared
  | call _ _ _ _ _ ih => exact ih.push _ (by simp)
  | again _ _ _ _ _ ih => exact ih.push _ (by simp)

theorem Contracts.declared {chain read : ValueId} (h : p.Contracts mpc environment chain q read)
    (declared : p.Declared) : q.Declared := by
  obtain ⟨-, -, -, reads⟩ := h
  rename_i r helper operands type
  have read : r.Declared := by
    cases reads with
    | known => exact declared
    | new found =>
      refine declared.push _ ?_
      rintro _ ⟨⟩
      exact (Array.getElem?_eq_some_iff.mp found).1
  have tuple : (r.addTuple operands).2.Declared := read.push _ (by simp)
  refine ⟨fun id v x found isRead => ?_, tuple.targets, tuple.environments⟩
  -- What a chain is replaced by is a call.
  change ((r.addTuple operands).2.values.modify chain _)[id]? = some v at found
  rw [Array.getElem?_modify] at found
  split at found
  · obtain ⟨w, -, rfl⟩ := Option.map_eq_some_iff.mp found
    cases isRead
  · exact tuple.reads id v x found isRead

theorem Contracted.declared (h : Contracted mpc p environment q environment')
    (declared : p.Declared) : q.Declared := by
  induction h with
  | refl => exact declared
  | step first _ ih => exact ih (first.declared declared)

end Program

namespace Work

open Program (Advances)

variable {s : Settings} {p : Program} {f : Function} {b : Bench}

/-- What optimizing a function comes to, unless it does not ask for that or fails. -/
def alone? (s : Settings) (b : Bench) (f : Function) :
    Option ((Report × List Instruction) × Bench) :=
  if s.optimizes f then result? (optimizeFunction s f) b else none

/-- The lines of a function after it alone was optimized. -/
def aloneText? (s : Settings) (b : Bench) (f : Function) : Option (List String) :=
  match alone? s b f with
  | some ((_, body), b') => b'.program.bodyText? body
  | none => b.program.bodyText? f.body

/-- How the rewriting of a function fails when it alone is optimized. -/
def aloneKind? (s : Settings) (b : Bench) (f : Function) : Option Failure.Kind :=
  if s.optimizes f then failureKind? (optimizeFunction s f) b else none

theorem alone_iff {text : List String} {kind : Option Failure.Kind} :
    kind = aloneKind? s b f ∧ aloneText? s b f = some text ↔
      (s.optimizes f = false → kind = none ∧ b.program.bodyText? f.body = some text) ∧
      (s.optimizes f = true → Ends (optimizeFunction s f) b
        (fun out b' => kind = none ∧ b'.program.bodyText? out.2 = some text)
        fun e _ => kind = some e.kind ∧ b.program.bodyText? f.body = some text) := by
  unfold aloneText? alone? aloneKind? failureKind? failure? result? Ends
  cases s.optimizes f with
  | false => simp
  | true => cases optimizeFunction s f b <;> simp

theorem ends_minimizeBody_targets (s : Settings) (body : List Instruction) (b : Bench) :
    Ends (minimizeBody s body) b
      (fun out _ => out.1.map (·.target?) = body.map (·.target?)) fun _ _ => True := by
  induction body generalizing b with
  | nil => rfl
  | cons i rest ih =>
    rw [minimizeBody, Ends.bind_iff]
    apply (Ends.trivial _ _).imp
    · intro m b₁ _
      rw [Ends.bind_iff]
      apply (ih b₁).imp
      · rintro ⟨body, n⟩ b₂ same
        have target : (i.withValue m.value).target? = i.target? := by cases i <;> rfl
        change (i.withValue m.value).target? :: body.map _ = _
        rw [target, same, List.map_cons]
      · exact fun _ _ _ => trivial
    · exact fun _ _ _ => trivial

theorem ends_optimizeFunction_targets (s : Settings) (f : Function) (b : Bench) :
    Ends (optimizeFunction s f) b
      (fun out _ => out.2.map (·.target?) = f.body.map (·.target?)) fun _ _ => True := by
  have minimized (b : Bench) : Ends (minimizeFunction s f) b
      (fun out _ => out.1.map (·.target?) = f.body.map (·.target?)) fun _ _ => True := by
    rw [minimizeFunction, Ends.ite_iff]
    exact ⟨fun _ => ends_minimizeBody_targets s f.body b, fun _ => rfl⟩
  rw [optimizeFunction, ends_aside, Ends.bind_iff]
  apply (minimized _).imp
  · rintro ⟨body, n⟩ b₁ same
    dsimp only
    rw [Ends.bind_iff]
    apply (Ends.trivial _ _).imp
    · intro _ b₂ _
      rw [Ends.bind_iff]
      exact ends_counts same fun _ => trivial
    · exact fun _ _ _ => trivial
  · exact fun _ _ _ => trivial

/-- Both a success and a failure leave a well-formed program. A failure is not for an index out of
range. -/
theorem ends_optimizeFunction_follows (wf : p.WellFormed) (helpers : p.NamesHelpers)
    (inside : ∀ i ∈ f.body, i.value < p.values.size)
    (environment : ∀ x : Nat, x ∈ f.mpc → x < p.vars.size) (forest : Forest) (journal : Journal) :
    Ends (optimizeFunction s f) ⟨p, forest, journal⟩
      (fun out b => p.Follows b.program ∧ (∀ i ∈ out.2, i.value < b.program.values.size) ∧
        (p.Declared → b.program.Declared))
      fun e b => p.Follows b.program ∧ p.Extends b.program ∧ e.kind ≠ .range ∧
        (p.Declared → b.program.Declared) := by
  apply (ends_optimizeFunction_contracted wf helpers inside forest journal).imp
  · rintro out b ⟨q, mpc, environment, linked, contracted, -, inside'⟩
    have ext := linked.extends
    have ready := (linked.wellFormed wf).chainable (ext.namesHelpers helpers)
    refine ⟨⟨(contracted.chainable ready).toWellFormed, ?_, ?_⟩, inside',
      fun declared => contracted.declared (linked.declared declared)⟩
    · exact Program.tables_trans ext.tables contracted.tables
    · exact Nat.le_trans ext.grows contracted.grows
  · rintro e b ⟨linked, blocked⟩
    have ext := linked.extends
    refine ⟨⟨linked.wellFormed wf, ext.tables, ext.grows⟩, ext, fun range => ?_,
      fun declared => linked.declared declared⟩
    obtain ⟨mpc, isMpc, absent⟩ := blocked range
    exact absurd (environment mpc isMpc) (Nat.not_lt.mpr (Array.getElem?_eq_none_iff.mp absent))

theorem ends_optimizeFunction_sound (sound : p.Sound) (mem : f ∈ p.functions) (forest : Forest)
    (journal : Journal) :
    Ends (optimizeFunction s f) ⟨p, forest, journal⟩
      (fun out b => p.Follows b.program ∧ (∀ i ∈ out.2, i.value < b.program.values.size) ∧
        b.program.Declared)
      fun e b => p.Follows b.program ∧ p.Extends b.program ∧ e.kind ≠ .range ∧
        b.program.Declared := by
  refine (ends_optimizeFunction_follows sound.toWellFormed sound.helpers (sound.bodies f mem)
    (sound.environments f mem) forest journal).imp ?_ ?_
  · rintro out b ⟨follows, inside, declared⟩
    exact ⟨follows, inside, declared sound.toDeclared⟩
  · rintro e b ⟨follows, ext, kind, declared⟩
    exact ⟨follows, ext, kind, declared sound.toDeclared⟩

theorem isSome_aloneText? (sound : p.Sound) (mem : f ∈ p.functions) (forest : Forest)
    (journal : Journal) : (aloneText? s ⟨p, forest, journal⟩ f).isSome := by
  unfold aloneText?
  split
  · rename_i report body b' done
    unfold alone? at done
    split at done
    · have run := eq_ok_of_result? done
      obtain ⟨follows, inside, declared⟩ :=
        (ends_optimizeFunction_sound sound mem forest journal).of_ok run
      have same := (ends_optimizeFunction_targets s f _).of_ok run
      refine follows.isSome_bodyText? declared inside fun i inBody x isTarget => ?_
      have assigned : i.target? ∈ f.body.map (·.target?) :=
        same ▸ List.mem_map_of_mem inBody
      obtain ⟨j, inBody', eq⟩ := List.mem_map.mp assigned
      rw [follows.vars_eq]
      exact sound.targets f mem j inBody' x (eq ▸ isTarget)
    · cases done
  · exact sound.isSome_bodyText? sound.toDeclared (sound.bodies f mem) (sound.targets f mem)

section Encoding

variable {c : Classifier} {body : List Instruction}

theorem ends_buildSeries_journal (body : List Instruction) (b : Bench) :
    Ends (buildSeries body) b (fun _ b' => b'.journal = b.journal) fun _ _ => True := by
  induction body generalizing b with
  | nil => rfl
  | cons i rest ih =>
    rw [buildSeries, List.forM, Ends.bind_iff, Ends.bind_iff, Ends.get_iff, Ends.bind_iff,
      ends_onStore]
    apply (Ends.trivial _ _).imp
    · intro root store _
      rw [register, Ends.modify_iff]
      exact ih _
    · exact fun _ _ _ => trivial

theorem ends_encodeFunction (wf : b.program.WellFormed)
    (inside : ∀ i ∈ f.body, i.value < b.program.values.size) :
    Ends (encodeFunction c f) b
      (fun _ b' => b'.program = b.program ∧ b'.journal = b.journal)
      fun e b' => e.kind = .type ∧ b'.program = b.program ∧ b'.journal = b.journal := by
  rw [encodeFunction, ends_aside, Ends.bind_iff]
  apply ((ends_buildSeries rfl (Forest.planted_empty _)).and (ends_buildSeries_journal _ _)).imp
  · rintro _ b₁ ⟨⟨program, planted⟩, journal⟩
    rw [encodeForest, Ends.bind_iff, Ends.get_iff, ends_onStore]
    apply (planted.ends_encode_kind _).imp
    · exact fun _ _ _ => ⟨program, journal⟩
    · exact fun _ _ kind => ⟨kind, program, journal⟩
  · rintro _ _ ⟨fails, -⟩
    exact absurd ⟨wf, inside⟩ fails

end Encoding

theorem ends_attempt {α : Type} {x : Work α} {ok : Except Failure α → Bench → Prop}
    {failed : Failure → Bench → Prop}
    (h : Ends x b (fun a b' => ok (.ok a) b') fun e b' => e.kind ≠ .range ∧ ok (.error e) b') :
    Ends (attempt x) b ok failed := by
  unfold Ends attempt at *
  cases run : x b with
  | ok a b' =>
    rw [run] at h
    exact h
  | error e b' =>
    rw [run] at h
    simp only [if_neg h.1]
    exact h.2

theorem ends_function {index : Nat} {ok : Function → Bench → Prop}
    {failed : Failure → Bench → Prop} (found : b.program.functions[index]? = some f)
    (h : ok f b) : Ends (function index) b ok failed := by
  rw [function, Ends.bind_iff, Ends.get_iff, found]
  exact h

theorem ends_setBody {index : Nat} {body : List Instruction} {ok : Unit → Bench → Prop}
    {failed : Failure → Bench → Prop} (found : b.program.functions[index]? = some f)
    (h : ok () { b with
      program := { b.program with
        functions := b.program.functions.modify index ({ · with body }) } }) :
    Ends (setBody index body) b ok failed := by
  rw [setBody, Ends.bind_iff]
  exact ends_function found h

/-- The functions before `index` are done: they read as if each alone had been optimized from the
start. -/
structure Underway (s : Settings) (start : Bench) (owner : Nat → Nat) (index : Nat) (o : Outcome)
    (b : Bench) : Prop where
  halfway : start.program.Halfway owner index b.program
  level : b.journal.level = start.journal.level
  size : b.program.functions.size = start.program.functions.size
  waiting : ∀ k : Nat, index ≤ k → b.program.functions[k]? = start.program.functions[k]?
  finished : ∀ (k : Nat) f, k < index → start.program.functions[k]? = some f →
    ∃ body, b.program.functions[k]? = some { f with body } ∧
      (∀ i ∈ body, (i.value < start.program.values.size → owner i.value < index) ∧
        i.value < b.program.values.size) ∧
      b.program.bodyText? body = aloneText? s start f
  reports : o.reports = (start.program.functions.toList.take index).filterMap fun f =>
    (alone? s start f).map (·.1.1)

namespace Underway

variable {start b' : Bench} {owner : Nat → Nat} {index : Nat} {o o' : Outcome}

theorem congr (h : Underway s start owner index o b) (program : b'.program = b.program)
    (level : b'.journal.level = b.journal.level) (reports : o'.reports = o.reports) :
    Underway s start owner index o' b' where
  halfway := program ▸ h.halfway
  level := level.trans h.level
  size := program ▸ h.size
  waiting := program ▸ h.waiting
  finished := program ▸ h.finished
  reports := reports.trans h.reports

theorem next {p' q' : Program} (h : Underway s start owner index o b) (body : List Instruction)
    (functions : Array Function) (found : start.program.functions[index]? = some f)
    (advances : Advances owner index start.program b.program p' q')
    (program : b'.program = { q' with functions }) (level : b'.journal.level = start.journal.level)
    (size : functions.size = b.program.functions.size)
    (others : ∀ k ≠ index, functions[k]? = b.program.functions[k]?)
    (here : functions[index]? = some { f with body })
    (placed : ∀ i ∈ body, (i.value < start.program.values.size → owner i.value < index + 1) ∧
      i.value < q'.values.size)
    (text : q'.bodyText? body = aloneText? s start f)
    (reports : o'.reports = o.reports ++ ((alone? s start f).map (·.1.1)).toList) :
    Underway s start owner (index + 1) o' b' := by
  have grows := advances.follows.grows
  have halfway := h.halfway.step advances
  have halfway' := halfway.withFunctions functions
  have same (body : List Instruction) (inside : ∀ i ∈ body, i.value < q'.values.size) :
      { q' with functions }.bodyText? body = q'.bodyText? body :=
    Program.bodyText?_congr (fun _ => True) halfway.toWellFormed halfway'.toWellFormed rfl rfl
      (fun _ _ => rfl) (fun _ _ _ _ _ _ => trivial) fun i mem => ⟨trivial, inside i mem⟩
  refine ⟨program ▸ halfway', level, ?_, fun k le => ?_, fun k g before isFunction => ?_, ?_⟩
  · rw [program]
    exact size.trans h.size
  · rw [program]
    exact (others k (by omega)).trans (h.waiting k (by omega))
  · rw [program]
    rcases Nat.lt_succ_iff_lt_or_eq.mp before with earlier | rfl
    · obtain ⟨body', isBody, placed', text'⟩ := h.finished k g earlier isFunction
      refine ⟨body', (others k (Nat.ne_of_lt earlier)).trans isBody,
        fun i mem => ⟨fun lt => ?_, ?_⟩, ?_⟩
      · exact Nat.lt_succ_of_lt ((placed' i mem).1 lt)
      · exact Nat.lt_of_lt_of_le (placed' i mem).2 grows
      · rw [same, h.halfway.bodyText?_done advances placed', text']
        exact fun i mem => Nat.lt_of_lt_of_le (placed' i mem).2 grows
    · cases isFunction.symm.trans found
      exact ⟨body, here, placed, (same body fun i mem => (placed i mem).2).trans text⟩
  · have isNext : start.program.functions.toList[index]? = some f := by
      rw [Array.getElem?_toList, found]
    rw [reports, h.reports, List.take_add_one, isNext, List.filterMap_append]
    rfl

theorem next_unchanged {p' q' : Program} (h : Underway s start owner index o b)
    (sound : start.program.Sound) (divided : start.program.Divided owner)
    (found : start.program.functions[index]? = some f)
    (advances : Advances owner index start.program b.program p' q') (ext : b.program.Extends q')
    (program : b'.program = q') (level : b'.journal.level = start.journal.level)
    (none : alone? s start f = none) (reports : o'.reports = o.reports) :
    Underway s start owner (index + 1) o' b' := by
  have mem := Array.mem_of_getElem? found
  have functions := ext.functions_eq
  have inside (i : Instruction) (inBody : i ∈ f.body) :
      owner i.value = index ∧ i.value < start.program.values.size :=
    ⟨divided.bodies index f found i inBody, sound.bodies f mem i inBody⟩
  apply h.next f.body q'.functions found advances program level
  case size => rw [functions]
  case others => exact fun k _ => by rw [functions]
  case here => rw [functions, h.waiting index (Nat.le_refl index), found]
  case placed =>
    intro i inBody
    obtain ⟨own, lt⟩ := inside i inBody
    refine ⟨fun _ => own ▸ Nat.lt_succ_self _, ?_⟩
    exact Nat.lt_of_lt_of_le lt (Nat.le_trans h.halfway.grows advances.follows.grows)
  case text =>
    rw [aloneText?, none]
    exact h.halfway.bodyText?_pending sound.toWellFormed divided ext
      advances.follows.toWellFormed inside
  case reports => rw [none, reports, Option.map_none, Option.toList_none, List.append_nil]

end Underway

section Run

variable {start : Bench} {owner : Nat → Nat} {index : Nat} {o : Outcome}

/-- The next function is optimized as it would be alone. -/
theorem alike_optimizeFunction_start (h : Underway s start owner index o b)
    (sound : start.program.Sound) (divided : start.program.Divided owner)
    (found : start.program.functions[index]? = some f) :
    Alike (optimizeFunction s f) (optimizeFunction s f) start b
      (fun out out' c c' => out'.1 = out.1 ∧
        List.Forall₂ (Instruction.Renamed (.shift start.program b.program owner index))
          out.2 out'.2 ∧
        (∀ i ∈ out.2, i.value < c.program.values.size) ∧
        (∀ i ∈ out'.2, i.value < c'.program.values.size) ∧
        Advances owner index start.program b.program c.program c'.program ∧
        c'.journal.level = start.journal.level)
      fun e e' c c' => e.kind = e'.kind ∧ e'.kind ≠ .range ∧ b.program.Extends c'.program ∧
        Advances owner index start.program b.program c.program c'.program ∧
        c'.journal.level = start.journal.level := by
  have mem := Array.mem_of_getElem? found
  have inside := sound.bodies f mem
  have environment := sound.environments f mem
  have wf := sound.toWellFormed
  have wf' := h.halfway.toWellFormed
  have helpers : b.program.NamesHelpers := by
    unfold Program.NamesHelpers
    rw [h.halfway.helpers_eq, h.halfway.funcs_eq]
    exact sound.helpers
  have inside' (i : Instruction) (inBody : i ∈ f.body) : i.value < b.program.values.size :=
    Nat.lt_of_lt_of_le (inside i inBody) h.halfway.grows
  have self : List.Forall₂
      (Instruction.Renamed (.shift start.program b.program owner index)) f.body f.body :=
    List.forall₂_same.mpr fun i inBody => Instruction.renamed_self
      (fun _ => divided.bodies index f found i inBody) (Renaming.moved_of_lt (inside i inBody))
  have alike : Alike (optimizeFunction s f) (optimizeFunction s f) start b _ _ :=
    alike_optimizeFunction (h.halfway.abreast wf divided) wf wf' sound.helpers self inside rfl
      h.level
  have first : Ends (optimizeFunction s f) start _ _ :=
    ends_optimizeFunction_follows wf sound.helpers inside environment start.forest start.journal
  have second : Ends (optimizeFunction s f) b _ _ :=
    ends_optimizeFunction_follows wf' helpers inside' (h.halfway.vars_eq ▸ environment) b.forest
      b.journal
  apply ((alike.and_left first).and_right second).imp
  · rintro out out' c c' ⟨⟨⟨report, body, renamed, level⟩, alone, placed, -⟩, follows, placed', -⟩
    exact ⟨report, body, placed, placed', ⟨alone, follows, renamed⟩, level⟩
  · rintro e e' c c' ⟨⟨⟨like, renamed, level⟩, alone, -⟩, follows, ext, kind, -⟩
    exact ⟨like, kind, ext, ⟨alone, follows, renamed⟩, level⟩

theorem rewriting_eq_aloneKind? (h : Underway s start owner index o b)
    (sound : start.program.Sound) (divided : start.program.Divided owner)
    (found : start.program.functions[index]? = some f) :
    (verdict s index b).rewriting = aloneKind? s start f := by
  have here := (h.waiting index (Nat.le_refl index)).trans found
  rw [verdict, failureKind?_bind_of_ok (function_eq here), rewrite, aloneKind?]
  split
  · have noted : Underway s start owner index o
        { b with journal := b.journal.note (.optimizing f.name) } :=
      h.congr rfl (level_note _ _) rfl
    have alike := alike_optimizeFunction_start noted sound divided found
    rw [failureKind?_note_bind]
    cases run : optimizeFunction s f start with
    | ok out c =>
      obtain ⟨out', c', run', -, -, -, -, advances, -⟩ := (alike.of_ok run).exists_ok
      have isFunction : c'.program.functions[index]? = some f := by
        rw [advances.follows.functions_eq]
        exact here
      rw [failureKind?_of_ok run, failureKind?_bind_of_ok run']
      exact failureKind?_of_ok (setBody_eq isFunction out'.2)
    | error e c =>
      have fails := alike.of_error run
      rw [failureKind?_of_error run]
      cases run' : optimizeFunction s f
          { b with journal := b.journal.note (.optimizing f.name) } with
      | ok => exact (fails.of_ok run').elim
      | error e' c' => rw [failureKind?_bind_of_error run', (fails.of_error run').1]
  · rfl

theorem ends_optimizeAt (h : Underway s start owner index o b) (sound : start.program.Sound)
    (divided : start.program.Divided owner) (found : start.program.functions[index]? = some f) :
    Ends (optimizeAt s index f o) b
      (fun out b' => Underway s start owner (index + 1) out.1 b') fun _ _ => False := by
  rw [optimizeAt, Ends.ite_iff]
  constructor
  · intro asks
    have h : Underway s start owner index o
        { b with journal := b.journal.note (.optimizing f.name) } :=
      h.congr rfl (level_note _ _) rfl
    have alike := alike_optimizeFunction_start h sound divided found
    rw [Ends.bind_iff, note, Ends.modify_iff, Ends.bind_iff]
    apply ends_attempt
    cases run : optimizeFunction s f start with
    | ok out c =>
      have done : alone? s start f = some (out, c) := by rw [alone?, if_pos asks, result?, run]
      apply (alike.of_ok run).imp
      · rintro ⟨report, body⟩ c' ⟨rfl, renamed, inside, inside', advances, level⟩
        have functions := advances.follows.functions_eq
        have isFunction : c'.program.functions[index]? = some f := by
          rw [functions, h.waiting index (Nat.le_refl index), found]
        dsimp only
        rw [Ends.bind_iff]
        apply ends_setBody isFunction
        rw [Ends.pure_iff]
        apply h.next body (c'.program.functions.modify index ({ · with body })) found advances
        case program => rfl
        case level => exact level
        case size => rw [Array.size_modify, functions]
        case others =>
          intro k other
          rw [Array.getElem?_modify, if_neg other.symm, functions]
        case here =>
          rw [Array.getElem?_modify, if_pos rfl, isFunction]
          rfl
        case placed => exact fun i mem => ⟨h.halfway.placed renamed i mem, inside' i mem⟩
        case text =>
          rw [aloneText?, done]
          exact advances.renamed.mirrors.bodyText?_eq advances.alone.toWellFormed
            advances.follows.toWellFormed renamed inside
        case reports =>
          rw [done]
          rfl
      · exact fun _ _ fails => fails.elim
    | error e c =>
      have none : alone? s start f = none := by rw [alone?, if_pos asks, result?, run]
      apply (alike.of_error run).imp
      · exact fun _ _ fails => fails.elim
      · rintro e' c' ⟨-, kind, ext, advances, level⟩
        refine ⟨kind, ?_⟩
        dsimp only
        rw [Ends.bind_iff, note, Ends.modify_iff, Ends.pure_iff]
        exact h.next_unchanged sound divided found advances ext rfl
          ((level_note _ _).trans level) none rfl
  · intro declines
    have none : alone? s start f = none := by rw [alone?, if_neg declines]
    exact h.next_unchanged sound divided found (h.halfway.advances sound.toWellFormed divided)
      (.refl _) rfl h.level none rfl

theorem ends_encodeAt {k : Nat} (h : Underway s start owner index o b) (before : k < index)
    (found : start.program.functions[k]? = some f) :
    Ends (encodeAt s k f o) b (fun o' b' => Underway s start owner index o' b')
      fun _ _ => False := by
  rw [encodeAt, Ends.ite_iff]
  refine ⟨fun _ => ?_, fun _ => h⟩
  have h : Underway s start owner index o
      { b with journal := b.journal.note (.encoding f.name) } :=
    h.congr rfl (level_note _ _) rfl
  obtain ⟨body, isBody, placed, -⟩ := h.finished k f before found
  rw [Ends.bind_iff, note, Ends.modify_iff, Ends.bind_iff]
  apply ends_function isBody
  rw [Ends.bind_iff]
  apply ends_attempt
  apply (ends_encodeFunction h.halfway.toWellFormed fun i mem => (placed i mem).2).imp
  · rintro e b' ⟨program, journal⟩
    dsimp only
    rw [Ends.bind_iff, note, Ends.modify_iff, Ends.pure_iff]
    exact h.congr program ((level_note _ _).trans (congrArg Journal.level journal)) rfl
  · rintro e b' ⟨kind, program, journal⟩
    refine ⟨by simp [kind], ?_⟩
    dsimp only
    rw [Ends.bind_iff, note, Ends.modify_iff, Ends.pure_iff]
    exact h.congr program ((level_note _ _).trans (congrArg Journal.level journal)) rfl

theorem ends_runAt (h : Underway s start owner index o b) (sound : start.program.Sound)
    (divided : start.program.Divided owner) (lt : index < start.program.functions.size) :
    Ends (runAt s o index) b (fun o' b' => Underway s start owner (index + 1) o' b')
      fun _ _ => False := by
  obtain ⟨f, found⟩ : ∃ f, start.program.functions[index]? = some f :=
    ⟨_, Array.getElem?_eq_getElem lt⟩
  rw [runAt, Ends.bind_iff]
  apply ends_function ((h.waiting index (Nat.le_refl index)).trans found)
  have counted : Underway s start owner index
      { o with stats := { o.stats with total := o.stats.total + 1 } } b := h.congr rfl rfl rfl
  dsimp only
  rw [Ends.bind_iff]
  apply (ends_optimizeAt counted sound divided found).imp
  · rintro ⟨o₁, go⟩ b₁ done
    rw [Ends.ite_iff]
    exact ⟨fun _ => ends_encodeAt done (Nat.lt_succ_self index) found, fun _ => done⟩
  · exact fun _ _ fails => fails

theorem ends_runAll {n : Nat} (h : Underway s start owner index o b) (sound : start.program.Sound)
    (divided : start.program.Divided owner) (le : index + n ≤ start.program.functions.size) :
    Ends ((List.range' index n).foldlM (runAt s) o) b
      (fun o' b' => Underway s start owner (index + n) o' b') fun _ _ => False := by
  induction n generalizing index o b with
  | zero => exact h
  | succ n ih =>
    rw [List.range'_succ, List.foldlM_cons, Ends.bind_iff]
    apply (ends_runAt h sound divided (by omega)).imp
    · intro o' b' done
      have next := ih done (by omega)
      rwa [Nat.add_assoc, Nat.add_comm 1 n] at next
    · exact fun _ _ fails => fails

theorem underway_zero (s : Settings) (sound : start.program.Sound) (owner : Nat → Nat) :
    Underway s start owner 0 {} { start with journal := start.journal.note .starting } :=
  ⟨sound.toWellFormed.halfway owner, level_note _ _, rfl, fun _ _ => rfl,
    fun k _ before => absurd before (Nat.not_lt_zero k), rfl⟩

theorem ends_run (s : Settings) (sound : start.program.Sound)
    (divided : start.program.Divided owner) :
    Ends (run s) start
      (fun o b => Underway s start owner start.program.functions.size o b) fun _ _ => False := by
  rw [run, Ends.bind_iff, note, Ends.modify_iff, Ends.bind_iff, Ends.get_iff, Ends.bind_iff,
    List.range_eq_range']
  apply (ends_runAll (underway_zero s sound owner) sound divided
    (Nat.le_of_eq (Nat.zero_add _))).imp
  · intro o b done
    rw [Nat.zero_add] at done
    exact done.congr rfl (level_note _ _) rfl
  · exact fun _ _ fails => fails

theorem map_rewriting_verdictsFrom {n : Nat} (h : Underway s start owner index o b)
    (sound : start.program.Sound) (divided : start.program.Divided owner)
    (le : index + n ≤ start.program.functions.size) :
    (verdictsFrom s (List.range' index n) o b).map (·.rewriting) =
      (List.range' index n).map fun k => start.program.functions[k]?.bind (aloneKind? s start) := by
  induction n generalizing index o b with
  | zero => rfl
  | succ n ih =>
    obtain ⟨f, found⟩ : ∃ f, start.program.functions[index]? = some f :=
      ⟨_, Array.getElem?_eq_getElem (by omega)⟩
    obtain ⟨o', b', run, next⟩ := (ends_runAt h sound divided (by omega)).exists_ok
    rw [List.range'_succ, verdictsFrom_cons run, List.map_cons, List.map_cons,
      ih next (by omega), rewriting_eq_aloneKind? h sound divided found, found, Option.bind_some]

/-- In a run, every function fails as it would alone. -/
theorem exists_verdict (s : Settings) (sound : start.program.Sound)
    (divided : start.program.Divided owner) (found : start.program.functions[index]? = some f) :
    ∃ v, (verdicts s start)[index]? = some v ∧ v.rewriting = aloneKind? s start f := by
  have all := map_rewriting_verdictsFrom (underway_zero s sound owner) sound divided
    (Nat.le_of_eq (Nat.zero_add start.program.functions.size))
  rw [← List.range_eq_range'] at all
  have here := congrArg (·[index]?) all
  have lt := (Array.getElem?_eq_some_iff.mp found).1
  simp only [List.getElem?_map, List.getElem?_range lt, Option.map_some, found,
    Option.bind_some] at here
  exact Option.map_eq_some_iff.mp here

end Run

end Work

/-- A run succeeds, and each function ends up as if it alone had been optimized: with that report
and those lines, or as it was where it does not ask for that or fails. Its rewriting fails in the
run exactly where it fails alone, with a failure of the same kind. -/
theorem isolated_run {p : Program} (described : p.Described) (s : Settings) (forest : Forest)
    (journal : Journal) :
    ∃ o b, Work.run s ⟨p, forest, journal⟩ = .ok o b ∧
      b.program.functions.size = p.functions.size ∧
      o.reports = p.functions.toList.filterMap (fun f =>
        (Work.alone? s ⟨p, forest, journal⟩ f).map (·.1.1)) ∧
      ∀ (index : Nat) f, p.functions[index]? = some f → ∃ body text verdict,
        b.program.functions[index]? = some { f with body } ∧
        b.program.bodyText? body = some text ∧
        (Work.verdicts s ⟨p, forest, journal⟩)[index]? = some verdict ∧
        (s.optimizes f = false → verdict.rewriting = none ∧ p.bodyText? f.body = some text) ∧
        (s.optimizes f = true → Ends (Work.optimizeFunction s f) ⟨p, forest, journal⟩
          (fun out alone => verdict.rewriting = none ∧ alone.program.bodyText? out.2 = some text)
          fun e _ => verdict.rewriting = some e.kind ∧ p.bodyText? f.body = some text) := by
  have sound := described.sound
  have start : (Bench.mk p forest journal).program.Sound := sound
  obtain ⟨owner, divided⟩ := described.divided
  obtain ⟨o, b, run, done⟩ := (Work.ends_run s start divided).exists_ok
  refine ⟨o, b, run, done.size, ?_, fun index f found => ?_⟩
  · rw [done.reports, List.take_of_length_le (by simp)]
  · have lt := (Array.getElem?_eq_some_iff.mp found).1
    obtain ⟨body, isBody, -, same⟩ := done.finished index f lt found
    obtain ⟨text, shown⟩ := Option.isSome_iff_exists.mp
      (Work.isSome_aloneText? (s := s) sound (Array.mem_of_getElem? found) forest journal)
    obtain ⟨verdict, isVerdict, fails⟩ := Work.exists_verdict s start divided found
    exact ⟨body, text, verdict, isBody, same.trans shown, isVerdict,
      Work.alone_iff.mp ⟨fails, shown⟩⟩

/-- A function whose chain is replaced, one that fails after it has appended values, one that asks
for nothing and one that is factored. -/
def Description.mixed : Description where
  vars := ["x", "y", "z", "m"].map fun name => ⟨name, some .int⟩
  operators := ["__add__", "__mul__", "__pow__", "__matmul__"].map fun name =>
    ⟨.int, name, [.int, .int], .int⟩
  helpers := [⟨MatrixChain.helperName, some .int⟩]
  functions :=
    let product : Expr := .call "__matmul__" [.call "__matmul__" [.var "x", .var "y"], .var "z"]
    let sum : Expr := .call "__add__" [.call "__mul__" [.var "x", .var "y"],
      .call "__mul__" [.var "x", .var "z"]]
    [⟨"chained", some "m", [], { reorderMatmuls := true }, [.ret product]⟩,
      ⟨"failing", none, [], { minimize := true },
        [.eval sum, .ret (.call "__pow__" [.var "x", .var "y"])]⟩,
      ⟨"plain", none, [], {}, [.ret product]⟩,
      ⟨"factored", none, [], { minimize := true }, [.ret sum]⟩]

def Description.mixedLines : List (List String) := [
  ["return (matmul_reordering m (tuple x y z))"],
  ["(__add__ (__mul__ x y) (__mul__ x z))", "return (__pow__ x y)"],
  ["return (__matmul__ (__matmul__ x y) z)"],
  ["return (__mul__ x (__add__ z y))"]]

theorem isolated_run_mixed :
    ∃ (p : Program) (o : Outcome) (b : Bench), p.Described ∧ p.functions.size = 4 ∧
      Work.run (.ofPreset .aggressive) ⟨p, {}, {}⟩ = .ok o b ∧
      o.reports.map (·.name) = ["chained", "factored"] ∧
      ∀ (index : Nat) f, p.functions[index]? = some f → ∃ body,
        b.program.functions[index]? = some { f with body } ∧
        b.program.bodyText? body = Description.mixedLines[index]? := by
  have checked : (Description.mixed.first?.any fun (p, _) => decide (p.functions.size = 4 ∧
      p.functions.toList.filterMap (fun f =>
        (Work.alone? (.ofPreset .aggressive) ⟨p, {}, {}⟩ f).map (·.1.1.name)) =
          ["chained", "factored"] ∧
      p.functions.toList.map (Work.aloneText? (.ofPreset .aggressive) ⟨p, {}, {}⟩) =
        Description.mixedLines.map some)) = true := by
    decide +kernel
  obtain ⟨⟨p, g⟩, isFirst, checked⟩ := Option.any_eq_true _ _ |>.mp checked
  obtain ⟨lowered, -⟩ := Description.lower_of_first? isFirst
  obtain ⟨size, names, lines⟩ := of_decide_eq_true checked
  obtain ⟨o, b, run, -, reports, each⟩ := isolated_run ⟨_, lowered⟩ (.ofPreset .aggressive) {} {}
  refine ⟨p, o, b, ⟨_, lowered⟩, size, run, ?_, fun index f found => ?_⟩
  · rw [reports, List.map_filterMap, ← names]
    simp only [Option.map_map]
    rfl
  · obtain ⟨body, text, verdict, isBody, shown, -, ends⟩ := each index f found
    have alone : Work.aloneText? (.ofPreset .aggressive) ⟨p, {}, {}⟩ f = some text :=
      (Work.alone_iff.mpr ends).2
    have listed := congrArg (·[index]?) lines
    simp only [List.getElem?_map, Array.getElem?_toList, found, Option.map_some, alone] at listed
    obtain ⟨line, isLine, eq⟩ := Option.map_eq_some_iff.mp listed.symm
    cases eq
    exact ⟨body, isBody, shown.trans isLine.symm⟩

end SecureArith
