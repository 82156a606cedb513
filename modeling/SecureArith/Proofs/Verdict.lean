import SecureArith.Optimizer
import SecureArith.Proofs.Alike

set_option autoImplicit false

/-!
# Verdicts

What a run does for one function, up to the first failure, is to rewrite and then to encode it. The
verdicts say of each function, as the run comes to it, how the one and how both fail.
-/

namespace SecureArith

namespace Work

def failure? {α : Type} (x : Work α) (b : Bench) : Option Failure :=
  match x b with
  | .ok .. => none
  | .error e _ => some e

def rewrite (s : Settings) (index : Nat) (f : Function) : Work Unit := do
  if s.optimizes f then
    note (.optimizing f.name)
    let (_, body) ← optimizeFunction s f
    setBody index body

def record (s : Settings) (index : Nat) (f : Function) : Work Unit := do
  if s.encodes f then
    note (.encoding f.name)
    let current ← function index
    let _ ← encodeFunction s.classifier current

/-- What a run does for one function, up to the first failure. -/
def serve (s : Settings) (index : Nat) : Work Unit := do
  let f ← function index
  rewrite s index f
  record s index f

/-- The failures of the functions of some indices, as a run meets them one after the other. -/
def failuresFrom (s : Settings) : List Nat → Outcome → Bench → List Failure
  | [], _, _ => []
  | index :: rest, o, b =>
    (failure? (serve s index) b).toList ++
      match runAt s o index b with
      | .ok o b => failuresFrom s rest o b
      | .error .. => []

def failures (s : Settings) (b : Bench) : List Failure :=
  failuresFrom s (List.range b.program.functions.size) {}
    { b with journal := b.journal.note .starting }

def failureKind? {α : Type} (x : Work α) (b : Bench) : Option Failure.Kind :=
  (failure? x b).map (·.kind)

/-- How the rewriting of a function fails, and how its rewriting and encoding do. -/
@[ext] structure Verdict where
  rewriting : Option Failure.Kind
  serving : Option Failure.Kind
  deriving DecidableEq

def verdict (s : Settings) (index : Nat) (b : Bench) : Verdict where
  rewriting := failureKind? (do rewrite s index (← function index)) b
  serving := failureKind? (serve s index) b

/-- The verdicts on the functions of some indices, as a run comes to them one after the other. -/
def verdictsFrom (s : Settings) : List Nat → Outcome → Bench → List Verdict
  | [], _, _ => []
  | index :: rest, o, b =>
    verdict s index b ::
      match runAt s o index b with
      | .ok o b => verdictsFrom s rest o b
      | .error .. => []

def verdicts (s : Settings) (b : Bench) : List Verdict :=
  verdictsFrom s (List.range b.program.functions.size) {}
    { b with journal := b.journal.note .starting }

variable {s : Settings} {f : Function} {b b' : Bench} {index : Nat} {o o' : Outcome}

section Bind

variable {α β : Type} {x : Work α} {k : α → Work β}

theorem bind_eq_of_ok {a : α} (run : x b = .ok a b') : (x >>= k) b = k a b' := by
  simp only [Bind.bind, EStateM.bind, run]

theorem bind_eq_of_error {e : Failure} (run : x b = .error e b') : (x >>= k) b = .error e b' := by
  simp only [Bind.bind, EStateM.bind, run]

end Bind

theorem note_bind_eq {β : Type} (e : Event) (k : Unit → Work β) :
    (note e >>= k) b = k () { b with journal := b.journal.note e } := rfl

theorem function_eq (found : b.program.functions[index]? = some f) :
    function index b = .ok f b := by
  have read : (get : Work Bench) b = .ok b b := rfl
  rw [function, bind_eq_of_ok read, found]
  rfl

theorem setBody_eq (found : b.program.functions[index]? = some f) (body : List Instruction) :
    setBody index body b = .ok () { b with
      program := { b.program with
        functions := b.program.functions.modify index ({ · with body }) } } := by
  rw [setBody, bind_eq_of_ok (function_eq found)]
  rfl

section Kind

variable {α β : Type} {x : Work α} {y : Work β} {c : Bench}

theorem failureKind?_of_ok {a : α} (run : x b = .ok a b') : failureKind? x b = none := by
  rw [failureKind?, failure?, run]
  rfl

theorem failureKind?_of_error {e : Failure} (run : x b = .error e b') :
    failureKind? x b = some e.kind := by
  rw [failureKind?, failure?, run]
  rfl

theorem failureKind?_bind_of_ok {a : α} {k : α → Work β} (run : x b = .ok a b') :
    failureKind? (x >>= k) b = failureKind? (k a) b' := by
  rw [failureKind?, failure?, bind_eq_of_ok run]
  rfl

theorem failureKind?_bind_of_error {e : Failure} {k : α → Work β} (run : x b = .error e b') :
    failureKind? (x >>= k) b = some e.kind :=
  failureKind?_of_error (bind_eq_of_error run)

theorem failureKind?_note_bind (e : Event) (k : Unit → Work β) :
    failureKind? (note e >>= k) b =
      failureKind? (k ()) { b with journal := b.journal.note e } := rfl

theorem failureKind?_eq_of_alike {ok : α → β → Bench → Bench → Prop}
    {failed : Failure → Failure → Bench → Bench → Prop} (h : Alike x y b c ok failed)
    (kinds : ∀ e e' b c, failed e e' b c → e.kind = e'.kind) :
    failureKind? y c = failureKind? x b := by
  cases run : x b with
  | ok a b' =>
    obtain ⟨a', c', run', -⟩ := (h.of_ok run).exists_ok
    rw [failureKind?_of_ok run, failureKind?_of_ok run']
  | error e b' =>
    have fails := h.of_error run
    cases run' : y c with
    | ok a' c' => exact (fails.of_ok run').elim
    | error e' c' =>
      rw [failureKind?_of_error run, failureKind?_of_error run',
        kinds e e' b' c' (fails.of_error run')]

end Kind

theorem verdictsFrom_cons {rest : List Nat} (run : runAt s o index b = .ok o' b') :
    verdictsFrom s (index :: rest) o b = verdict s index b :: verdictsFrom s rest o' b' := by
  rw [verdictsFrom, run]

end Work

end SecureArith
