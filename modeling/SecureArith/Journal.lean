import SecureArith.Failure

set_option autoImplicit false

/-!
# Journals

What was done on the way, in order. A journal keeps the events of its level and of the levels
above it.
-/

namespace SecureArith

inductive Level where
  | warn
  | info
  | debug
  deriving DecidableEq, Repr

namespace Level

def name : Level → String
  | .warn => "WARN"
  | .info => "INFO"
  | .debug => "DEBUG"

def rank : Level → Nat
  | .warn => 0
  | .info => 1
  | .debug => 2

end Level

inductive Event where
  | starting
  | optimizing (function : String)
  | optimizationFailed (function : String) (cause : Failure)
  | encoding (function : String)
  | encoded (records : Nat) (function : String)
  | encodingFailed (function : String) (cause : Failure)
  | finished (optimized encoded failed total : Nat)
  | noEnvironment (function : String)
  | regenerated (before after : String)
  | factoring (factor sum : String)
  | factored (tree : String)
  | reordered (tree : String)
  | reorderingStopped (swaps : Nat) (tree : String)
  | powerExpanded (tree : String)
  | chainReplaced (operands : Nat) (value : ValueId)
  deriving DecidableEq, Repr

namespace Event

def level : Event → Level
  | .optimizationFailed .. | .encodingFailed .. | .reorderingStopped .. => .warn
  | .starting | .optimizing _ | .encoding _ | .finished .. => .info
  | _ => .debug

def message : Event → String
  | .starting => "Starting optimization pipeline..."
  | .optimizing f => s!"Optimizing function {f}..."
  | .optimizationFailed f cause => s!"Failed to optimize function {f}: {cause.message}"
  | .encoding f => s!"Encoding function {f}..."
  | .encoded n f => s!"Encoded {n} nodes of {f}"
  | .encodingFailed f cause => s!"Failed to encode function {f}: {cause.message}"
  | .finished done records failed total =>
    s!"Pipeline complete: {done} optimized, {records} encoded, {failed} failed " ++
      s!"out of {total} functions"
  | .noEnvironment f => s!"Function {f} has no mpc parameter; skipping matmul reordering"
  | .regenerated before after => s!"Rewrote {before} into {after}"
  | .factoring factor sum => s!"Factoring {factor} out of {sum}"
  | .factored tree => s!"Factored tree: {tree}"
  | .reordered tree => s!"Reordered priorities: {tree}"
  | .reorderingStopped swaps tree =>
    s!"Priority reordering stopped after {swaps} swaps on {tree}"
  | .powerExpanded tree => s!"Expanded power into {tree}"
  | .chainReplaced n value => s!"Reordered chain of {n} matrix multiplications at %{value}"

def line (e : Event) : String := e.level.name ++ " " ++ e.message

end Event

structure Journal where
  /-- Nothing is kept without a level. -/
  level : Option Level := none
  events : Array Event := #[]
  deriving DecidableEq, Repr

namespace Journal

/-- Events of this level are kept. -/
def keeps (j : Journal) (level : Level) : Bool := j.level.any (level.rank ≤ ·.rank)

def note (j : Journal) (e : Event) : Journal :=
  if j.keeps e.level then { j with events := j.events.push e } else j

end Journal

end SecureArith
