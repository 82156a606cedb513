import SecureArith.Expr.Typing
import SecureArith.Forest.Basic
import SecureArith.Journal

set_option autoImplicit false

/-!
# Work

The passes work on a program and a forest and keep a journal. What was done before a failure
stays.
-/

namespace SecureArith

structure Bench where
  program : Program := {}
  forest : Forest := {}
  journal : Journal := {}

abbrev Work := EStateM Failure Bench

namespace Work

variable {α : Type}

def onStore (x : StoreM α) : Work α
  | ⟨program, ⟨registry, store⟩, journal⟩ =>
    match x store with
    | .ok a store => .ok a ⟨program, ⟨registry, store⟩, journal⟩
    | .error e store => .error e ⟨program, ⟨registry, store⟩, journal⟩

def onProgram (f : Program → α × Program) : Work α
  | ⟨program, forest, journal⟩ =>
    let (a, program) := f program
    .ok a ⟨program, forest, journal⟩

def note (e : Event) : Work Unit := modify fun b => { b with journal := b.journal.note e }

/-- Notes an event that has to be worked out, if the journal keeps events of its level. -/
def noteAt (level : Level) (event : Work Event) : Work Unit := do
  if (← get).journal.keeps level then note (← event)

def node (id : NodeId) : Work Node := onStore (Store.read id)

/-- Fails where something is absent because of an index out of range. -/
def demand : Option α → Work α
  | some a => return a
  | none => throw .outOfRange

def value (id : ValueId) : Work Value := do demand (← get).program.values[id]?

def addRead (v : VarId) : Work ValueId := do
  let _ ← demand (← get).program.vars[v]?
  onProgram (·.addRead v)

def addCall (func : FuncId) (args : List ValueId) : Work ValueId := do
  let _ ← demand (← get).program.funcs[func]?
  onProgram (·.addCall func args)

def withArgs (id : ValueId) (args : List ValueId) : Work ValueId := do
  let _ ← value id
  onProgram (·.withArgs id args)

def replaceValue (id : ValueId) (kind : ValueKind) (type : Option TypeName) : Work Unit := do
  let _ ← value id
  onProgram fun p => ((), p.replaceValue id kind type)

def tree (id : NodeId) : Work Tree := return (← get).forest.store.tree id

/-- A tree that is all there. -/
def completeTree (id : NodeId) : Work Tree := do
  let t ← tree id
  if t.complete then return t else throw .outOfRange

def trees : Work (List (TreeKey × Tree)) := do demand (← get).forest.trees?

def counts : Work (Nat × Nat) := do demand (← get).forest.counts?

def shown (id : NodeId) : Work String := do demand (← tree id).text?

def typeAt (c : Classifier) (force : Bool) (id : NodeId) : Work TypeName :=
  onStore (Store.typeAt c force id)

/-- Whether the value at an index is costly to combine. -/
def isSecure (c : Classifier) (id : NodeId) : Work Bool := return c.secure (← typeAt c false id)

def expand (id : NodeId) : Work Unit := do
  let roots := (← get).forest.roots
  onStore (Store.expand roots id)

def register (key : TreeKey) (root : NodeId) : Work Unit :=
  modify fun b => { b with forest := b.forest.add key root }

end Work

end SecureArith
