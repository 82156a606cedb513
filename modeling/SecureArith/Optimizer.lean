import SecureArith.Expr.Build
import SecureArith.Encoding.Encode
import SecureArith.Outcome
import SecureArith.Pass.Emission
import SecureArith.Pass.Factoring
import SecureArith.Pass.MatrixChain
import SecureArith.Pass.Power
import SecureArith.Pass.Priority
import SecureArith.Settings

set_option autoImplicit false

/-!
# The optimizer

The statements of a function are minimized in order: the tree of an operation is expanded through
the trees of the variables assigned before, transformed, and turned into values again if a
transformation changed it. Then chains of matrix multiplications are replaced. A function that
fails keeps its body, and the run goes on with the next one.
-/

namespace SecureArith

/-- A value in the place of another, with its tree if it has one. -/
structure Minimized where
  value : ValueId
  tree : Option NodeId
  /-- How many values were computed anew. -/
  regenerated : Nat

namespace Work

variable {α : Type}

/-- Works on an empty forest, which is given up at the end. -/
def aside (x : Work α) : Work α
  | ⟨program, forest, journal⟩ =>
    match x ⟨program, {}, journal⟩ with
    | .ok a b => .ok a { b with forest }
    | .error e b => .error e { b with forest }

/-- The result, or the failure as a result. An index out of range is not made up for. -/
def attempt (x : Work α) : Work (Except Failure α) := fun b =>
  match x b with
  | .ok a b => .ok (.ok a) b
  | .error e b => if e.kind = .range then .error e b else .ok (.error e) b

def optional (on : Bool) (pass : Work Bool) : Work Bool := if on then pass else return false

def transform (s : Settings) (root : NodeId) : Work Bool := do
  let expanded ← optional s.expandPowers (expandPowers root)
  let factored ← optional s.factorize (factorAll s.classifier root)
  let reordered ← optional s.reorderPriorities (reorderAll s.classifier root)
  return expanded || factored || reordered

def minimizeBinary (s : Settings) (id : ValueId) : Work Minimized := do
  let p := (← get).program
  let root ← onStore (Store.buildBinary p id)
  expand root
  let before ← shown root
  if ← transform s root then
    let _ ← typeAt s.classifier true root
    let value ← emit s.classifier root
    noteAt .debug do return .regenerated before (← shown root)
    return ⟨value, some root, 1⟩
  else return ⟨id, some root, 0⟩

def minimizeLeaf (id : ValueId) (v : Value) : Work Minimized := do
  let leaf ← onStore (Store.append { origin := some (.ofValue v) })
  expand leaf
  return ⟨id, some leaf, 0⟩

/-- Minimizes a value. A call of another number of operands has no tree, and is made again if an
operand was. The number bounds the depth. -/
def minimizeTo (s : Settings) : Nat → ValueId → Work Minimized
  | 0, _ => throw .outOfRange
  | depth + 1, id => do
    let v ← value id
    match v.kind with
    | .call _ [_, _] => minimizeBinary s id
    | .call _ args =>
      let done ← args.mapM (minimizeTo s depth)
      let regenerated := done.foldr (·.regenerated + ·) 0
      let values := done.map (·.value)
      if values = args then return ⟨id, none, regenerated⟩
      let value ← withArgs id values
      return ⟨value, none, regenerated⟩
    | _ => minimizeLeaf id v

def minimize (s : Settings) (id : ValueId) : Work Minimized := do
  minimizeTo s (← get).program.values.size id

def minimizeInstruction (s : Settings) (i : Instruction) : Work Minimized := do
  let m ← minimize s i.value
  if let some root := m.tree then register (.ofInstruction i) root
  return m

/-- Minimizes the statements in order; also counts the values computed anew. -/
def minimizeBody (s : Settings) : List Instruction → Work (List Instruction × Nat)
  | [] => return ([], 0)
  | i :: rest => do
    let m ← minimizeInstruction s i
    let (body, n) ← minimizeBody s rest
    return (i.withValue m.value :: body, m.regenerated + n)

end Work

namespace Settings

def changesTreesOf (s : Settings) (f : Function) : Bool := f.attributes.minimize && s.changesTrees

def replacesChainsOf (s : Settings) (f : Function) : Bool :=
  s.reorderMatmuls && f.attributes.reorderMatmuls

def optimizes (s : Settings) (f : Function) : Bool := s.changesTreesOf f || s.replacesChainsOf f

def encodes (s : Settings) (f : Function) : Bool := f.attributes.encode && s.encodeTrees

end Settings

namespace Work

/-- The body of a function, minimized if the function asks for that, and how many values were
computed anew. -/
def minimizeFunction (s : Settings) (f : Function) : Work (List Instruction × Nat) :=
  if s.changesTreesOf f then minimizeBody s f.body else return (f.body, 0)

/-- Replaces the chains of a body, if the function asks for that, and counts them. -/
def replaceChainsOf (s : Settings) (f : Function) (body : List Instruction) : Work Nat := do
  if s.replacesChainsOf f then
    match f.mpc with
    | some mpc => replaceChains mpc (body.map (·.value)) none
    | none =>
      note (.noEnvironment f.name)
      return 0
  else return 0

/-- The new body of a function and a report. New values are appended to the program, and only
chains of matrix multiplications are changed in place. -/
def optimizeFunction (s : Settings) (f : Function) : Work (Report × List Instruction) := aside do
  let (body, regenerated) ← minimizeFunction s f
  let chains ← replaceChainsOf s f body
  let (nodes, edges) ← counts
  return (⟨f.name, regenerated, chains, nodes, edges⟩, body)

/-- Builds and registers a tree for each statement, without expanding variables. -/
def buildSeries (body : List Instruction) : Work Unit :=
  body.forM fun i => do
    let p := (← get).program
    let root ← onStore (Store.build p i.value)
    register (.ofInstruction i) root

def encodeForest (c : Classifier) (params : List VarId) : Work Encoding := do
  let b ← get
  onStore (b.forest.encode c b.program.values.size params)

def encodeFunction (c : Classifier) (f : Function) : Work Encoding := aside do
  buildSeries f.body
  encodeForest c f.params

def function (index : Nat) : Work Function := do demand (← get).program.functions[index]?

def setBody (index : Nat) (body : List Instruction) : Work Unit := do
  let _ ← function index
  modify fun b => { b with
    program := { b.program with
      functions := b.program.functions.modify index fun f => { f with body } } }

/-- Optimizes a function if it asks for that. Nothing else is done with one that fails. -/
def optimizeAt (s : Settings) (index : Nat) (f : Function) (o : Outcome) :
    Work (Outcome × Bool) := do
  if s.optimizes f then
    note (.optimizing f.name)
    match ← attempt (optimizeFunction s f) with
    | .ok (report, body) =>
      setBody index body
      let stats := { o.stats with
        optimized := o.stats.optimized + 1
        regenerated := o.stats.regenerated + report.regenerated
        chains := o.stats.chains + report.chains }
      return ({ o with stats, reports := o.reports ++ [report] }, true)
    | .error e =>
      note (.optimizationFailed f.name e)
      return ({ o with stats := { o.stats with failed := o.stats.failed + 1 } }, false)
  else return (o, true)

/-- Encodes a function, as it is by now, if it asks for that. -/
def encodeAt (s : Settings) (index : Nat) (f : Function) (o : Outcome) : Work Outcome := do
  if s.encodes f then
    note (.encoding f.name)
    let current ← function index
    match ← attempt (encodeFunction s.classifier current) with
    | .ok e =>
      note (.encoded e.length f.name)
      return { o with
        stats := { o.stats with encoded := o.stats.encoded + 1 }
        encodings := Outcome.insert f.name e o.encodings }
    | .error e =>
      note (.encodingFailed f.name e)
      return { o with stats := { o.stats with failed := o.stats.failed + 1 } }
  else return o

def runAt (s : Settings) (o : Outcome) (index : Nat) : Work Outcome := do
  let f ← function index
  let o := { o with stats := { o.stats with total := o.stats.total + 1 } }
  let (o, go) ← optimizeAt s index f o
  if go then encodeAt s index f o else return o

/-- Optimizes and encodes the functions of the program in order. -/
def run (s : Settings) : Work Outcome := do
  note .starting
  let o ← (List.range (← get).program.functions.size).foldlM (runAt s) {}
  note (.finished o.stats.optimized o.stats.encoded o.stats.failed o.stats.total)
  return o

end Work

end SecureArith
