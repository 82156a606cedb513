import SecureArith.Work

set_option autoImplicit false

/-!
# Chains of matrix multiplications

A matrix multiplication with an operand that is one itself is replaced, in place, by a call of the
helper that gets the environment and the tuple of all operands of the chain in order and chooses the
order of multiplication when it runs. The search for a chain takes the first product that is not
marked, and marks it if it is no chain. A search that comes upon an index out of range has no
answer.
-/

namespace SecureArith

/-- Which values are known to be products without a product among their operands. -/
abbrev Marks := Array Bool

namespace Marks

def grow (marks : Marks) (size : Nat) : Marks := marks ++ Array.replicate (size - marks.size) false

def mark? (marks : Marks) (id : ValueId) : Option Marks :=
  if lt : id < marks.size then some (marks.set id true lt) else none

end Marks

namespace Program

def isMatmul? (p : Program) (id : ValueId) : Option Bool := p.isCallOf? id Operator.matmul.name

/-- A matrix multiplication with a direct operand that is one. -/
def isChain? (p : Program) (id : ValueId) : Option Bool := do
  let v ← p.values[id]?
  p.isMatmul? id <&&> v.operands.anyM p.isMatmul?

/-- The first value that passes a test, a value before its operands. The number bounds the depth. -/
def first? (p : Program) (test : ValueId → Option Bool) : Nat → ValueId → Option (Option ValueId)
  | 0, _ => none
  | depth + 1, id => do
    if ← test id then return some id
    (← p.values[id]?).operands.findSomeM? (p.first? test depth)

def isUnmarked? (p : Program) (marks : Marks) (id : ValueId) : Option Bool :=
  p.isMatmul? id <&&> (marks[id]?).map (!·)

/-- The first chain, with the marks. Products that come before it are none, and are marked one by
one. The number bounds how many are. -/
def nextChain? (p : Program) (root : ValueId) : Nat → Marks → Option (Option ValueId × Marks)
  | 0, _ => none
  | n + 1, marks => do
    match ← p.first? (p.isUnmarked? marks) p.values.size root with
    | none => return (none, marks)
    | some product =>
      if ← p.isChain? product then return (some product, marks)
      p.nextChain? root n (← marks.mark? product)

/-- The operands of a chain. Only the first two operands of a call belong to it. The number bounds
the depth. -/
def chainOperands? (p : Program) : Nat → ValueId → Option (List ValueId)
  | 0, _ => none
  | depth + 1, id => do
    let v ← p.values[id]?
    let parts ← (v.operands.take 2).mapM fun a => do
      if ← p.isMatmul? a then p.chainOperands? depth a else return [a]
    return parts.flatten

end Program

namespace MatrixChain

def helperName : String := "matmul_reordering"

end MatrixChain

namespace Work

/-- The read of the environment, which all chains share. -/
def readEnvironment (mpc : VarId) : Option ValueId → Work ValueId
  | some v => return v
  | none => addRead mpc

def replaceChain (mpc : VarId) (environment : Option ValueId) (chain : ValueId) :
    Work ValueId := do
  let p := (← get).program
  let operands ← demand (p.chainOperands? p.values.size chain)
  match p.helper? MatrixChain.helperName with
  | none => throw (.missingHelper MatrixChain.helperName)
  | some helper =>
    let _ ← demand p.funcs[helper]?
    let type := (p.funcs[helper]?.bind (·.result)).or (p.values[chain]?.bind (·.type))
    let environment ← readEnvironment mpc environment
    let tuple ← onProgram (·.addTuple operands)
    replaceValue chain (.call helper [environment, tuple]) type
    note (.chainReplaced operands.length chain)
    return environment

/-- Replaces the chains of a value and counts them. There are no more of them than the number. What
is marked stays so, for a replacement makes no chains. -/
def replaceChainsAt (mpc : VarId) (root : ValueId) :
    Nat → Marks → Option ValueId → Work (Nat × Option ValueId)
  | 0, _, environment => return (0, environment)
  | n + 1, marks, environment => do
    let p := (← get).program
    match ← demand (p.nextChain? root (p.values.size + 1) (marks.grow p.values.size)) with
    | (none, _) => return (0, environment)
    | (some chain, marks) =>
      let environment ← replaceChain mpc environment chain
      let (count, environment) ← replaceChainsAt mpc root n marks (some environment)
      return (count + 1, environment)

def replaceChains (mpc : VarId) : List ValueId → Option ValueId → Work Nat
  | [], _ => return 0
  | root :: rest, environment => do
    let size := (← get).program.values.size
    let marks : Marks := Array.replicate size false
    let (count, environment) ← replaceChainsAt mpc root (size + 1) marks environment
    return count + (← replaceChains mpc rest environment)

end Work

end SecureArith
