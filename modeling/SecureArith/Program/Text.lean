import SecureArith.Program.Basic
import SecureArith.Double.Text

set_option autoImplicit false

/-!
# Programs as text

A value is written as an expression in brackets with the callee first and names for variables.
There is no text where an index is not in its table.
-/

namespace SecureArith

def floatText (x : Double) : String := String.ofList (x.text .expression)

namespace Program

def varName? (p : Program) (v : VarId) : Option String := p.vars[v]?.map (·.name)

def funcName? (p : Program) (f : FuncId) : Option String := p.funcs[f]?.map (·.name)

/-- The first number bounds the depth. -/
def renderTo? (p : Program) : Nat → ValueId → Option String
  | 0, _ => none
  | depth + 1, id => do
    match (← p.values[id]?).kind with
    | .int n => return toString n
    | .float x => return floatText x
    | .var v => p.varName? v
    | .call f args =>
      let name ← p.funcName? f
      let texts ← args.mapM (p.renderTo? depth)
      return "(" ++ " ".intercalate (name :: texts) ++ ")"
    | .tuple elements =>
      let texts ← elements.mapM (p.renderTo? depth)
      return "(tuple " ++ " ".intercalate texts ++ ")"

/-- The text of a value. A table without cycles is no deeper than it is long. -/
def render? (p : Program) (id : ValueId) : Option String := p.renderTo? p.values.size id

def instructionText? (p : Program) : Instruction → Option String
  | .ret v => (p.render? v).map ("return " ++ ·)
  | .assign target v => do
    let name ← p.varName? target
    return name ++ " = " ++ (← p.render? v)
  | .eval v => p.render? v

/-- A call with arguments of a callee of this name. -/
def isCallOf? (p : Program) (id : ValueId) (name : String) : Option Bool := do
  match (← p.values[id]?).kind with
  | .call f (_ :: _) => return (← p.funcName? f) == name
  | _ => return false

end Program

end SecureArith
