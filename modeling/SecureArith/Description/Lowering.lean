import SecureArith.Description.Format

set_option autoImplicit false

/-!
# Programs of descriptions

Expressions become values, arguments before their call. A call goes to the operator registered for
the types of its arguments, else to the last helper of its name, else to a callee without result
type that all such calls share. Assigning to a name that is not declared declares it, for all that
follows, with the type of the assigned value.
-/

namespace SecureArith.Description

structure Lowering where
  program : Program := {}
  /-- The callees that no operator or helper is known for. -/
  unknown : List (String × FuncId) := []

abbrev Lower := StateT Lowering (Except Error)

namespace Lower

variable {α : Type}

def extend (f : Program → α × Program) : Lower α := fun ⟨program, unknown⟩ =>
  let (a, program) := f program
  .ok (a, ⟨program, unknown⟩)

def declared (name function : String) : Lower VarId := do
  match (← get).program.varNamed? name with
  | some v => return v
  | none => throw (.undeclared name function)

def types? (p : Program) (args : List ValueId) : Option (List TypeName) :=
  args.mapM fun a => p.values[a]?.bind (·.type)

def operator? (p : Program) (name : String) (args : List ValueId) : Option FuncId :=
  match types? p args with
  | some (receiver :: rest) => p.resolve? ⟨receiver, name, receiver :: rest⟩
  | _ => none

def callee (name : String) (args : List ValueId) : Lower FuncId := do
  let s ← get
  let known := (operator? s.program name args).or (s.program.helper? name)
  match known.or (s.unknown.lookup name) with
  | some func => return func
  | none =>
    let func ← extend (·.addFunc name none)
    modify fun s => { s with unknown := (name, func) :: s.unknown }
    return func

def call (name : String) (args : List ValueId) : Lower ValueId := do
  let func ← callee name args
  extend (·.addCall func args)

mutual

def expr (function : String) : Expr → Lower ValueId
  | .int n => extend (·.addInt n)
  | .float x => extend (·.addFloat x)
  | .var name => do
    let v ← declared name function
    extend (·.addRead v)
  | .call name args => do call name (← exprs function args)

def exprs (function : String) : List Expr → Lower (List ValueId)
  | [] => return []
  | e :: rest => do
    let v ← expr function e
    return v :: (← exprs function rest)

end

def target (name : String) (value : ValueId) : Lower VarId := do
  let p := (← get).program
  let type := p.values[value]?.bind (·.type)
  match p.varNamed? name with
  | some v => return v
  | none => extend (·.addVar name type)

def statement (function : String) : Statement → Lower Instruction
  | .ret e => return .ret (← expr function e)
  | .assign name e => do
    let value ← expr function e
    return .assign (← target name value) value
  | .eval e => return .eval (← expr function e)

def function (d : FunctionDecl) : Lower Unit := do
  let mpc ← d.mpc.mapM (declared · d.name)
  let params ← d.params.mapM (declared · d.name)
  let body ← d.body.mapM (statement d.name)
  extend fun p => ((), p.addFunction ⟨d.name, mpc, params, body, d.attributes⟩)

def var (d : VarDecl) : Lower Unit := do
  if ((← get).program.varNamed? d.name).isSome then throw (.duplicate d.name)
  let _ ← extend (·.addVar d.name d.type)

def operator (d : OperatorDecl) : Lower Unit := do
  let _ ← extend (·.registerOperator ⟨d.receiver, d.operator, d.operands⟩ d.result)

def helper (d : HelperDecl) : Lower Unit := do
  let _ ← extend (·.registerHelper d.name d.result)

def description (d : Description) : Lower Unit := do
  d.vars.forM var
  d.operators.forM operator
  d.helpers.forM helper
  d.functions.forM function

end Lower

def lower (d : Description) : Except Error Program :=
  (Lower.description d |>.run {}).map (·.2.program)

end SecureArith.Description

namespace SecureArith

/-- Why a text is no program. -/
inductive ProgramError where
  | unreadable
  | invalid (cause : Description.Error)
  deriving DecidableEq, Repr

/-- The stage that a text did not get through. -/
def ProgramError.stage : ProgramError → String
  | .unreadable => "Failed to parse module description"
  | .invalid _ => "Failed to lower module description"

def Program.ofText (text : String) : Except ProgramError Program :=
  match Description.decode.ofText text with
  | none => .error .unreadable
  | some d => d.lower.mapError .invalid

end SecureArith
