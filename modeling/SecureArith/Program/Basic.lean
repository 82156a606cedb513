import SecureArith.Double.Basic
import SecureArith.TypeName

set_option autoImplicit false

/-!
# Programs

A program is a set of tables: values, variables, callees and functions, each entry known by its
index, and the callees that implement operators and helpers. Values refer to each other by index
and are only ever appended, apart from `replaceValue`.
-/

namespace SecureArith

abbrev ValueId := Nat

abbrev VarId := Nat

abbrev FuncId := Nat

inductive ValueKind where
  | int (n : Int)
  | float (x : Double)
  | var (v : VarId)
  | call (func : FuncId) (args : List ValueId)
  | tuple (elements : List ValueId)
  deriving DecidableEq, Repr

structure Value where
  id : ValueId
  /-- Absent for what has no type of its own. -/
  type : Option TypeName
  kind : ValueKind
  deriving DecidableEq, Repr

inductive Instruction where
  | ret (value : ValueId)
  | assign (target : VarId) (value : ValueId)
  | eval (value : ValueId)
  deriving DecidableEq, Repr

namespace Instruction

def value : Instruction → ValueId
  | .ret v | .assign _ v | .eval v => v

def withValue (v : ValueId) : Instruction → Instruction
  | .ret _ => .ret v
  | .assign target _ => .assign target v
  | .eval _ => .eval v

@[simp] theorem value_withValue (i : Instruction) (v : ValueId) : (i.withValue v).value = v := by
  cases i <;> rfl

end Instruction

/-- The transformations that a function asks for. -/
structure Attributes where
  /-- Expressions are minimized. -/
  minimize : Bool := false
  /-- The trees of the function are encoded. -/
  encode : Bool := false
  /-- Chains of matrix multiplications are replaced. -/
  reorderMatmuls : Bool := false
  deriving DecidableEq, Repr

structure Function where
  name : String
  /-- The multiparty environment, which is not among the parameters. -/
  mpc : Option VarId
  params : List VarId
  body : List Instruction
  attributes : Attributes
  deriving DecidableEq, Repr

structure Var where
  name : String
  type : Option TypeName
  deriving DecidableEq, Repr

/-- Something that can be called. Calls without a result type have no type. -/
structure Func where
  name : String
  result : Option TypeName
  deriving DecidableEq, Repr

/-- What an operator is looked up by. -/
structure Signature where
  receiver : TypeName
  operator : String
  operands : List TypeName
  deriving DecidableEq, Repr

structure Program where
  values : Array Value := #[]
  vars : Array Var := #[]
  funcs : Array Func := #[]
  functions : Array Function := #[]
  operators : List (Signature × FuncId) := []
  /-- The last registered helper of a name comes first. -/
  helpers : List (String × FuncId) := []
  deriving DecidableEq, Repr

namespace Value

def operands (v : Value) : List ValueId :=
  match v.kind with
  | .call _ args => args
  | .tuple elements => elements
  | _ => []

def isCall (v : Value) : Bool :=
  match v.kind with
  | .call .. => true
  | _ => false

/-- Two operands and nothing else. -/
def isBinary (v : Value) : Bool :=
  match v.kind with
  | .call _ args => args.length == 2
  | _ => false

end Value

namespace Program

def addVar (p : Program) (name : String) (type : Option TypeName) : VarId × Program :=
  (p.vars.size, { p with vars := p.vars.push ⟨name, type⟩ })

def varNamed? (p : Program) (name : String) : Option VarId :=
  p.vars.findIdx? (·.name == name)

def addFunc (p : Program) (name : String) (result : Option TypeName) : FuncId × Program :=
  (p.funcs.size, { p with funcs := p.funcs.push ⟨name, result⟩ })

def resolve? (p : Program) (s : Signature) : Option FuncId := p.operators.lookup s

/-- A signature has one callee; registering it again changes the result type. -/
def registerOperator (p : Program) (s : Signature) (result : TypeName) : FuncId × Program :=
  match p.resolve? s with
  | some func =>
    (func, { p with funcs := p.funcs.modify func fun f => { f with result := some result } })
  | none =>
    let (func, p) := p.addFunc s.operator (some result)
    (func, { p with operators := (s, func) :: p.operators })

def registerHelper (p : Program) (name : String) (result : Option TypeName) : FuncId × Program :=
  let (func, p) := p.addFunc name result
  (func, { p with helpers := (name, func) :: p.helpers })

def helper? (p : Program) (name : String) : Option FuncId := p.helpers.lookup name

def addFunction (p : Program) (f : Function) : Program :=
  { p with functions := p.functions.push f }

def functionNamed? (p : Program) (name : String) : Option Function :=
  p.functions.find? (·.name == name)

def push (p : Program) (type : Option TypeName) (kind : ValueKind) : ValueId × Program :=
  (p.values.size, { p with values := p.values.push ⟨p.values.size, type, kind⟩ })

def addInt (p : Program) (n : Int) : ValueId × Program := p.push (some .int) (.int n)

def addFloat (p : Program) (x : Double) : ValueId × Program := p.push (some .float) (.float x)

def addRead (p : Program) (v : VarId) : ValueId × Program :=
  p.push (p.vars[v]?.bind (·.type)) (.var v)

def addCall (p : Program) (func : FuncId) (args : List ValueId) : ValueId × Program :=
  p.push (p.funcs[func]?.bind (·.result)) (.call func args)

def addTuple (p : Program) (elements : List ValueId) : ValueId × Program :=
  p.push none (.tuple elements)

def replaceValue (p : Program) (id : ValueId) (kind : ValueKind) (type : Option TypeName) :
    Program :=
  { p with values := p.values.modify id fun v => { v with kind, type } }

/-- A copy of a call with other arguments; what is no call stays as it is. -/
def withArgs (p : Program) (id : ValueId) (args : List ValueId) : ValueId × Program :=
  match p.values[id]? with
  | some ⟨_, type, .call func _⟩ => p.push type (.call func args)
  | _ => (id, p)

end Program

def Function.paramIndex? (f : Function) (v : VarId) : Option Nat := f.params.findIdx? (· == v)

end SecureArith
