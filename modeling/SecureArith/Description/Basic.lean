import SecureArith.Program.Basic

set_option autoImplicit false

/-!
# Program descriptions

A description names what a program refers to by index: its variables, operators, helpers, and
functions whose bodies are nested expressions.
-/

namespace SecureArith

namespace Description

inductive Expr where
  | int (n : Int)
  | float (x : Double)
  | var (name : String)
  | call (callee : String) (args : List Expr)
  deriving Inhabited

inductive Statement where
  | ret (value : Expr)
  | assign (target : String) (value : Expr)
  | eval (value : Expr)
  deriving Inhabited

structure VarDecl where
  name : String
  type : Option TypeName

structure OperatorDecl where
  receiver : TypeName
  operator : String
  operands : List TypeName
  result : TypeName

structure HelperDecl where
  name : String
  result : Option TypeName

structure FunctionDecl where
  name : String
  mpc : Option String
  params : List String
  attributes : Attributes
  body : List Statement

/-- Why a description is no program. -/
inductive Error where
  | duplicate (name : String)
  | undeclared (name function : String)
  deriving DecidableEq, Repr

def Error.message : Error → String
  | .duplicate name => s!"Invalid module: variable {name} declared twice"
  | .undeclared name function =>
    s!"Invalid module: undeclared variable {name} in function {function}"

end Description

structure Description where
  vars : List Description.VarDecl := []
  operators : List Description.OperatorDecl := []
  helpers : List Description.HelperDecl := []
  functions : List Description.FunctionDecl := []

end SecureArith
