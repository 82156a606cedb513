set_option autoImplicit false

/-!
# Operators

The operators of expression trees, each with the name that it is called by.
-/

namespace SecureArith

inductive Operator where
  | add
  | sub
  | mul
  | matmul
  | truediv
  | pow
  | other (name : String)
  deriving DecidableEq, Repr

namespace Operator

def name : Operator → String
  | .add => "__add__"
  | .sub => "__sub__"
  | .mul => "__mul__"
  | .matmul => "__matmul__"
  | .truediv => "__truediv__"
  | .pow => "__pow__"
  | .other name => name

def ofName (name : String) : Operator :=
  if name = "__add__" then .add
  else if name = "__sub__" then .sub
  else if name = "__mul__" then .mul
  else if name = "__matmul__" then .matmul
  else if name = "__truediv__" then .truediv
  else if name = "__pow__" then .pow
  else .other name

@[simp] theorem name_ofName (name : String) : (ofName name).name = name := by
  simp only [ofName]
  repeat' split
  all_goals simp_all [Operator.name]

/-- The operands may be exchanged. -/
def commutes : Operator → Bool
  | .add | .mul => true
  | _ => false

end Operator

end SecureArith
