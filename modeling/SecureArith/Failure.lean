import SecureArith.Expr.Node

set_option autoImplicit false

/-!
# Failures

Why work on a program stops. Each constructor is a cause; `message` has the wording. Trees are kept
as their texts, which a later change does not touch.
-/

namespace SecureArith

inductive Failure where
  /-- An index is not in its table. -/
  | outOfRange
  | untypeable (leaf : String)
  | notSum (tree : String)
  | notChild (child root : NodeId)
  | operatorsDiffer (root child : String)
  | noExponent (power : String)
  | exponentTooLarge (exponent : Int) (power : String)
  | exponentNotPositive (exponent : Int) (power : String)
  | exponentNotInteger (power : String)
  | noValue (leaf : NodeId)
  | unfinished (node : NodeId)
  | unknownRecord (id : Int)
  | cyclicRecord (id : Int)
  | invalidIdentity (id : Int)
  | unlinked (operator : String) (receiver : TypeName) (operands : List TypeName)
  | missingHelper (name : String)
  deriving DecidableEq, Repr

namespace Failure

inductive Kind where
  | range
  | type
  | constraint
  | link
  | helper
  deriving DecidableEq, Repr

def kind : Failure → Kind
  | .outOfRange => .range
  | .untypeable _ => .type
  | .unlinked .. => .link
  | .missingHelper _ => .helper
  | _ => .constraint

/-- The largest exponent that is expanded. -/
def maxExponent : Int := 1024

def detail : Failure → String
  | .outOfRange => "index out of range"
  | .untypeable leaf => s!"cannot realize type of leaf {leaf} (leaf is not typeable)"
  | .notSum tree => s!"tried to find factors in non-addition tree {tree}"
  | .notChild child root => s!"#{child} is not a child of #{root}"
  | .operatorsDiffer root child =>
    s!"cannot swap priorities of {root} and {child}: operators differ"
  | .noExponent power => s!"power {power} has no exponent"
  | .exponentTooLarge k power =>
    s!"exponent {k} in {power} exceeds the expansion limit of {maxExponent}"
  | .exponentNotPositive k power => s!"non-positive exponent {k} in {power}"
  | .exponentNotInteger power =>
    s!"non-integer exponent in {power}; exponents must be integer constants"
  | .noValue leaf => s!"leaf #{leaf} has no IR value to emit"
  | .unfinished node => s!"operation #{node} is missing its operator or left operand"
  | .unknownRecord id => s!"encoding references unknown node {id}"
  | .cyclicRecord id => s!"encoding contains a cycle through node {id}"
  | .invalidIdentity id => s!"invalid node identity {id}"
  | .unlinked op receiver types =>
    s!"{op} not found in type {receiver} with arguments (" ++ ", ".intercalate types ++ ")"
  | .missingHelper name => s!"optimization helper {name} is not registered"

def heading : Failure → String
  | .outOfRange => ""
  | .untypeable _ => "Type error: "
  | .unlinked .. | .missingHelper _ => "Link error: "
  | _ => "Constraint error: "

def suggestion : Failure → String
  | .untypeable _ =>
    "\nSuggestion: Make sure every operand of an optimized expression has a resolved type."
  | .missingHelper _ => "\nSuggestion: Register the helper in the module's helper table."
  | _ => ""

def message (f : Failure) : String := f.heading ++ f.detail ++ f.suggestion

end Failure

end SecureArith
