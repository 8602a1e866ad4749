import TwoLevel.Expr.Value

/-! Evaluation when only some variables may have a value. Operands are taken from left
to right, and AND and OR stop at the first operand that settles the result, so a
variable without a value is reported only when it is reached. -/

set_option autoImplicit false

namespace TwoLevel

/-- Why an expression has no value, or a table cannot be made. -/
inductive EvalError where
  | valueCount (expected found : Nat)
  | unknownVariable (name : String)
  | tooManyVariables (count limit : Nat)
  deriving DecidableEq, Repr

namespace EvalError

def message : EvalError → String
  | valueCount expected found => s!"Wrong number of values: expected {expected}, found {found}"
  | unknownVariable name => s!"Variable '{name}' has no assigned value"
  | tooManyVariables count limit =>
    s!"Cannot enumerate a truth table over {count} variables (maximum is {limit})"

end EvalError

/-- The value alone decides the result of the operator, whatever the other operands are. -/
def Op.settledBy : Op → Bool → Bool
  | and, value => !value
  | or, value => value
  | xor, _ => false

namespace Expr

mutual

/-- Evaluate with the values that `lookup` knows. -/
def eval (lookup : String → Option Bool) : Expr → Except EvalError Bool
  | .const value => .ok value
  | .var name =>
    match lookup name with
    | some value => .ok value
    | none => .error (.unknownVariable name)
  | .not e => (eval lookup e).map (!·)
  | .nary op es => evalOperands lookup op op.identity es

/-- Evaluate operands from left to right, where `sofar` is the result of those before them. -/
def evalOperands (lookup : String → Option Bool) (op : Op) (sofar : Bool) :
    List Expr → Except EvalError Bool
  | [] => .ok sofar
  | e :: es =>
    match eval lookup e with
    | .error error => .error error
    | .ok value =>
      let result := op.apply sofar value
      if op.settledBy result then .ok result else evalOperands lookup op result es

end

/-- The value of a name in a list of variables with their values. The last variable of
that name counts. -/
def lookupIn : List String → List Bool → String → Option Bool
  | name :: names, value :: values, x =>
    match lookupIn names values x with
    | some found => some found
    | none => if name = x then some value else none
  | _, _, _ => none

def evalAt (names : List String) (values : List Bool) (e : Expr) : Except EvalError Bool :=
  if values.length = names.length then e.eval (lookupIn names values)
  else .error (.valueCount names.length values.length)

end Expr

end TwoLevel
