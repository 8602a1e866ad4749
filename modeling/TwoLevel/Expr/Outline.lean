import TwoLevel.Expr.Basic

/-! The outline of an expression: one line for each node, a node before its operands,
and each operand indented two spaces more than its node. -/

set_option autoImplicit false

namespace TwoLevel.Expr

/-- A line of an outline: how deep its node lies, and what the node is. -/
structure OutlineLine where
  depth : Nat
  label : String
  deriving DecidableEq, Repr

/-- The spaces before the label, the label and the end of the line. -/
def OutlineLine.print (line : OutlineLine) : List Char :=
  List.replicate (2 * line.depth) ' ' ++ line.label.toList ++ ['\n']

mutual

/-- The lines of an expression whose root lies at `depth`. -/
def outline (depth : Nat) : Expr → List OutlineLine
  | .const value => [⟨depth, if value then "1" else "0"⟩]
  | .var name => [⟨depth, name⟩]
  | .not e => ⟨depth, notSymbol⟩ :: outline (depth + 1) e
  | .nary op es => ⟨depth, op.symbol⟩ :: outlineAll (depth + 1) es

def outlineAll (depth : Nat) : List Expr → List OutlineLine
  | [] => []
  | e :: es => outline depth e ++ outlineAll depth es

end

theorem outlineAll_eq_flatMap (depth : Nat) (es : List Expr) :
    outlineAll depth es = es.flatMap (outline depth) := by
  induction es with
  | nil => rfl
  | cons e es ih => simp [outlineAll, ih]

def outlineText (e : Expr) : String := String.ofList ((outline 0 e).flatMap OutlineLine.print)

end TwoLevel.Expr
