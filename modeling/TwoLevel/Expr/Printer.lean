import TwoLevel.Expr.Basic

/-! Infix text of an expression. Operators are words with a space on either side, and
parentheses stand only around an operand that binds looser than the operator above it
and around an operator under NOT. -/

set_option autoImplicit false

namespace TwoLevel.Expr

/-- Where a subexpression stands in the text. -/
inductive Place where
  | top
  | operandOf (op : Op)
  | negated
  deriving DecidableEq

/-- An operator node in this place is written in parentheses. -/
def Place.encloses : Place → Op → Bool
  | top, _ => false
  | operandOf parent, op => op.strength < parent.strength
  | negated, _ => true

/-- The operator between two operands, with its spaces. -/
def separator (op : Op) : List Char := [' '] ++ op.symbol.toList ++ [' ']

def enclose (needed : Bool) (text : List Char) : List Char :=
  if needed then ['('] ++ text ++ [')'] else text

def printConst (value : Bool) : List Char := if value then "true".toList else "false".toList

mutual

/-- The text of an expression in a given place. -/
def print (place : Place) : Expr → List Char
  | .const value => printConst value
  | .var name => name.toList
  | .not e => notSymbol.toList ++ [' '] ++ print .negated e
  | .nary op es => enclose (place.encloses op) ((separator op).intercalate (printAll (.operandOf op) es))

def printAll (place : Place) : List Expr → List (List Char)
  | [] => []
  | e :: es => print place e :: printAll place es

end

theorem printAll_eq_map (place : Place) (es : List Expr) : printAll place es = es.map (print place) := by
  induction es with
  | nil => rfl
  | cons e es ih => simp [printAll, ih]

def text (e : Expr) : String := String.ofList (print .top e)

end TwoLevel.Expr
