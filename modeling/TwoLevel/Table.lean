import TwoLevel.Row
import TwoLevel.Expr.Eval

/-! Truth tables: walking through all assignments in the order of their rows, the rows
where an expression has a given value, and equivalence of expressions. A table is made
for at most `Table.limit` variables. -/

set_option autoImplicit false

namespace TwoLevel

/-- A walk through the assignments to `width` variables that has come to row `next`. -/
structure Assignments where
  width : Nat
  next : Row
  deriving DecidableEq, Repr

namespace Table

def limit : Nat := 24

def rows (width : Nat) : Except EvalError (List Row) :=
  if width ≤ limit then .ok (List.range (Row.count width)) else .error (.tooManyVariables width limit)

/-- Collect the rows on which a test succeeds, in the order of the list, after those kept
already, the latest first. The first failure of the test is the outcome. -/
def select (test : Row → Except EvalError Bool) (kept : List Row) : List Row → Except EvalError (List Row)
  | [] => .ok kept.reverse
  | row :: rest =>
    match test row with
    | .error error => .error error
    | .ok keep => select test (if keep then row :: kept else kept) rest

def valueAt (names : List String) (e : Expr) (row : Row) : Except EvalError Bool :=
  e.evalAt names (row.assignment names.length)

/-- The rows over `names` on which the expression has the given value, in ascending order. -/
def rowsWhere (names : List String) (e : Expr) (expected : Bool) : Except EvalError (List Row) :=
  match rows names.length with
  | .error error => .error error
  | .ok all => select (fun row => (valueAt names e row).map (· == expected)) [] all

/-- The assignments to `names` under which the expression has the given value, in the
order of the table. -/
def assignmentsWhere (names : List String) (e : Expr) (expected : Bool) :
    Except EvalError (List (List Bool)) :=
  (rowsWhere names e expected).map fun found => found.map (Row.assignment names.length)

def minterms (names : List String) (e : Expr) : Except EvalError RowSet :=
  (rowsWhere names e true).map SortedSet.ofList

def maxterms (names : List String) (e : Expr) : Except EvalError RowSet :=
  (rowsWhere names e false).map SortedSet.ofList

/-- Two expressions have the same value on every one of the rows. -/
def agreeOn (names : List String) (a b : Expr) : List Row → Except EvalError Bool
  | [] => .ok true
  | row :: rest =>
    match valueAt names a row, valueAt names b row with
    | .error error, _ => .error error
    | _, .error error => .error error
    | .ok x, .ok y => if x = y then agreeOn names a b rest else .ok false

end Table

namespace Assignments

def start (width : Nat) : Except EvalError Assignments :=
  if width ≤ Table.limit then .ok ⟨width, 0⟩ else .error (.tooManyVariables width Table.limit)

def remaining (walk : Assignments) : Nat := Row.count walk.width - walk.next

def next? (walk : Assignments) : Option (List Bool × Assignments) :=
  if walk.next < Row.count walk.width then
    some (walk.next.assignment walk.width, { walk with next := walk.next + 1 })
  else none

end Assignments

namespace Expr

/-- The names that occur in either expression, in ascending order. -/
def jointVariables (a b : Expr) : List String :=
  (SortedSet.ofList (a.occurrences ++ b.occurrences)).toList

def equivalent (a b : Expr) : Except EvalError Bool :=
  match Table.rows (a.jointVariables b).length with
  | .error error => .error error
  | .ok all => Table.agreeOn (a.jointVariables b) a b all

end Expr

end TwoLevel
