import TwoLevel.SortedSet
import TwoLevel.Text.Number

/-! Rows of truth tables. A row is numbered by its assignment, read as a binary number
whose first variable is the most significant bit. Row numbers are words of 64 bits, so
of an assignment to more variables only the last 64 values are counted. -/

set_option autoImplicit false

namespace TwoLevel

/-- The number of a row of a truth table. -/
abbrev Row := Nat

abbrev RowSet := SortedSet Row

namespace Row

/-- The number of rows of a table over `width` variables. -/
def count (width : Nat) : Nat := 1 <<< width

/-- The assignment of a row over `width` variables, first variable first. -/
def assignment : (width : Nat) → Row → List Bool
  | 0, _ => []
  | width + 1, row => row.testBit width :: assignment width row

@[simp] theorem length_assignment (width : Nat) (row : Row) : (assignment width row).length = width := by
  induction width with
  | zero => rfl
  | succ width ih => simp [assignment, ih]

/-- The binary number whose digits are the values, most significant first. -/
def binaryValue (values : List Bool) : Nat :=
  values.foldl (fun value b => 2 * value + b.toNat) 0

/-- The row of an assignment, kept to 64 bits. -/
def ofAssignment (values : List Bool) : Row := binaryValue values % Text.wordLimit

end Row

end TwoLevel
