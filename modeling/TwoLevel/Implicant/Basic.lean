import TwoLevel.Expr.Basic
import TwoLevel.MinimizeError
import TwoLevel.Pattern
import TwoLevel.Row
import TwoLevel.Text.Listing

/-! Implicants: a product term by its pattern, with the rows it covers. An implicant
also knows whether it covers rows of no interest only, and whether it has been merged
into a larger one. -/

set_option autoImplicit false

namespace TwoLevel

structure Implicant where
  pattern : Pattern
  rows : RowSet
  /-- Every row covered is of no interest. -/
  dontCare : Bool
  /-- The implicant has taken part in a merge. -/
  combined : Bool
  deriving DecidableEq

/-- Two implicants merged, and the two with the mark of the merge. -/
structure Combination where
  merged : Implicant
  first : Implicant
  second : Implicant
  deriving DecidableEq

namespace Implicant

def width (m : Implicant) : Nat := m.pattern.length

def weight (m : Implicant) : Nat := m.pattern.weight

def samePattern (a b : Implicant) : Bool := a.pattern == b.pattern

def covers (m : Implicant) (row : Row) : Bool := decide (row ∈ m.rows)

/-- The implicant of one row of the table over `width` variables. -/
def ofRow (width : Nat) (dontCare : Bool) (row : Row) : Except MinimizeError Implicant :=
  if width < 1 then .error (.tooNarrow width)
  else if row < Row.count width then
    .ok ⟨.ofAssignment (row.assignment width), SortedSet.ofList [row], dontCare, false⟩
  else .error (.rowOutOfRange row width)

/-- The rows of the table have implicants, and nothing else has. -/
theorem ofRow_eq_ok_iff {width : Nat} {dontCare : Bool} {row : Row} {m : Implicant} :
    ofRow width dontCare row = .ok m ↔ 0 < width ∧ row < Row.count width ∧
      m = ⟨.ofAssignment (row.assignment width), SortedSet.ofList [row], dontCare, false⟩ := by
  unfold ofRow
  by_cases narrow : width < 1
  · rw [if_pos narrow]
    exact iff_of_false nofun fun fits => Nat.not_lt_of_le fits.1 narrow
  · rw [if_neg narrow, and_iff_right (Nat.lt_of_not_le (mt Nat.lt_succ_of_le narrow))]
    by_cases small : row < Row.count width
    · rw [if_pos small, and_iff_right small, Except.ok.injEq, eq_comm]
    · rw [if_neg small]
      exact iff_of_false nofun fun fits => small fits.1

def ofPattern (pattern : Pattern) (rows : RowSet) (dontCare : Bool) : Except MinimizeError Implicant :=
  if rows.isEmpty then .error .noRows else .ok ⟨pattern, rows, dontCare, false⟩

/-- The implicant with the given pattern that covers what two implicants cover together. -/
def unite (a b : Implicant) (pattern : Pattern) : Implicant :=
  ⟨pattern, a.rows ∪ b.rows, a.dontCare && b.dontCare, false⟩

/-- The implicant that leaves out the one variable at which two implicants differ. -/
def merge? (a b : Implicant) : Option Implicant := (a.pattern.merge? b.pattern).map (a.unite b)

/-- Merge two implicants over the same variables, and mark both if that succeeds. -/
def combine (a b : Implicant) : Except MinimizeError (Option Combination) :=
  if a.width = b.width then
    .ok ((a.merge? b).map fun merged => ⟨merged, { a with combined := true }, { b with combined := true }⟩)
  else .error (.widthMismatch a.width b.width)

def literal? : Slot → String → Option Expr
  | .negated, name => some (.not (.var name))
  | .asserted, name => some (.var name)
  | .absent, _ => none

/-- The literals of the product term in the order of the variables. A term without
literals is the constant true. -/
def literals (m : Implicant) (names : List String) : Except MinimizeError (List Expr) :=
  if names.length = m.width then
    let found := (m.pattern.zip names).filterMap fun (slot, name) => literal? slot name
    .ok (if found.isEmpty then [.const true] else found)
  else .error (.nameCount names.length m.width)

def toExpr (m : Implicant) (names : List String) : Except MinimizeError Expr :=
  (m.literals names).map (Expr.ofOperands .and)

def text (m : Implicant) : String :=
  m.pattern.text ++ (if m.dontCare then " D" else " .") ++ (if m.combined then " * " else "   ") ++
    Text.bracketedNumbers m.rows.toList

end Implicant

end TwoLevel
