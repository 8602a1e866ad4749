/-! Why a minimization, or an operation on implicants, cannot be carried out. -/

set_option autoImplicit false

namespace TwoLevel

inductive MinimizeError where
  /-- An implicant needs at least one variable. -/
  | tooNarrow (width : Nat)
  | rowOutOfRange (row width : Nat)
  /-- An implicant must cover at least one row. -/
  | noRows
  | notASlot (c : Char)
  /-- The list of names does not fit the number of variables. -/
  | nameCount (given width : Nat)
  /-- A row is both true and of no interest. -/
  | overlap (row : Nat)
  | widthMismatch (expected found : Nat)
  | uncovered (minterm : Nat)
  /-- There is no result, because there are no variables. -/
  | notReady
  | coverLimit (limit : Nat)
  deriving DecidableEq, Repr

namespace MinimizeError

def message : MinimizeError → String
  | tooNarrow width => s!"Invalid argument: mask width must be at least 1, got {width}"
  | rowOutOfRange row width => s!"Invalid argument: row index {row} is out of range for {width} variables"
  | noRows => "Invalid argument: a mask must cover at least one row"
  | notASlot c =>
    "Invalid argument: '" ++ c.toString ++ "' is not a pattern character (expected 0, 1 or -)"
  | nameCount given width =>
    s!"Invalid argument: {given} variable names given for a mask of width {width}"
  | overlap row => s!"Invalid argument: row {row} is both a minterm and a don't-care"
  | widthMismatch expected found =>
    s!"Cannot combine masks of different widths: expected {expected}, found {found}"
  | uncovered minterm =>
    s!"Minimizer invariant violated: minterm {minterm} is not covered by any prime implicant"
  | notReady => "Minimization produced no result (the variable list was empty)"
  | coverLimit limit => s!"Petrick's method exceeded the limit of {limit} candidate covers"

end MinimizeError

end TwoLevel
