import TwoLevel.Failure
import TwoLevel.Text.Lines

/-! Reading a list of definitions, one on each line. Blank lines are skipped. A line that
is no definition is kept with its error and does not change the reading of the others;
only bytes that encode no text make the whole list unreadable. -/

set_option autoImplicit false

namespace TwoLevel.Definition

open Text

/-- A line that is not blank: its number, and what it defines. -/
structure Entry where
  line : Nat
  definition : Except DefinitionError Definition

def readTexts : List (List UInt8) → Except SourceError (List (List Char))
  | [] => .ok []
  | bytes :: rest =>
    match decode? bytes with
    | none => .error .invalidText
    | some text => (readTexts rest).map (text :: ·)

/-- The entries of the lines, of which the first has the given number. -/
def entriesFrom (number : Nat) : List (List Char) → List Entry
  | [] => []
  | text :: rest =>
    if (trim text).isEmpty then entriesFrom (number + 1) rest
    else ⟨number, parse text⟩ :: entriesFrom (number + 1) rest

/-- Read all definitions of the input. Lines are numbered from 1. -/
def readAll (input : List UInt8) : Except SourceError (List Entry) :=
  (readTexts (lines input)).map (entriesFrom 1)

end TwoLevel.Definition
