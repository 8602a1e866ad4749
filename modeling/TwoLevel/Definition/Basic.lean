import TwoLevel.Expr.Parser
import TwoLevel.Minimization
import TwoLevel.Table
import TwoLevel.Text.Number
import TwoLevel.Text.Pieces

/-! Definitions of functions, such as `f(a, b) = [1, 2] | [3]`. A definition names a
function and its variables and gives the rows on which the function is true and, after a
bar, the rows of no interest. Each of the two parts is a list of row numbers or an
expression over the declared variables, which stands for the rows on which it is true. -/

set_option autoImplicit false

namespace TwoLevel

open Text

inductive DefinitionError where
  | equalsSigns
  | tooManyBars
  /-- The text before the equals sign is no name with variables in parentheses. -/
  | header (text : String)
  | brackets (text : String)
  | invalidName (name : String)
  | duplicateVariable (name : String)
  | invalidRow (text : String)
  | undeclared (names : List String)
  | expression (error : Expr.SyntaxError)
  | evaluation (error : EvalError)
  deriving DecidableEq, Repr

namespace DefinitionError

def message : DefinitionError → String
  | equalsSigns => "Malformed function definition: expected exactly one '='"
  | tooManyBars => "Malformed function definition: expected at most one '|'"
  | header text => s!"Malformed function definition: expected 'name(variables)', found '{text}'"
  | brackets text =>
    s!"Malformed function definition: index list '{text}' must be enclosed in '[' and ']'"
  | invalidName name => s!"Invalid name '{name}': names start with a letter followed by letters or digits"
  | duplicateVariable name => s!"Variable '{name}' is declared more than once"
  | invalidRow text => s!"Invalid row index '{text}'"
  | undeclared names => "Expression uses undeclared variables: " ++ ", ".intercalate names
  | expression error => error.message
  | evaluation error => error.message

end DefinitionError

structure Definition where
  name : String
  vars : List String
  minterms : RowSet
  dontCares : RowSet
  deriving DecidableEq

namespace Definition

/-- Fold the names of variables to upper case, after those declared already, the latest
first. A name must be a letter followed by letters and digits, and be new. -/
def declare (declared : List String) : List (List Char) → Except DefinitionError (List String)
  | [] => .ok declared.reverse
  | word :: rest =>
    if isName word then
      let name := String.ofList (upper word)
      if declared.contains name then .error (.duplicateVariable name) else declare (name :: declared) rest
    else .error (.invalidName (String.ofList word))

/-- The parts of a header: the text before the first opening parenthesis, and the text
between it and a closing parenthesis at the end. -/
def splitHeader? (header : List Char) : Option (List Char × List Char) :=
  match header.dropWhile (· ≠ '(') with
  | [] => none
  | _ :: rest =>
    match dropLast? ')' rest with
    | none => none
    | some inner =>
      if inner.contains '(' || inner.contains ')' then none
      else some (header.takeWhile (· ≠ '('), inner)

def readHeader (header : List Char) : Except DefinitionError (String × List String) :=
  match splitHeader? header with
  | none => .error (.header (String.ofList header))
  | some (before, inner) =>
    if isName (trim before) then
      (declare [] ((pieces ',' inner).map trim)).map fun vars => (String.ofList (trim before), vars)
    else .error (.invalidName (String.ofList (trim before)))

def readNumbers : List (List Char) → Except DefinitionError (List Row)
  | [] => .ok []
  | word :: rest =>
    match readNumber? word with
    | none => .error (.invalidRow (String.ofList word))
    | some row => (readNumbers rest).map (row :: ·)

/-- The text between the brackets of a list of rows, which holds no brackets itself. -/
def insideBrackets? : List Char → Option (List Char)
  | '[' :: rest =>
    match dropLast? ']' rest with
    | none => none
    | some inner => if inner.contains '[' || inner.contains ']' then none else some inner
  | _ => none

def readList (part : List Char) : Except DefinitionError RowSet :=
  match insideBrackets? part with
  | none => .error (.brackets (String.ofList part))
  | some inner =>
    if (trim inner).isEmpty then .ok ∅
    else (readNumbers ((pieces ',' inner).map trim)).map SortedSet.ofList

/-- The rows over the declared variables on which an expression is true. -/
def rowsOf (vars : List String) (e : Expr) : Except DefinitionError RowSet :=
  let missing := e.vars.filter fun name => !vars.contains name
  if missing.isEmpty then (Table.minterms vars e).mapError .evaluation
  else .error (.undeclared missing)

/-- Read one part: a list of rows if it starts with a bracket, and else an expression. -/
def readPart (vars : List String) (part : List Char) : Except DefinitionError RowSet :=
  if part.head? = some '[' then readList part
  else
    match Expr.parse part with
    | .error error => .error (.expression error)
    | .ok e => rowsOf vars e

/-- Read the parts after the equals sign: the minterms, and the rows of no interest if
they are given. -/
def readParts (vars : List String) (parts : List (List Char)) :
    Except DefinitionError (RowSet × RowSet) :=
  match parts with
  | [first] => (readPart vars first).map (·, ∅)
  | [first, second] =>
    match readPart vars first with
    | .error error => .error error
    | .ok minterms => (readPart vars second).map (minterms, ·)
  | _ => .error .tooManyBars

def parse (line : List Char) : Except DefinitionError Definition :=
  match pieces '=' line with
  | [header, body] =>
    match readHeader (trim header) with
    | .error error => .error error
    | .ok (name, vars) =>
      (readParts vars ((pieces '|' body).map trim)).map fun (minterms, dontCares) =>
        ⟨name, vars, minterms, dontCares⟩
  | _ => .error .equalsSigns

def ofString (line : String) : Except DefinitionError Definition := parse line.toList

/-- The definition with its rows as lists of numbers. The rows of no interest are written
only if there are any. -/
def text (d : Definition) : String :=
  d.name ++ "(" ++ commaSeparated d.vars ++ ") = " ++ bracketedNumbers d.minterms.toList ++
    (if d.dontCares.isEmpty then "" else " | " ++ bracketedNumbers d.dontCares.toList)

def minimize (d : Definition) (settings : Settings) : Logged MinimizeError Minimization :=
  Minimization.run d.minterms d.dontCares d.vars settings

end Definition

end TwoLevel
