import TwoLevel.Text.Quoted
import TwoLevel.Expr.Token

/-! Why a text is no expression. The problem reported is the leftmost one: a place where
no token starts, a token that cannot follow the ones before it, or the end of the text
where something is still missing. -/

set_option autoImplicit false

namespace TwoLevel.Expr

open Text

/-- What could have stood where the problem is. -/
inductive Expected where
  | operand
  /-- An operator, or a closing parenthesis if one is open. -/
  | operator (inParens : Bool)
  | closing
  /-- No single token would do. -/
  | nothing
  deriving DecidableEq, Repr

/-- The expected tokens by name, in alphabetical order of their spellings. -/
def Expected.names : Expected → List String
  | operand => ["\"!\"", "\"(\"", "\"0\"", "\"1\"", "\"false\"", "\"not\"", "\"true\"", "IDENT"]
  | operator inParens =>
    (if inParens then ["\")\""] else []) ++ ["\"*\"", "\"+\"", "\":+:\"", "\"and\"", "\"or\"", "\"xor\""]
  | closing => ["\")\""]
  | nothing => []

/-- Alternatives with commas between them, and the word `or` before the last. -/
def alternatives : List String → String
  | [] => ""
  | [name] => name
  | [first, last] => first ++ " or " ++ last
  | name :: rest => name ++ ", " ++ alternatives rest

/-- A further line that names what was expected, if anything was. -/
def Expected.note (expected : Expected) : String :=
  if expected.names.isEmpty then "" else "\nExpected one of " ++ alternatives expected.names

inductive Problem where
  | invalidToken (position : Nat)
  | unexpectedToken (lexeme : Lexeme) (expected : Expected)
  | unexpectedEnd (position : Nat) (expected : Expected)
  deriving DecidableEq, Repr

def Problem.position : Problem → Nat
  | invalidToken position => position
  | unexpectedToken lexeme _ => lexeme.start
  | unexpectedEnd position _ => position

def Problem.message : Problem → String
  | invalidToken position => s!"Invalid token at {position}"
  | unexpectedToken lexeme expected =>
    s!"Unrecognized token `{String.ofList lexeme.text}` found at {lexeme.start}:{lexeme.stop}" ++ expected.note
  | unexpectedEnd position expected => s!"Unrecognized EOF found at {position}" ++ expected.note

structure SyntaxError where
  input : List Char
  problem : Problem
  deriving DecidableEq, Repr

def SyntaxError.position (error : SyntaxError) : Nat := error.problem.position

def SyntaxError.message (error : SyntaxError) : String :=
  s!"Syntax error at byte {error.position} of " ++ String.ofList (quoted error.input) ++ ": " ++
    error.problem.message

end TwoLevel.Expr
