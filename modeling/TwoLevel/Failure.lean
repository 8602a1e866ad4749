import TwoLevel.Definition.Basic

/-! Everything that can go wrong between a text and its minimal forms. -/

set_option autoImplicit false

namespace TwoLevel

/-- Why definitions could not be read from their source. -/
inductive SourceError where
  | notFound
  | invalidText
  deriving DecidableEq, Repr

def SourceError.message : SourceError → String
  | notFound => "No such file or directory (os error 2)"
  | invalidText => "stream did not contain valid UTF-8"

inductive Failure where
  | minimizer (error : MinimizeError)
  | expression (error : Expr.SyntaxError)
  | evaluation (error : EvalError)
  | definition (error : DefinitionError)
  | source (error : SourceError)
  deriving DecidableEq, Repr

def Failure.message : Failure → String
  | minimizer error => error.message
  | expression error => error.message
  | evaluation error => error.message
  | definition error => error.message
  | source error => "IO error: " ++ error.message

end TwoLevel
