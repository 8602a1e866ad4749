import TwoLevel.Failure

/-! Minimization of an expression over its own variables. -/

set_option autoImplicit false

namespace TwoLevel.Expr

/-- All smallest sums of products with the value of the expression. An expression without
variables is its constant value. -/
def minimalForms (e : Expr) (settings : Settings) : Logged Failure (List Expr) :=
  if e.vars.isEmpty then
    .ofExcept (((e.eval fun _ => none).map fun value => [.const value]).mapError .evaluation)
  else do
    let minterms ← .ofExcept ((Table.minterms e.vars e).mapError .evaluation)
    let found ← (Minimization.run minterms ∅ e.vars settings).mapError .minimizer
    .ofExcept (found.expressions.mapError .minimizer)

def minimize (e : Expr) (settings : Settings) : Logged Failure Expr := do
  let forms ← e.minimalForms settings
  return forms.headD (.const false)

end TwoLevel.Expr
