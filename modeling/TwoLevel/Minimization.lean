import TwoLevel.Cover
import TwoLevel.Expr.Printer
import TwoLevel.Implicant.Column

/-! Exact minimization of a Boolean function that is given by its rows: the minterms,
on which it is true, and the rows of no interest. The result lists all prime implicants
and all sums of products with the fewest terms. -/

set_option autoImplicit false

namespace TwoLevel

/-- A sum of products with the fewest terms. -/
structure MinimalForm where
  products : List Implicant
  deriving DecidableEq

namespace MinimalForm

def size (form : MinimalForm) : Nat := form.products.length

/-- The form of a function that is never true. -/
def isEmpty (form : MinimalForm) : Bool := form.products.isEmpty

def patterns (form : MinimalForm) : List Pattern := form.products.map (·.pattern)

def literalCount (form : MinimalForm) : Nat := Pattern.literalCount form.patterns.flatten

def text (form : MinimalForm) : String := Text.bracketed (form.patterns.map Pattern.text)

/-- The sum of products over the given names. A single product stands for itself, and the
empty form is the constant false. -/
def toExpr (form : MinimalForm) (names : List String) : Except MinimizeError Expr :=
  (form.products.mapM fun m : Implicant => m.toExpr names).map (Expr.ofOperands .or)

end MinimalForm

structure Outcome where
  primes : List Implicant
  forms : List MinimalForm
  deriving DecidableEq

/-- A Boolean function over named variables with its minimal forms. A function without
variables has no outcome. -/
structure Minimization where
  vars : List String
  minterms : RowSet
  dontCares : RowSet
  outcome? : Option Outcome
  deriving DecidableEq

namespace Minimization

/-- The implicants of single rows: those that must be covered, then those that may be. -/
def base (width : Nat) (minterms dontCares : RowSet) : Except MinimizeError (List Implicant) := do
  let required ← minterms.toList.mapM (Implicant.ofRow width false)
  let optional ← dontCares.toList.mapM (Implicant.ofRow width true)
  return required ++ optional

/-- The forms that the positions of their products in the list of primes stand for. -/
def formsOf (primes : List Implicant) (covers : List (List Nat)) : List MinimalForm :=
  let table := primes.toArray
  covers.map fun cover => ⟨cover.filterMap (table[·]?)⟩

/-- Search for the prime implicants and for the smallest covers over `width` variables. -/
def search (width : Nat) (minterms dontCares : RowSet) (settings : Settings) :
    Logged MinimizeError Outcome := do
  .log [.started minterms.size dontCares.size width]
  let rows ← .ofExcept (base width minterms dontCares)
  let primes ← searchPrimes width rows settings
  let covers ← Cover.select primes minterms.toList settings
  let forms := formsOf primes covers
  .log (forms.zipIdx.map fun (form, i) => .form (i + 1) form.patterns)
  return ⟨primes, forms⟩

/-- Minimize a function. Its minterms and the rows of no interest must be disjoint and in
the range of its variables. -/
def run (minterms dontCares : RowSet) (vars : List String) (settings : Settings) :
    Logged MinimizeError Minimization :=
  if vars.isEmpty then
    ⟨[.noVariables], .ok ⟨vars, minterms, dontCares, none⟩⟩
  else
    match minterms.common dontCares with
    | row :: _ => .ofExcept (.error (.overlap row))
    | [] => do
      let outcome ← search vars.length minterms dontCares settings
      return ⟨vars, minterms, dontCares, some outcome⟩

def isReady (m : Minimization) : Bool := m.outcome?.isSome

def outcome (m : Minimization) : Except MinimizeError Outcome :=
  match m.outcome? with
  | some found => .ok found
  | none => .error .notReady

/-- All prime implicants, in the order in which they were found. -/
def primes (m : Minimization) : Except MinimizeError (List Implicant) := m.outcome.map (·.primes)

def forms (m : Minimization) : Except MinimizeError (List MinimalForm) := m.outcome.map (·.forms)

def expressions (m : Minimization) : Except MinimizeError (List Expr) :=
  match m.forms with
  | .error error => .error error
  | .ok found =>
    if found.any MinimalForm.isEmpty then .ok [.const false] else found.mapM fun form => form.toExpr m.vars

def texts (m : Minimization) : Except MinimizeError (List String) :=
  m.expressions.map fun found => found.map Expr.text

end Minimization

end TwoLevel
