import TwoLevel.Implicant.Basic
import TwoLevel.IndexSet

/-! The log of a minimization, kept as data: what happened, in order. Each event is
written as one or more records, and a reader of the log chooses how severe a record must
be to be shown. -/

set_option autoImplicit false

namespace TwoLevel

inductive Severity where
  | error
  | warn
  | info
  | debug
  | trace
  deriving DecidableEq, Repr

namespace Severity

/-- The most severe level has rank 1. -/
def rank : Severity → Nat
  | error => 1
  | warn => 2
  | info => 3
  | debug => 4
  | trace => 5

def name : Severity → String
  | error => "ERROR"
  | warn => "WARN"
  | info => "INFO"
  | debug => "DEBUG"
  | trace => "TRACE"

end Severity

structure LogRecord where
  severity : Severity
  text : String
  deriving DecidableEq, Repr

inductive Event where
  | noVariables
  | started (minterms dontCares width : Nat)
  /-- A column of implicants after its merges, with its buckets in order. -/
  | column (index : Nat) (buckets : List (List Implicant))
  | primeFound (implicant : Implicant)
  | searched (primes passes : Nat)
  | essentials (patterns : List Pattern)
  | clauses (sets : List IndexSet)
  | products (sets : List IndexSet)
  | completions (choices : List (List Nat))
  | coversFound (count : Nat)
  | form (number : Nat) (patterns : List Pattern)

namespace Event

/-- Sets of indexes with a space between them. -/
def setsText (sets : List IndexSet) : String :=
  " ".intercalate (sets.map fun s => Text.bracketedNumbers s.toList)

def patternsText (patterns : List Pattern) : String := Text.bracketed (patterns.map Pattern.text)

/-- The lines of the buckets of a column: each bucket that holds an implicant, with a rule
under it unless it is the last bucket of the column. -/
def bucketLines : List (List Implicant) → List String
  | [] => []
  | bucket :: rest =>
    bucket.map Implicant.text ++
      (if bucket.isEmpty || rest.isEmpty then [] else ["-------------------------------"]) ++ bucketLines rest

def records : Event → List LogRecord
  | noVariables => [⟨.warn, "Cannot minimize a function of no variables"⟩]
  | started minterms dontCares width =>
    [⟨.debug, s!"Minimizing {minterms} minterms and {dontCares} don't-cares over {width} variables"⟩]
  | column index buckets =>
    ([s!"Column {index}:", "================================="] ++ bucketLines buckets).map (⟨.trace, ·⟩)
  | primeFound implicant => [⟨.trace, "Prime implicant found: " ++ implicant.text⟩]
  | searched primes passes => [⟨.debug, s!"Found {primes} prime implicants in {passes} passes"⟩]
  | essentials patterns => [⟨.debug, "Essential prime implicants: " ++ patternsText patterns⟩]
  | clauses sets => [⟨.trace, "p-function: " ++ setsText sets⟩]
  | products sets => [⟨.trace, "Sum of products after distribution: " ++ setsText sets⟩]
  | completions choices =>
    [⟨.trace, "Smallest completions: " ++ Text.bracketed (choices.map Text.bracketedNumbers)⟩]
  | coversFound count => [⟨.debug, s!"Found {count} minimal covers"⟩]
  | form number patterns => [⟨.debug, s!"Minimal form {number}: " ++ patternsText patterns⟩]

/-- The records of a log that are at least as severe as `threshold`. -/
def shown (threshold : Severity) (events : List Event) : List LogRecord :=
  (events.flatMap records).filter fun record => record.severity.rank ≤ threshold.rank

end Event

end TwoLevel
