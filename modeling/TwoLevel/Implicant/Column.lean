import TwoLevel.Implicant.Bucket
import TwoLevel.Logged
import TwoLevel.Settings

/-! The search for prime implicants, column by column. A column holds implicants of equal
size in buckets, one for each number of asserted variables. The next column holds the
merges of implicants from neighbouring buckets, and the search ends with the first column
that yields none. An implicant is prime if it took part in no merge and covers a row that
matters. -/

set_option autoImplicit false

namespace TwoLevel

/-- Buckets for 0, 1, 2, … asserted variables. -/
abbrev Column := List Bucket

namespace Column

/-- The first column: the given implicants by their numbers of asserted variables. -/
def initial (width : Nat) (base : List Implicant) : Column :=
  let weighted := base.map fun m => (m.weight, m)
  (List.range (width + 1)).map fun weight =>
    Bucket.ofList ((weighted.filter fun (w, _) => w == weight).map (·.2))

/-- The column of all merges. -/
def next (column : Column) : Column := column.zipWith Bucket.merges column.tail

def isEmpty (column : Column) : Bool := column.all List.isEmpty

theorem length_next_lt {column : Column} (nonempty : column.next.isEmpty = false) :
    column.next.length < column.length := by
  cases column with
  | nil => simp [next, isEmpty] at nonempty
  | cons bucket rest => simp [next]

/-- Mark the implicants that take part in a merge, where `below` is the bucket before the
first one. -/
def markFrom (below : Bucket) : Column → Column
  | [] => []
  | bucket :: rest => below.mark bucket (rest.headD []) :: markFrom bucket rest

def mark (column : Column) : Column := column.markFrom []

/-- This column and all columns after it, each with its marks. -/
def passes (column : Column) : List Column :=
  let next := column.next
  if next.isEmpty then [column.mark] else column.mark :: passes next
termination_by column.length
decreasing_by exact length_next_lt (Bool.eq_false_iff.mpr ‹_›)

/-- The prime implicants of a marked column. -/
def primes (column : Column) : List Implicant :=
  column.flatten.filter fun m => !m.combined && !m.dontCare

def events (settings : Settings) (index : Nat) (column : Column) : List Event :=
  (if settings.traceColumns then [.column index column] else []) ++ column.primes.map .primeFound

end Column

/-- All prime implicants of the function that the implicants of single rows in `base` make
up, in the order in which they are found: by column, by bucket, and by place in the bucket. -/
def primeImplicants (width : Nat) (base : List Implicant) : List Implicant :=
  (Column.initial width base).passes.flatMap Column.primes

def searchPrimes {ε : Type} (width : Nat) (base : List Implicant) (settings : Settings) :
    Logged ε (List Implicant) :=
  let columns := (Column.initial width base).passes
  let found := columns.flatMap Column.primes
  ⟨(columns.zipIdx.flatMap fun (column, index) => column.events settings index) ++
      [.searched found.length columns.length], .ok found⟩

theorem outcome_searchPrimes {ε : Type} (width : Nat) (base : List Implicant) (settings : Settings) :
    (searchPrimes (ε := ε) width base settings).outcome = .ok (primeImplicants width base) := rfl

end TwoLevel
