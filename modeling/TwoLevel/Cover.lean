import Std.Data.HashMap
import TwoLevel.Distinct
import TwoLevel.Logged
import TwoLevel.Settings

/-! The smallest covers of a set of rows by implicants. An implicant is essential if it
alone covers some row. Each row that the essential implicants leave uncovered gives a
clause, the set of implicants that cover it. Choosing one implicant for each clause gives
the products, and the products with the fewest implicants complete the covers. -/

set_option autoImplicit false

namespace TwoLevel.Cover

/-- The positions of the implicants that cover a row, in ascending order. -/
def coverers (implicants : List Implicant) (row : Row) : List Nat :=
  (implicants.zipIdx.filter fun (m, _) => m.covers row).map (·.2)

/-- Put an implicant before those that cover one of its rows. -/
def index (table : Std.HashMap Row (List Nat)) (entry : Implicant × Nat) : Std.HashMap Row (List Nat) :=
  entry.1.rows.toList.foldl (fun table row => table.insert row (entry.2 :: table.getD row [])) table

/-- The coverers of every row that is covered at all. -/
def coverage (implicants : List Implicant) : Std.HashMap Row (List Nat) :=
  implicants.zipIdx.foldr (fun entry table => index table entry) ∅

theorem getD_foldl_insert (i : Nat) (rows : List Row) (nodup : rows.Nodup) (table : Std.HashMap Row (List Nat))
    (row : Row) :
    (rows.foldl (fun table row => table.insert row (i :: table.getD row [])) table).getD row [] =
      if row ∈ rows then i :: table.getD row [] else table.getD row [] := by
  induction rows generalizing table with
  | nil => rfl
  | cons first rest ih =>
    obtain ⟨new, restNodup⟩ := List.nodup_cons.mp nodup
    rw [List.foldl_cons, ih restNodup, Std.HashMap.getD_insert]
    by_cases same : first = row
    · subst same
      simp [new]
    · have other : ¬row = first := fun equal => same equal.symm
      simp [same, other]

theorem getD_coverage (implicants : List Implicant) (row : Row) :
    (coverage implicants).getD row [] = coverers implicants row := by
  rw [coverage, coverers]
  induction implicants.zipIdx with
  | nil => exact Std.HashMap.getD_empty
  | cons entry rest ih =>
    have nodup : entry.1.rows.toList.Nodup := entry.1.rows.ascending.imp Nat.ne_of_lt
    rw [List.foldr_cons, index, getD_foldl_insert _ _ nodup, ih, List.filter_cons]
    simp only [Implicant.covers, SortedSet.mem_def, decide_eq_true_eq]
    split <;> rfl

section

variable (covering : Row → List Nat)

/-- The position of the only implicant that covers a row. -/
def soleCoverer? (row : Row) : Option Nat :=
  match covering row with
  | [only] => some only
  | _ => none

/-- The essential implicants, in the order of the first row that each alone covers. -/
def essentials (minterms : List Row) : List Nat :=
  distinctOn id (minterms.filterMap (soleCoverer? covering))

/-- The rows that no chosen implicant covers. -/
def uncovered (chosen : IndexSet) (minterms : List Row) : List Row :=
  minterms.filter fun row => !(covering row).any chosen.contains

/-- The clause of each row. A row that nothing covers has none. -/
def clauses : List Row → Except MinimizeError (List IndexSet)
  | [] => .ok []
  | row :: rest =>
    match covering row with
    | [] => .error (.uncovered row)
    | found => (clauses rest).map (IndexSet.ofList found :: ·)

end

abbrev Products := Distinct (id : IndexSet → IndexSet)

/-- The limit, if a number of products lies above it. -/
def exceeded? (limit : Option Nat) (count : Nat) : Option Nat := limit.filter (· < count)

/-- Add one implicant of a clause to each product, in every way, and put the results to
those made already. The first product that takes them over the limit ends it. -/
def extendFrom (limit : Option Nat) (clause : List Nat) (made : Products) :
    List IndexSet → Except MinimizeError (List IndexSet)
  | [] => .ok made.toList
  | product :: rest =>
    let more := made.addAll (clause.map product.insert)
    match exceeded? limit more.size with
    | some bound => .error (.coverLimit bound)
    | none => extendFrom limit clause more rest

theorem exceeded?_mono {limit : Option Nat} {small large bound : Nat}
    (exceeded : exceeded? limit small = some bound) (le : small ≤ large) :
    exceeded? limit large = some bound := by
  obtain ⟨given, more⟩ := Option.filter_eq_some_iff.mp exceeded
  have below : bound < small := of_decide_eq_true more
  exact Option.filter_eq_some_iff.mpr ⟨given, decide_eq_true (Nat.lt_of_lt_of_le below le)⟩

/-- It makes no difference that the limit is looked at after each product and not only at
the end. -/
theorem extendFrom_eq {limit : Option Nat} {clause : List Nat} {made : Products} (products : List IndexSet)
    (within : exceeded? limit made.size = none) :
    extendFrom limit clause made products =
      match exceeded? limit (made.addAll (products.flatMap fun product => clause.map product.insert)).size with
      | some bound => .error (.coverLimit bound)
      | none => .ok (made.addAll (products.flatMap fun product => clause.map product.insert)).toList := by
  induction products generalizing made with
  | nil =>
    have same : made.addAll (([] : List IndexSet).flatMap fun product => clause.map product.insert) = made := rfl
    rw [same, within, extendFrom]
  | cons product rest ih =>
    rw [List.flatMap_cons, Distinct.addAll_append, extendFrom]
    cases found : exceeded? limit (made.addAll (clause.map product.insert)).size with
    | none => exact ih found
    | some bound => rw [exceeded?_mono found (Distinct.size_le_size_addAll _ _)]

/-- Take up clauses one after the other. No step may yield more products than the limit. -/
def distribute (limit : Option Nat) (products : List IndexSet) :
    List IndexSet → Except MinimizeError (List IndexSet)
  | [] => .ok products
  | clause :: rest =>
    match extendFrom limit clause.toList .empty products with
    | .error error => .error error
    | .ok next => distribute limit next rest

/-- The lexicographic order. -/
def lexLe : List Nat → List Nat → Bool
  | [], _ => true
  | _ :: _, [] => false
  | a :: l, b :: m => a < b || (a == b && lexLe l m)

/-- The smallest products, each in ascending order, and all in lexicographic order. -/
def smallest (products : List IndexSet) : List (List Nat) :=
  let choices := products.map IndexSet.toList
  match (choices.map List.length).min? with
  | none => []
  | some size => (choices.filter fun choice => choice.length == size).mergeSort lexLe

/-- All covers of the rows with the fewest implicants, by their positions: first the
essential implicants, then what completes them. -/
def select (implicants : List Implicant) (minterms : List Row) (settings : Settings) :
    Logged MinimizeError (List (List Nat)) := do
  let table := coverage implicants
  let covering := fun row => table.getD row []
  let chosen := essentials covering minterms
  .log [.essentials (chosen.filterMap fun i => implicants[i]?.map (·.pattern))]
  let rest := uncovered covering (IndexSet.ofList chosen) minterms
  if rest.isEmpty then return [chosen]
  let sets ← .ofExcept (clauses covering rest)
  .log [.clauses sets]
  let products ← .ofExcept (distribute settings.coverLimit [∅] sets)
  let completions := smallest products
  .log [.products products, .completions completions, .coversFound completions.length]
  return completions.map (chosen ++ ·)

end TwoLevel.Cover
