import TwoLevel.Table
import TwoLevel.Proofs.Evaluation
import TwoLevel.Proofs.Numbering

/-! Truth tables over a list of variables with every variable of the expression. No row fails,
and a row is found exactly if its assignment gives the expression the wanted value. -/

set_option autoImplicit false

namespace TwoLevel

namespace Expr

variable {names : List String} {assign : String → Bool}

theorem lookupIn_map {x : String} (listed : x ∈ names) : lookupIn names (names.map assign) x = some (assign x) := by
  induction names with
  | nil => cases listed
  | cons name names ih =>
    rw [List.map_cons, lookupIn]
    by_cases later : x ∈ names
    · rw [ih later]
    · have unknown : lookupIn names (names.map assign) x = none :=
        (lookupIn_eq_none_iff (List.length_map _)).mpr later
      have same : x = name := (List.mem_cons.mp listed).resolve_right later
      rw [unknown, same]
      exact if_pos rfl

theorem assignedBy_map {x : String} (listed : x ∈ names) : assignedBy names (names.map assign) x = assign x := by
  unfold assignedBy
  rw [lookupIn_map listed, Option.getD_some]

end Expr

namespace Table

variable {names : List String} {e : Expr}

theorem select_eq_ok {test : Row → Except EvalError Bool} {keep : Row → Bool} {rows : List Row}
    (each : ∀ row ∈ rows, test row = .ok (keep row)) (kept : List Row) :
    select test kept rows = .ok (kept.reverse ++ rows.filter keep) := by
  induction rows generalizing kept with
  | nil => rw [select, List.filter_nil, List.append_nil]
  | cons row rest ih =>
    obtain ⟨head, tail⟩ := List.forall_mem_cons.mp each
    rw [select, head]
    show select test (if keep row then row :: kept else kept) rest = _
    rw [ih tail]
    cases found : keep row with
    | false => simp [found]
    | true => simp [found]

/-- The value of an expression in a row of the table over the given variables. -/
def valueIn (names : List String) (e : Expr) (row : Row) : Bool :=
  e.value (Expr.assignedBy names (row.assignment names.length))

/-- The rows of the table on which the expression is true. -/
def trueRows (names : List String) (e : Expr) : RowSet :=
  .ofList ((List.range (Row.count names.length)).filter (valueIn names e))

theorem valueAt_eq_ok (listed : ∀ name ∈ e.occurrences, name ∈ names) (row : Row) :
    valueAt names e row = .ok (valueIn names e row) :=
  Expr.evalAt_of_listed (Row.length_assignment _ _) listed

theorem rowsWhere_eq_ok (few : names.length ≤ limit) (listed : ∀ name ∈ e.occurrences, name ∈ names)
    (expected : Bool) :
    rowsWhere names e expected =
      .ok ((List.range (Row.count names.length)).filter fun row => valueIn names e row == expected) := by
  have each : ∀ row ∈ List.range (Row.count names.length),
      (valueAt names e row).map (· == expected) = .ok (valueIn names e row == expected) := by
    intro row _
    rw [valueAt_eq_ok listed]
    rfl
  unfold rowsWhere rows
  rw [if_pos few]
  exact select_eq_ok each []

theorem rowsWhere_eq_error (many : limit < names.length) (expected : Bool) :
    rowsWhere names e expected = .error (.tooManyVariables names.length limit) := by
  unfold rowsWhere rows
  rw [if_neg (Nat.not_le.mpr many)]

theorem minterms_eq_ok (few : names.length ≤ limit) (listed : ∀ name ∈ e.occurrences, name ∈ names) :
    minterms names e = .ok (trueRows names e) := by
  unfold minterms trueRows
  rw [rowsWhere_eq_ok few listed]
  simp only [beq_true]
  rfl

theorem minterms_eq_error (many : limit < names.length) :
    minterms names e = .error (.tooManyVariables names.length limit) := by
  unfold minterms
  rw [rowsWhere_eq_error many]
  rfl

theorem mem_trueRows {row : Row} :
    row ∈ trueRows names e ↔ row < Row.count names.length ∧ valueIn names e row = true := by
  rw [trueRows, SortedSet.mem_ofList, List.mem_filter, List.mem_range]

/-- In the row of an assignment the expression has the value that the assignment gives it. -/
theorem valueIn_binaryValue (listed : ∀ name ∈ e.occurrences, name ∈ names) (assign : String → Bool) :
    valueIn names e (Row.binaryValue (names.map assign)) = e.value assign := by
  have digits : Row.assignment names.length (Row.binaryValue (names.map assign)) = names.map assign := by
    have inverse := Row.assignment_binaryValue (names.map assign)
    rwa [List.length_map] at inverse
  rw [valueIn, digits]
  exact Expr.value_congr fun name occurs => Expr.assignedBy_map (listed name occurs)

theorem binaryValue_map_lt_count (names : List String) (assign : String → Bool) :
    Row.binaryValue (names.map assign) < Row.count names.length := by
  have small := Row.binaryValue_lt_count (names.map assign)
  rwa [List.length_map] at small

/-- The row of an assignment is a minterm if the assignment makes the expression true. -/
theorem binaryValue_mem_trueRows (listed : ∀ name ∈ e.occurrences, name ∈ names) {assign : String → Bool} :
    Row.binaryValue (names.map assign) ∈ trueRows names e ↔ e.value assign = true := by
  rw [mem_trueRows, and_iff_right (binaryValue_map_lt_count names assign), valueIn_binaryValue listed]

end Table

end TwoLevel
