import TwoLevel.SortedSet
import TwoLevel.Expr.Basic

/-! The plain value of an expression when every variable has a value, and the
variables that this value may depend on. -/

set_option autoImplicit false

namespace TwoLevel.Expr

/-- The names that occur in the expression, once each and in ascending order. -/
def vars (e : Expr) : List String := (SortedSet.ofList e.occurrences).toList

/-- The value of the expression when every variable has a value. -/
def value (assign : String → Bool) : Expr → Bool :=
  fold fun
    | .const b => b
    | .var name => assign name
    | .not b => !b
    | .nary op values => op.combine values

variable (assign : String → Bool)

@[simp] theorem value_const (b : Bool) : value assign (.const b) = b := rfl

@[simp] theorem value_var (name : String) : value assign (.var name) = assign name := rfl

@[simp] theorem value_not (e : Expr) : value assign (.not e) = !value assign e := rfl

@[simp] theorem value_nary (op : Op) (es : List Expr) :
    value assign (.nary op es) = op.combine (es.map (value assign)) :=
  congrArg op.combine (foldAll_eq_map _ es)

@[simp] theorem occurrences_nary (op : Op) (es : List Expr) :
    occurrences (.nary op es) = (es.map occurrences).flatten :=
  congrArg List.flatten (foldAll_eq_map _ es)

theorem mem_vars {name : String} {e : Expr} : name ∈ e.vars ↔ name ∈ e.occurrences :=
  SortedSet.mem_ofList

/-- Assignments that agree on the variables of an expression give it the same value. -/
theorem value_congr {first second : String → Bool} {e : Expr}
    (agree : ∀ name ∈ e.occurrences, first name = second name) : value first e = value second e := by
  induction e with
  | const b => rfl
  | var name => exact agree name (by simp [occurrences, fold])
  | not e ih => simp only [value_not, ih agree]
  | nary op es ih =>
    simp only [value_nary]
    refine congrArg op.combine (List.map_congr_left fun e member => ih e member fun name found => ?_)
    exact agree name (by rw [occurrences_nary, List.mem_flatten]; exact ⟨_, List.mem_map_of_mem member, found⟩)

end TwoLevel.Expr
