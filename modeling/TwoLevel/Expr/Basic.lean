/-! Boolean expressions: constants, variables, negation, and AND, OR and XOR over any
number of operands. The tree keeps the order and the grouping in which it was
written. `Expr.fold` is the general bottom-up traversal, and `Expr.induct` is the
induction principle that reaches every operand. -/

set_option autoImplicit false

namespace TwoLevel

inductive Op where
  | and
  | or
  | xor
  deriving DecidableEq, Repr, Inhabited

namespace Op

def apply : Op → Bool → Bool → Bool
  | and, a, b => a && b
  | or, a, b => a || b
  | xor, a, b => a ^^ b

/-- The value of the operator over no operands. -/
def identity : Op → Bool
  | and => true
  | or => false
  | xor => false

@[simp] theorem apply_identity (op : Op) (b : Bool) : op.apply op.identity b = b := by
  cases op <;> cases b <;> rfl

/-- How tightly the operator binds; OR binds loosest. -/
def strength : Op → Nat
  | or => 1
  | xor => 2
  | and => 3

def symbol : Op → String
  | and => "AND"
  | or => "OR"
  | xor => "XOR"

/-- The value of the operator over a list of operands: all true, some true, or an odd
number true. -/
def combine : Op → List Bool → Bool
  | and, values => values.all id
  | or, values => values.any id
  | xor, values => values.count true % 2 == 1

end Op

/-- A Boolean expression tree. Names of variables are any strings. -/
inductive Expr where
  | const (value : Bool)
  | var (name : String)
  | not (operand : Expr)
  | nary (op : Op) (operands : List Expr)
  deriving Repr, Inhabited

/-- One node of an expression whose operands have been replaced by results. -/
inductive Layer (α : Type) where
  | const (value : Bool)
  | var (name : String)
  | not (operand : α)
  | nary (op : Op) (operands : List α)

namespace Expr

def notSymbol : String := "NOT"

mutual

def decEq : (a b : Expr) → Decidable (a = b)
  | .const a, .const b => decidable_of_iff (a = b) (by simp)
  | .var a, .var b => decidable_of_iff (a = b) (by simp)
  | .not a, .not b => @decidable_of_iff _ (a = b) (by simp) (decEq a b)
  | .nary op as, .nary op' bs =>
    @decidable_of_iff _ (op = op' ∧ as = bs) (by simp) (@instDecidableAnd _ _ _ (decEqAll as bs))
  | .const _, .var _ | .const _, .not _ | .const _, .nary _ _ => isFalse nofun
  | .var _, .const _ | .var _, .not _ | .var _, .nary _ _ => isFalse nofun
  | .not _, .const _ | .not _, .var _ | .not _, .nary _ _ => isFalse nofun
  | .nary _ _, .const _ | .nary _ _, .var _ | .nary _ _, .not _ => isFalse nofun

def decEqAll : (as bs : List Expr) → Decidable (as = bs)
  | [], [] => isTrue rfl
  | [], _ :: _ => isFalse nofun
  | _ :: _, [] => isFalse nofun
  | a :: as, b :: bs =>
    @decidable_of_iff _ (a = b ∧ as = bs) (by simp) (@instDecidableAnd _ _ (decEq a b) (decEqAll as bs))

end

instance : DecidableEq Expr := decEq

mutual

/-- Reduce the tree to one result, operands before the node that holds them. -/
def fold {α : Type} (f : Layer α → α) : Expr → α
  | .const value => f (.const value)
  | .var name => f (.var name)
  | .not e => f (.not (e.fold f))
  | .nary op es => f (.nary op (foldAll f es))

def foldAll {α : Type} (f : Layer α → α) : List Expr → List α
  | [] => []
  | e :: es => e.fold f :: foldAll f es

end

theorem foldAll_eq_map {α : Type} (f : Layer α → α) (es : List Expr) :
    foldAll f es = es.map (fold f) := by
  induction es with
  | nil => rfl
  | cons e es ih => simp [foldAll, ih]

/-- Induction over a tree: at an operator node the statement may be used for every operand. -/
@[elab_as_elim, induction_eliminator]
theorem induct {motive : Expr → Prop} (const : ∀ value, motive (.const value))
    (var : ∀ name, motive (.var name)) (not : ∀ operand, motive operand → motive (.not operand))
    (nary : ∀ op operands, (∀ e ∈ operands, motive e) → motive (.nary op operands)) (e : Expr) :
    motive e :=
  Expr.rec (motive_1 := motive) (motive_2 := fun es => ∀ e ∈ es, motive e)
    const var not nary (fun _ member => absurd member List.not_mem_nil)
    (fun _ _ head tail => List.forall_mem_cons.mpr ⟨head, tail⟩) e

/-- The operator over a list of operands, without a needless node: no operands give the
identity constant, and a single operand stands for itself. -/
def ofOperands (op : Op) : List Expr → Expr
  | [] => .const op.identity
  | [e] => e
  | es => .nary op es

/-- The names of the variables, one for each occurrence, from left to right. -/
def occurrences : Expr → List String :=
  fold fun
    | .const _ => []
    | .var name => [name]
    | .not names => names
    | .nary _ names => names.flatten

def literalCount (e : Expr) : Nat := e.occurrences.length

/-- The number of nodes on the longest path from the root to a leaf. -/
def height : Expr → Nat :=
  fold fun
    | .const _ => 1
    | .var _ => 1
    | .not h => h + 1
    | .nary _ heights => heights.foldr max 0 + 1

end Expr

end TwoLevel
