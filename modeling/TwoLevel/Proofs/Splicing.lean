import Mathlib.Data.List.Basic
import TwoLevel.Proofs.Evaluation

/-! Splicing the operands of a node into a parent with the same operator. Evaluation does not
notice it: the operands are reached in the same order, and it stops at the same one. -/

set_option autoImplicit false

namespace TwoLevel

namespace Op

variable {op : Op} {sofar : Bool}

theorem strength_inj {op' : Op} (same : op.strength = op'.strength) : op = op' := by
  cases op <;> cases op' <;> first | rfl | cases same

@[simp] theorem settledBy_identity : op.settledBy op.identity = false := by
  cases op <;> rfl

theorem settledBy_apply (unsettled : op.settledBy sofar = false) (value : Bool) :
    op.settledBy (op.apply sofar value) = op.settledBy value := by
  cases op <;> cases sofar <;> first | rfl | cases unsettled

end Op

namespace Expr

/-- The condition holds at every node of the tree. -/
inductive Throughout (p : Expr → Prop) : Expr → Prop where
  | const {value : Bool} (holds : p (.const value)) : Throughout p (.const value)
  | var {name : String} (holds : p (.var name)) : Throughout p (.var name)
  | not {e : Expr} (holds : p (.not e)) (operand : Throughout p e) : Throughout p (.not e)
  | nary {op : Op} {es : List Expr} (holds : p (.nary op es)) (operands : ∀ e ∈ es, Throughout p e) :
    Throughout p (.nary op es)

/-- An operator has two operands at least. -/
def WideNode : Expr → Prop
  | .nary _ es => 2 ≤ es.length
  | _ => True

/-- An operator is no operand of the same operator. -/
def UnnestedNode : Expr → Prop
  | .nary op es => ∀ operands, .nary op operands ∉ es
  | _ => True

/-- What an expression gives to a node of the operator that it stands under: its own operands if
it has the same operator, or else itself. -/
def operandsUnder (op : Op) : Expr → List Expr
  | .nary op' es => if op' = op then es else [.nary op' es]
  | e => [e]

/-- The tree where every node is spliced into its parent if both have the same operator. -/
def splice : Expr → Expr :=
  fold fun
    | .const value => .const value
    | .var name => .var name
    | .not e => .not e
    | .nary op es => .nary op (es.flatMap (operandsUnder op))

variable {op : Op} {e : Expr} {es : List Expr}

theorem operandsUnder_self : operandsUnder op (.nary op es) = es := if_pos rfl

theorem operandsUnder_of_ne (other : ∀ operands, e ≠ .nary op operands) : operandsUnder op e = [e] := by
  cases e with
  | const value => rfl
  | var name => rfl
  | not e => rfl
  | nary op' es => exact if_neg fun same => other es (by rw [same])

theorem splice_nary : splice (.nary op es) = .nary op (es.flatMap fun e => operandsUnder op e.splice) := by
  unfold splice
  rw [fold, foldAll_eq_map]
  exact congrArg (Expr.nary op) (List.flatMap_map _ _ _)

theorem splice_nary_ne {parent : Op} (different : op ≠ parent) (operands : List Expr) :
    splice (.nary op es) ≠ .nary parent operands := by
  intro same
  rw [splice_nary] at same
  cases same
  exact different rfl

theorem splice_eq_self (unnested : Throughout UnnestedNode e) : e.splice = e := by
  induction e with
  | const value => rfl
  | var name => rfl
  | not e ih =>
    cases unnested with
    | not _ operand => exact congrArg Expr.not (ih operand)
  | nary op es ih =>
    cases unnested with
    | nary apart operands =>
      have kept : ∀ e ∈ es, operandsUnder op e.splice = [e] := by
        intro e member
        rw [ih e member (operands e member)]
        exact operandsUnder_of_ne fun others same => apart others (same ▸ member)
      rw [splice_nary, List.flatMap_congr kept, List.flatMap_singleton']

section Evaluation

variable {lookup : String → Option Bool} {sofar : Bool}

theorem evalOperands_cons : evalOperands lookup op sofar (e :: es) = (eval lookup e).bind fun value =>
    if op.settledBy (op.apply sofar value) then .ok (op.apply sofar value)
    else evalOperands lookup op (op.apply sofar value) es := by
  rw [evalOperands]
  cases eval lookup e <;> rfl

/-- What operands yield depends on the result before them only through the operator. -/
theorem evalOperands_apply (unsettled : op.settledBy sofar = false) (value : Bool) :
    evalOperands lookup op (op.apply sofar value) es = (evalOperands lookup op value es).map (op.apply sofar) := by
  induction es generalizing value with
  | nil => rfl
  | cons e es ih =>
    rw [evalOperands_cons, evalOperands_cons]
    cases eval lookup e with
    | error error => rfl
    | ok next =>
      simp only [Except.bind, Op.apply_assoc, Op.settledBy_apply unsettled]
      by_cases settled : op.settledBy (op.apply value next) = true
      · rw [if_pos settled, if_pos settled]
        rfl
      · rw [if_neg settled, if_neg settled, ih]

theorem evalOperands_eq_map (unsettled : op.settledBy sofar = false) :
    evalOperands lookup op sofar es = (eval lookup (.nary op es)).map (op.apply sofar) := by
  rw [eval, ← evalOperands_apply unsettled, Op.apply_identity_right]

theorem evalOperands_append {es' : List Expr} (unsettled : op.settledBy sofar = false) :
    evalOperands lookup op sofar (es ++ es') = (evalOperands lookup op sofar es).bind fun value =>
      if op.settledBy value then .ok value else evalOperands lookup op value es' := by
  induction es generalizing sofar with
  | nil => simp [evalOperands, Except.bind, unsettled]
  | cons e es ih =>
    rw [List.cons_append, evalOperands_cons, evalOperands_cons]
    cases eval lookup e with
    | error error => rfl
    | ok next =>
      by_cases settled : op.settledBy (op.apply sofar next) = true
      · simp [Except.bind, settled]
      · simp only [Except.bind, if_neg settled]
        exact ih (Bool.eq_false_iff.mpr settled)

theorem eval_nary_append {es' : List Expr} : eval lookup (.nary op (es ++ es')) =
    (eval lookup (.nary op es)).bind fun value =>
      if op.settledBy value then .ok value else (eval lookup (.nary op es')).map (op.apply value) := by
  rw [eval, evalOperands_append Op.settledBy_identity, ← eval]
  congr 1
  funext value
  by_cases settled : op.settledBy value = true
  · rw [if_pos settled, if_pos settled]
  · rw [if_neg settled, if_neg settled, evalOperands_eq_map (Bool.eq_false_iff.mpr settled)]

theorem eval_nary_singleton : eval lookup (.nary op [e]) = eval lookup e := by
  rw [eval, evalOperands_cons]
  cases eval lookup e with
  | error error => rfl
  | ok value => simp [Except.bind, evalOperands]

theorem eval_ofOperands : eval lookup (ofOperands op es) = eval lookup (.nary op es) := by
  match es with
  | [] => rfl
  | [e] => exact eval_nary_singleton.symm
  | _ :: _ :: _ => rfl

end Evaluation

/-- The operands can stand for the given ones under the operator. Evaluation is the same, and
where every operator has operands enough, they are the given ones after splicing. -/
structure Replaces (op : Op) (es' es : List Expr) : Prop where
  same : ∀ lookup, eval lookup (.nary op es') = eval lookup (.nary op es)
  length_le : es.length ≤ es'.length
  spliced : (∀ e ∈ es, Throughout WideNode e) → es' = es.flatMap fun e => operandsUnder op e.splice

/-- The expression can stand for the given one. -/
structure Restores (e' e : Expr) : Prop where
  same : ∀ lookup, eval lookup e' = eval lookup e
  spliced : Throughout WideNode e → e' = e.splice

theorem Restores.self (kept : e.splice = e) : Restores e e := ⟨fun _ => rfl, fun _ => kept.symm⟩

theorem Restores.not {e' : Expr} (restores : Restores e' e) : Restores (.not e') (.not e) where
  same := by
    intro lookup
    rw [eval, eval, restores.same]
  spliced := by
    intro wide
    cases wide with
    | not _ operand => exact congrArg Expr.not (restores.spliced operand)

theorem Restores.replaces {e' : Expr} (restores : Restores e' e) (other : ∀ operands, e.splice ≠ .nary op operands) :
    Replaces op [e'] [e] where
  same := by
    intro lookup
    rw [eval_nary_singleton, eval_nary_singleton, restores.same]
  length_le := Nat.le_refl _
  spliced := by
    intro wide
    rw [List.flatMap_singleton, operandsUnder_of_ne other, restores.spliced (wide e List.mem_cons_self)]

theorem Replaces.append {first first' second second' : List Expr} (replaces : Replaces op first' first)
    (replaces' : Replaces op second' second) : Replaces op (first' ++ second') (first ++ second) where
  same := by
    intro lookup
    rw [eval_nary_append, eval_nary_append, replaces.same, replaces'.same]
  length_le := by
    rw [List.length_append, List.length_append]
    exact Nat.add_le_add replaces.length_le replaces'.length_le
  spliced := by
    intro wide
    obtain ⟨wideFirst, wideSecond⟩ := List.forall_mem_append.mp wide
    rw [List.flatMap_append, replaces.spliced wideFirst, replaces'.spliced wideSecond]

theorem ofOperands_eq_nary (two : 2 ≤ es.length) : ofOperands op es = .nary op es := by
  match es with
  | [] => cases two
  | [_] => exact absurd two (Nat.not_succ_le_self 1)
  | _ :: _ :: _ => rfl

theorem Replaces.restores {es' : List Expr} (replaces : Replaces op es' es) :
    Restores (ofOperands op es') (.nary op es) where
  same := by
    intro lookup
    rw [eval_ofOperands, replaces.same]
  spliced := by
    intro wide
    cases wide with
    | nary two operands =>
      rw [ofOperands_eq_nary (Nat.le_trans two replaces.length_le), splice_nary, replaces.spliced operands]

/-- A node gives its own operands to a parent with the same operator. -/
theorem Replaces.of_nary {es' : List Expr} (replaces : Replaces op es' es) (nonempty : es ≠ []) :
    Replaces op es' [.nary op es] where
  same := by
    intro lookup
    rw [replaces.same, eval_nary_singleton]
  length_le := Nat.le_trans (List.length_pos_iff.mpr nonempty) replaces.length_le
  spliced := by
    intro wide
    cases wide _ List.mem_cons_self with
    | nary _ operands =>
      rw [List.flatMap_singleton, splice_nary, operandsUnder_self, replaces.spliced operands]

end Expr

end TwoLevel
