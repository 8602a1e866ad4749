import TwoLevel.Expr.Eval

/-! Evaluation against the plain value. Stopping early does not change a result: what
evaluation yields is the value under every assignment that agrees with the known values, and
it fails only at a variable of the expression without a value. -/

set_option autoImplicit false

namespace TwoLevel

namespace Op

theorem apply_assoc (op : Op) (a b c : Bool) : op.apply (op.apply a b) c = op.apply a (op.apply b c) := by
  cases op with
  | and => exact Bool.and_assoc a b c
  | or => exact Bool.or_assoc a b c
  | xor => exact Bool.xor_assoc a b c

@[simp] theorem apply_identity_right (op : Op) (b : Bool) : op.apply b op.identity = b := by
  cases op <;> cases b <;> rfl

@[simp] theorem combine_nil (op : Op) : op.combine [] = op.identity := by
  cases op <;> rfl

theorem combine_cons (op : Op) (b : Bool) (values : List Bool) :
    op.combine (b :: values) = op.apply b (op.combine values) := by
  cases op with
  | and => rfl
  | or => rfl
  | xor =>
    cases b with
    | false =>
      simp only [combine, apply, Bool.false_xor]
      rw [List.count_cons_of_ne Bool.false_ne_true]
    | true =>
      simp only [combine, apply, Bool.true_xor, List.count_cons_self]
      rw [Bool.eq_iff_iff]
      simp only [beq_iff_eq, Bool.not_eq_true', beq_eq_false_iff_ne]
      omega

/-- Operands may be combined from the left, one at a time. -/
theorem foldl_apply (op : Op) (a : Bool) (values : List Bool) :
    values.foldl op.apply a = op.apply a (op.combine values) := by
  induction values generalizing a with
  | nil => simp
  | cons b values ih => rw [List.foldl_cons, ih, combine_cons, apply_assoc]

theorem foldl_apply_identity (op : Op) (values : List Bool) :
    values.foldl op.apply op.identity = op.combine values := by
  rw [foldl_apply, apply_identity]

theorem foldl_apply_of_settledBy {op : Op} {a : Bool} (settled : op.settledBy a = true) (values : List Bool) :
    values.foldl op.apply a = a := by
  rw [foldl_apply]
  cases op with
  | and =>
    cases a with
    | false => rfl
    | true => simp [settledBy] at settled
  | or =>
    cases a with
    | false => simp [settledBy] at settled
    | true => rfl
  | xor => simp [settledBy] at settled

end Op

namespace Expr

section Partial

variable {lookup : String → Option Bool} {assign : String → Bool}

/-- The assignment agrees with every value that is known. -/
def Extends (assign : String → Bool) (lookup : String → Option Bool) : Prop :=
  ∀ name value, lookup name = some value → assign name = value

theorem value_of_evalOperands {op : Op} {es : List Expr} {sofar result : Bool}
    (each : ∀ e ∈ es, ∀ value, eval lookup e = .ok value → e.value assign = value)
    (done : evalOperands lookup op sofar es = .ok result) :
    (es.map (value assign)).foldl op.apply sofar = result := by
  induction es generalizing sofar with
  | nil =>
    unfold evalOperands at done
    exact Except.ok.inj done
  | cons e es ih =>
    obtain ⟨head, tail⟩ := List.forall_mem_cons.mp each
    unfold evalOperands at done
    cases found : eval lookup e with
    | error error => simp [found] at done
    | ok value =>
      rw [List.map_cons, List.foldl_cons, head value found]
      simp only [found] at done
      -- An operand that settles the result leaves the rest without effect.
      by_cases settled : op.settledBy (op.apply sofar value) = true
      · rw [if_pos settled] at done
        rw [Op.foldl_apply_of_settledBy settled]
        exact Except.ok.inj done
      · rw [if_neg settled] at done
        exact ih tail done

theorem value_of_eval {e : Expr} {result : Bool} (agrees : Extends assign lookup)
    (done : eval lookup e = .ok result) : e.value assign = result := by
  induction e generalizing result with
  | const b =>
    unfold eval at done
    exact Except.ok.inj done
  | var name =>
    unfold eval at done
    cases known : lookup name with
    | none => simp [known] at done
    | some value =>
      simp only [known] at done
      rw [value_var, agrees name value known]
      exact Except.ok.inj done
  | not e ih =>
    unfold eval at done
    cases found : eval lookup e with
    | error error => simp [found, Except.map] at done
    | ok value =>
      simp only [found, Except.map] at done
      rw [value_not, ih found]
      exact Except.ok.inj done
  | nary op es ih =>
    unfold eval at done
    rw [value_nary, ← Op.foldl_apply_identity]
    exact value_of_evalOperands (fun e member value found => ih e member found) done

theorem unknown_of_evalOperands {op : Op} {es : List Expr} {sofar : Bool} {error : EvalError}
    (each : ∀ e ∈ es, ∀ error, eval lookup e = .error error →
      ∃ name ∈ e.occurrences, lookup name = none ∧ error = .unknownVariable name)
    (failed : evalOperands lookup op sofar es = .error error) :
    ∃ e ∈ es, ∃ name ∈ e.occurrences, lookup name = none ∧ error = .unknownVariable name := by
  induction es generalizing sofar with
  | nil =>
    unfold evalOperands at failed
    cases failed
  | cons e es ih =>
    obtain ⟨head, tail⟩ := List.forall_mem_cons.mp each
    unfold evalOperands at failed
    cases found : eval lookup e with
    | error other =>
      simp only [found] at failed
      cases failed
      exact ⟨e, List.mem_cons_self, head _ found⟩
    | ok value =>
      simp only [found] at failed
      by_cases settled : op.settledBy (op.apply sofar value) = true
      · rw [if_pos settled] at failed
        cases failed
      · rw [if_neg settled] at failed
        obtain ⟨other, member, unknown⟩ := ih tail failed
        exact ⟨other, List.mem_cons_of_mem e member, unknown⟩

theorem unknown_of_eval {e : Expr} {error : EvalError} (failed : eval lookup e = .error error) :
    ∃ name ∈ e.occurrences, lookup name = none ∧ error = .unknownVariable name := by
  induction e generalizing error with
  | const b =>
    unfold eval at failed
    cases failed
  | var name =>
    unfold eval at failed
    cases known : lookup name with
    | none =>
      simp only [known] at failed
      exact ⟨name, by simp [occurrences, fold], known, (Except.error.inj failed).symm⟩
    | some value => simp [known] at failed
  | not e ih =>
    unfold eval at failed
    cases found : eval lookup e with
    | ok value => simp [found, Except.map] at failed
    | error other =>
      simp only [found, Except.map] at failed
      cases failed
      exact ih found
  | nary op es ih =>
    unfold eval at failed
    obtain ⟨e, member, name, occurs, unknown⟩ := unknown_of_evalOperands (fun e member error => ih e member) failed
    refine ⟨name, ?_, unknown⟩
    rw [occurrences_nary]
    exact List.mem_flatten.mpr ⟨_, List.mem_map_of_mem member, occurs⟩

/-- With a value for every variable, evaluation yields the value. -/
theorem eval_of_total {e : Expr} (agrees : Extends assign lookup)
    (total : ∀ name ∈ e.occurrences, lookup name ≠ none) : eval lookup e = .ok (e.value assign) := by
  cases found : eval lookup e with
  | ok value => rw [value_of_eval agrees found]
  | error error =>
    obtain ⟨name, occurs, unknown, _⟩ := unknown_of_eval found
    exact absurd unknown (total name occurs)

/-- Evaluation with some values known against the plain value. If every variable of the expression is
known, it yields the value. What it yields without some of them is the value under every assignment that
agrees with the known values, and its only error names a variable of the expression that is not known. -/
theorem eval_refines_value (e : Expr) (lookup : String → Option Bool) :
    ((∀ name ∈ e.occurrences, lookup name ≠ none) →
      ∀ assign, Extends assign lookup → eval lookup e = .ok (e.value assign)) ∧
    (∀ result, eval lookup e = .ok result → ∀ assign, Extends assign lookup → e.value assign = result) ∧
    ∀ error, eval lookup e = .error error →
      ∃ name ∈ e.occurrences, lookup name = none ∧ error = .unknownVariable name := by
  refine ⟨?total, ?partly, ?failed⟩
  case total => exact fun total assign agrees => eval_of_total agrees total
  case partly => exact fun result done assign agrees => value_of_eval agrees done
  case failed => exact fun error failed => unknown_of_eval failed

/-- Both AND and OR stop before the variable without a value, and XOR does not. -/
theorem eval_refines_value_two_known :
    (∀ assign, Extends assign (lookupIn ["A", "B"] [false, true]) →
      eval (lookupIn ["A", "B"] [false, true]) (.nary .xor [.var "A", .not (.nary .or []), .var "B"]) =
          .ok (value assign (.nary .xor [.var "A", .not (.nary .or []), .var "B"])) ∧
        value assign (.nary .xor [.nary .and [.var "A", .var "C"], .nary .or [.var "B", .var "C"]]) = true) ∧
      ∃ name ∈ occurrences (.nary .xor [.var "B", .var "C"]),
        lookupIn ["A", "B"] [false, true] name = none ∧ EvalError.unknownVariable "C" = .unknownVariable name := by
  refine ⟨fun assign agrees => ⟨?_, ?_⟩, ?_⟩
  · exact (eval_refines_value _ _).1 (by decide) assign agrees
  · exact (eval_refines_value _ _).2.1 true rfl assign agrees
  · exact (eval_refines_value _ _).2.2 _ rfl

end Partial

section Listed

variable {names : List String} {values : List Bool}

theorem lookupIn_eq_none_iff {x : String} (fits : values.length = names.length) :
    lookupIn names values x = none ↔ x ∉ names := by
  induction names generalizing values with
  | nil => simp [lookupIn]
  | cons name names ih =>
    cases values with
    | nil => simp at fits
    | cons value values =>
      have later := ih (Nat.succ.inj fits)
      unfold lookupIn
      cases found : lookupIn names values x with
      | some b =>
        have listed : x ∈ names := by
          apply Decidable.byContradiction
          intro unlisted
          rw [later.mpr unlisted] at found
          cases found
        simp [listed]
      | none =>
        have unlisted := later.mp found
        by_cases same : name = x
        · simp [same]
        · simp [same, unlisted, Ne.symm same]

/-- The assignment of a list of values, false where no value is given. -/
def assignedBy (names : List String) (values : List Bool) (x : String) : Bool :=
  (lookupIn names values x).getD false

theorem extends_assignedBy : Extends (assignedBy names values) (lookupIn names values) := by
  intro name value known
  unfold assignedBy
  rw [known, Option.getD_some]

/-- Different names have the values they are listed with. -/
theorem map_assignedBy (distinct : names.Nodup) (fits : values.length = names.length) :
    names.map (assignedBy names values) = values := by
  induction names generalizing values with
  | nil => exact (List.length_eq_zero_iff.mp fits).symm
  | cons name names ih =>
    cases values with
    | nil => simp at fits
    | cons value values =>
      have fitsTail : values.length = names.length := Nat.succ.inj fits
      obtain ⟨fresh, distinctTail⟩ := List.nodup_cons.mp distinct
      have head : assignedBy (name :: names) (value :: values) name = value := by
        unfold assignedBy lookupIn
        rw [(lookupIn_eq_none_iff fitsTail).mpr fresh]
        simp
      have tail : ∀ x ∈ names, assignedBy (name :: names) (value :: values) x = assignedBy names values x := by
        intro x listed
        have different : name ≠ x := fun same => fresh (same ▸ listed)
        unfold assignedBy
        rw [lookupIn.eq_1]
        cases lookupIn names values x <;> simp [different]
      rw [List.map_cons, head, List.map_congr_left tail, ih distinctTail fitsTail]

theorem evalAt_of_listed {e : Expr} (fits : values.length = names.length)
    (listed : ∀ name ∈ e.occurrences, name ∈ names) :
    evalAt names values e = .ok (e.value (assignedBy names values)) := by
  unfold evalAt
  rw [if_pos fits]
  apply eval_of_total extends_assignedBy
  intro name occurs unknown
  exact (lookupIn_eq_none_iff fits).mp unknown (listed name occurs)

end Listed

section Operands

variable {assign : String → Bool} {op : Op} {es : List Expr}

theorem value_ofOperands : (ofOperands op es).value assign = op.combine (es.map (value assign)) := by
  match es with
  | [] => rw [List.map_nil, Op.combine_nil]; rfl
  | [e] => rw [List.map_singleton, Op.combine_cons, Op.combine_nil, Op.apply_identity_right]; rfl
  | e :: second :: rest => exact value_nary assign op (e :: second :: rest)

theorem mem_occurrences_ofOperands {name : String} :
    name ∈ (ofOperands op es).occurrences ↔ ∃ e ∈ es, name ∈ e.occurrences := by
  match es with
  | [] => simp [ofOperands, occurrences, fold]
  | [e] => simp [ofOperands]
  | e :: second :: rest =>
    unfold ofOperands
    rw [occurrences_nary, List.mem_flatten]
    constructor
    · intro found
      obtain ⟨_, member, occurs⟩ := found
      obtain ⟨e, operand, rfl⟩ := List.mem_map.mp member
      exact ⟨e, operand, occurs⟩
    · intro found
      obtain ⟨e, operand, occurs⟩ := found
      exact ⟨_, List.mem_map_of_mem operand, occurs⟩

end Operands

end Expr

end TwoLevel
