import TwoLevel.Expr.Minimize
import TwoLevel.Proofs.FormEvaluation
import TwoLevel.Proofs.TruthTables

/-! Minimization of an expression by the table over its variables. Each of the smallest sums of
products has the value of the expression under every assignment, and nothing but the limits on
the table and on the cover search can stand in the way. -/

set_option autoImplicit false

namespace TwoLevel.Expr

variable {e : Expr}

/-- The minimal forms over the variables of the expression. -/
def forms (e : Expr) : List MinimalForm :=
  (Minimization.outcomeOf e.vars.length (Table.trueRows e.vars e) ∅).forms

/-- The sums of the minimal forms, or the constant value of an expression without variables. -/
def smallestSums (e : Expr) : List Expr :=
  if e.vars.isEmpty then [.const (e.value fun _ => false)] else e.forms.map (·.sum e.vars)

theorem eval_known (e : Expr) (assign : String → Bool) :
    e.eval (fun name => some (assign name)) = .ok (e.value assign) :=
  eval_of_total (fun _ _ known => Option.some.inj known) fun _ _ => Option.some_ne_none _

theorem occurrences_eq_nil (noVars : e.vars.isEmpty = true) : e.occurrences = [] := by
  apply List.eq_nil_iff_forall_not_mem.mpr
  intro name occurs
  exact absurd (mem_vars.mpr occurs) (List.isEmpty_iff.mp noVars ▸ List.not_mem_nil)

section Table

theorem valid_trueRows {names : List String} (positive : 0 < names.length) :
    Minimization.Valid names.length (Table.trueRows names e) ∅ where
  positive := positive
  disjoint := fun _ _ => List.not_mem_nil
  inRange := fun _ member => member.elim (fun minterm => (Table.mem_trueRows.mp minterm).1) (absurd · List.not_mem_nil)

theorem valid_vars (hasVars : ¬e.vars.isEmpty = true) :
    Minimization.Valid e.vars.length (Table.trueRows e.vars e) ∅ :=
  valid_trueRows (List.length_pos_iff.mpr fun empty => hasVars (List.isEmpty_iff.mpr empty))

/-- A form is true where one of its products admits the values, and so is the expression. -/
theorem value_sum_of_mem_forms (hasVars : ¬e.vars.isEmpty = true) {form : MinimalForm} (member : form ∈ e.forms)
    (assign : String → Bool) : (form.sum e.vars).value assign = e.value assign := by
  have valid := valid_vars hasVars
  have widths : ∀ m ∈ form.products, e.vars.length = m.width :=
    fun m product => (Minimization.width_of_mem_products valid member product).symm
  have isRow : Row.binaryValue (e.vars.map assign) ∈ Table.trueRows e.vars e ↔ _ :=
    Table.binaryValue_mem_trueRows fun _ => mem_vars.mpr
  have matches_iff : ∀ m ∈ form.products,
      (m.pattern.Matches (Row.binaryValue (e.vars.map assign)) ↔ m.pattern.admits (e.vars.map assign) = true) :=
    fun m product => Pattern.matches_binaryValue ((List.length_map _).trans (widths m product))
  rw [Bool.eq_iff_iff, MinimalForm.value_sum assign widths, ← isRow]
  constructor
  · intro found
    obtain ⟨m, product, admitted⟩ := found
    obtain ⟨p, prime, rfl⟩ := Minimization.isPrime_of_mem_products valid member product
    have implied := prime.implicant _ ((matches_iff _ product).mpr admitted)
    exact implied.resolve_right List.not_mem_nil
  · intro minterm
    obtain ⟨m, product, matched⟩ := Minimization.exists_product_of_minterm valid member minterm
    exact ⟨m, product, (matches_iff m product).mp matched⟩

theorem value_of_mem_smallestSums {form : Expr} (member : form ∈ e.smallestSums) (assign : String → Bool) :
    form.value assign = e.value assign := by
  unfold smallestSums at member
  by_cases noVars : e.vars.isEmpty = true
  · rw [if_pos noVars, List.mem_singleton] at member
    rw [member, value_const]
    exact value_congr fun name occurs => absurd occurs (occurrences_eq_nil noVars ▸ List.not_mem_nil)
  · rw [if_neg noVars] at member
    obtain ⟨found, known, rfl⟩ := List.mem_map.mp member
    exact value_sum_of_mem_forms noVars known assign

theorem smallestSums_ne_nil : e.smallestSums ≠ [] := by
  unfold smallestSums
  by_cases noVars : e.vars.isEmpty = true
  · rw [if_pos noVars]
    exact List.cons_ne_nil _ _
  · rw [if_neg noVars]
    exact fun empty => Minimization.forms_ne_nil (valid_vars noVars) (List.map_eq_nil_iff.mp empty)

end Table

section Outcome

variable (settings : Settings)

theorem outcome_minimize :
    (e.minimize settings).outcome = (e.minimalForms settings).outcome.map fun forms => forms.headD (.const false) := by
  unfold minimize
  rw [Logged.outcome_bind]
  cases (e.minimalForms settings).outcome <;> rfl

theorem outcome_minimalForms_of_isEmpty (noVars : e.vars.isEmpty = true) :
    (e.minimalForms settings).outcome = .ok e.smallestSums := by
  have evaluated : (e.eval fun _ => none) = .ok (e.value fun _ => false) := by
    apply eval_of_total
    · intro name value known
      cases known
    · intro name occurs
      exact absurd occurs (occurrences_eq_nil noVars ▸ List.not_mem_nil)
  unfold minimalForms smallestSums
  rw [if_pos noVars, if_pos noVars, evaluated]
  rfl

theorem outcome_minimalForms_eq_bind (hasVars : ¬e.vars.isEmpty = true) (few : e.vars.length ≤ Table.limit) :
    (e.minimalForms settings).outcome =
      ((Minimization.run (Table.trueRows e.vars e) ∅ e.vars settings).outcome.mapError .minimizer).bind
        fun found => found.expressions.mapError .minimizer := by
  unfold minimalForms
  rw [if_neg hasVars, Table.minterms_eq_ok few fun _ => mem_vars.mpr]
  simp only [Logged.outcome_bind, Logged.outcome_ofExcept, Logged.outcome_mapError]
  rfl

/-- With a table of a size that is allowed, only the cover search can fail, by its limit. -/
theorem outcome_minimalForms (few : e.vars.length ≤ Table.limit) :
    (e.minimalForms settings).outcome = .ok e.smallestSums ∨
      ∃ limit, settings.coverLimit = some limit ∧
        (e.minimalForms settings).outcome = .error (.minimizer (.coverLimit limit)) := by
  by_cases noVars : e.vars.isEmpty = true
  · exact .inl (outcome_minimalForms_of_isEmpty settings noVars)
  · have valid := valid_vars noVars
    rw [outcome_minimalForms_eq_bind settings noVars few]
    rcases Minimization.outcome_run valid settings with done | exceeded
    · left
      unfold smallestSums
      rw [done, if_neg noVars]
      simp only [Except.mapError, Except.bind]
      rw [Minimization.expressions_eq valid rfl]
      rfl
    · right
      obtain ⟨limit, given, failed⟩ := exceeded
      refine ⟨limit, given, ?_⟩
      rw [failed]
      rfl

theorem outcome_minimalForms_of_many (many : Table.limit < e.vars.length) :
    (e.minimalForms settings).outcome = .error (.evaluation (.tooManyVariables e.vars.length Table.limit)) := by
  have hasVars : ¬e.vars.isEmpty = true := by
    intro noVars
    rw [List.isEmpty_iff.mp noVars] at many
    exact absurd many (Nat.not_lt_zero _)
  unfold minimalForms
  rw [if_neg hasVars, Table.minterms_eq_error many]
  rfl

end Outcome

/-- Minimization keeps the meaning of an expression. Up to the limit on tables it yields a list of
sums, the first of which is the minimum that is returned, and each evaluates like the expression
under every assignment; only a limit on the cover search can prevent this. Beyond the limit on
tables it fails with the number of variables. -/
theorem minimalForms_sound (e : Expr) (settings : Settings) :
    (e.vars.length ≤ 24 →
      (∃ forms first, (e.minimalForms settings).outcome = .ok forms ∧ forms.head? = some first ∧
        (e.minimize settings).outcome = .ok first ∧
        ∀ form ∈ forms, ∀ assign : String → Bool, ∃ value,
          e.eval (fun name => some (assign name)) = .ok value ∧
            form.eval (fun name => some (assign name)) = .ok value) ∨
      ∃ limit, settings.coverLimit = some limit ∧
        (e.minimalForms settings).outcome = .error (.minimizer (.coverLimit limit)) ∧
        (e.minimize settings).outcome = .error (.minimizer (.coverLimit limit))) ∧
    (24 < e.vars.length →
      (e.minimalForms settings).outcome = .error (.evaluation (.tooManyVariables e.vars.length 24)) ∧
      (e.minimize settings).outcome = .error (.evaluation (.tooManyVariables e.vars.length 24))) := by
  rw [outcome_minimize]
  constructor
  · intro few
    rcases outcome_minimalForms settings few with done | exceeded
    · left
      obtain ⟨first, rest, sums⟩ := List.exists_cons_of_ne_nil (smallestSums_ne_nil (e := e))
      rw [done, sums]
      refine ⟨first :: rest, first, rfl, rfl, rfl, fun form member assign => ?_⟩
      refine ⟨e.value assign, eval_known e assign, ?_⟩
      rw [eval_known form assign, value_of_mem_smallestSums (sums ▸ member) assign]
    · right
      obtain ⟨limit, given, failed⟩ := exceeded
      rw [failed]
      exact ⟨limit, given, rfl, rfl⟩
  · intro many
    rw [outcome_minimalForms_of_many settings many]
    exact ⟨rfl, rfl⟩

/-- A parity in which one variable occurs twice, so that it does not count. -/
theorem minimalForms_sound_parity :
    ∃ first, ((Expr.nary .xor [.var "A", .var "B", .var "A"]).minimize {}).outcome = .ok first ∧
      first.eval (fun name => some (name == "B")) = .ok true := by
  rcases (minimalForms_sound (.nary .xor [.var "A", .var "B", .var "A"]) {}).1 (by decide) with found | exceeded
  · obtain ⟨forms, first, _, head, done, same⟩ := found
    obtain ⟨value, given, kept⟩ := same first (List.mem_of_head? head) fun name => name == "B"
    have isTrue : value = true := Except.ok.inj (given.symm.trans (by decide))
    exact ⟨first, done, isTrue ▸ kept⟩
  · obtain ⟨limit, given, _⟩ := exceeded
    cases given

end TwoLevel.Expr
