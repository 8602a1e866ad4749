import TwoLevel.Proofs.Evaluation
import TwoLevel.Proofs.MinimalForms

/-! The expressions of the minimal forms and their values. Over any different names, a product
is true on the assignments that its pattern admits, and a minimal form has the value of the
function on every row that is of interest. -/

set_option autoImplicit false

namespace TwoLevel

namespace Pattern

/-- The literals of the slots that name their variable, in order. -/
def literals (p : Pattern) (names : List String) : List Expr :=
  (p.zip names).filterMap fun (slot, name) => Implicant.literal? slot name

def term (p : Pattern) (names : List String) : Expr :=
  .ofOperands .and (if (p.literals names).isEmpty then [.const true] else p.literals names)

variable {p : Pattern} {names : List String}

theorem literals_cons (slot : Slot) (name : String) :
    literals (slot :: p) (name :: names) = (Implicant.literal? slot name).toList ++ p.literals names := by
  unfold literals
  rw [List.zip_cons_cons, List.filterMap_cons]
  cases slot <;> rfl

theorem all_literals (assign : String → Bool) (fits : names.length = p.length) :
    ((p.literals names).map (Expr.value assign)).all id = p.admits (names.map assign) := by
  induction p generalizing names with
  | nil =>
    rw [List.length_eq_zero_iff.mp fits]
    rfl
  | cons slot p ih =>
    cases names with
    | nil => simp at fits
    | cons name names =>
      rw [literals_cons, List.map_append, List.all_append, ih (Nat.succ.inj fits), List.map_cons]
      show _ = (slot.admits (assign name) && admits p (names.map assign))
      cases slot <;> simp [Implicant.literal?, Slot.admits]

theorem value_term (assign : String → Bool) (fits : names.length = p.length) :
    (p.term names).value assign = p.admits (names.map assign) := by
  rw [← all_literals assign fits]
  unfold term
  rw [Expr.value_ofOperands]
  -- Without literals both sides are true, one as a constant and one as an empty conjunction.
  by_cases noLiterals : (p.literals names).isEmpty = true
  · rw [if_pos noLiterals, List.isEmpty_iff.mp noLiterals]
    rfl
  · rw [if_neg noLiterals]
    rfl

theorem mem_of_mem_occurrences_literals {e : Expr} {name : String} (literal : e ∈ p.literals names)
    (occurs : name ∈ e.occurrences) : name ∈ names := by
  obtain ⟨pair, member, made⟩ := List.mem_filterMap.mp literal
  obtain ⟨slot, given⟩ := pair
  have listed : given ∈ names := (List.of_mem_zip member).2
  have same : name = given := by
    cases slot with
    | negated =>
      cases made
      exact List.mem_singleton.mp occurs
    | asserted =>
      cases made
      exact List.mem_singleton.mp occurs
    | absent => cases made
  rw [same]
  exact listed

theorem mem_of_mem_occurrences_term {name : String} (occurs : name ∈ (p.term names).occurrences) :
    name ∈ names := by
  unfold term at occurs
  obtain ⟨e, operand, occursIn⟩ := Expr.mem_occurrences_ofOperands.mp occurs
  by_cases noLiterals : (p.literals names).isEmpty = true
  · rw [if_pos noLiterals, List.mem_singleton] at operand
    rw [operand] at occursIn
    cases occursIn
  · rw [if_neg noLiterals] at operand
    exact mem_of_mem_occurrences_literals operand occursIn

end Pattern

theorem Implicant.toExpr_eq {m : Implicant} {names : List String} (fits : names.length = m.width) :
    m.toExpr names = .ok (m.pattern.term names) := by
  unfold toExpr literals
  rw [if_pos fits]
  rfl

namespace MinimalForm

def sum (form : MinimalForm) (names : List String) : Expr :=
  .ofOperands .or (form.products.map fun m : Implicant => m.pattern.term names)

variable {form : MinimalForm} {names : List String}

theorem toExpr_eq (fits : ∀ m ∈ form.products, names.length = m.width) :
    form.toExpr names = .ok (form.sum names) := by
  unfold toExpr
  rw [Minimization.mapM_eq_ok fun m product => Implicant.toExpr_eq (fits m product)]
  rfl

theorem value_sum (assign : String → Bool) (fits : ∀ m ∈ form.products, names.length = m.width) :
    (form.sum names).value assign = true ↔ ∃ m ∈ form.products, m.pattern.admits (names.map assign) = true := by
  unfold sum
  rw [Expr.value_ofOperands, List.map_map]
  show (form.products.map _).any id = true ↔ _
  simp only [List.any_map, List.any_eq_true, Function.comp_apply, id]
  constructor
  · intro found
    obtain ⟨m, product, isTrue⟩ := found
    exact ⟨m, product, Pattern.value_term assign (fits m product) ▸ isTrue⟩
  · intro found
    obtain ⟨m, product, admitted⟩ := found
    exact ⟨m, product, (Pattern.value_term assign (fits m product)).trans admitted⟩

theorem mem_of_mem_occurrences_sum {name : String} (occurs : name ∈ (form.sum names).occurrences) :
    name ∈ names := by
  obtain ⟨e, operand, occursIn⟩ := Expr.mem_occurrences_ofOperands.mp occurs
  obtain ⟨m, _, rfl⟩ := List.mem_map.mp operand
  exact Pattern.mem_of_mem_occurrences_term occursIn

end MinimalForm

namespace Minimization

/-- Evaluated with the values of a row, the expression is true on a minterm and false on every
other row that is of interest. -/
def Realizes (minterms dontCares : RowSet) (names : List String) (e : Expr) : Prop :=
  ∀ values : List Bool, values.length = names.length →
    (Row.binaryValue values ∈ minterms → e.evalAt names values = .ok true) ∧
    (Row.binaryValue values ∉ minterms → Row.binaryValue values ∉ dontCares → e.evalAt names values = .ok false)

variable {width : Nat} {minterms dontCares : RowSet} {form : MinimalForm}

theorem width_of_mem_products (valid : Valid width minterms dontCares)
    (member : form ∈ (outcomeOf width minterms dontCares).forms) {m : Implicant} (product : m ∈ form.products) :
    m.width = width := by
  obtain ⟨p, prime, rfl⟩ := isPrime_of_mem_products valid member product
  exact prime.length_eq

/-- A form admits the minterms, and otherwise at most rows of no interest. -/
theorem realizes_sum (valid : Valid width minterms dontCares)
    (member : form ∈ (outcomeOf width minterms dontCares).forms) {names : List String}
    (fits : names.length = width) (distinct : names.Nodup) : Realizes minterms dontCares names (form.sum names) := by
  intro values given
  have widths : ∀ m ∈ form.products, names.length = m.width :=
    fun m product => fits.trans (width_of_mem_products valid member product).symm
  -- Different names take their values from the list, so products are tested on the row itself.
  have evaluated := Expr.evalAt_of_listed (e := form.sum names) given fun _ => MinimalForm.mem_of_mem_occurrences_sum
  have isTrue := MinimalForm.value_sum (Expr.assignedBy names values) widths
  rw [Expr.map_assignedBy distinct given] at isTrue
  have matches_iff : ∀ m ∈ form.products,
      (m.pattern.Matches (Row.binaryValue values) ↔ m.pattern.admits values = true) :=
    fun m product => Pattern.matches_binaryValue (given.trans (widths m product))
  constructor
  · intro minterm
    obtain ⟨m, product, matched⟩ := exists_product_of_minterm valid member minterm
    rw [evaluated, isTrue.mpr ⟨m, product, (matches_iff m product).mp matched⟩]
  · intro notMinterm notDontCare
    have isFalse : ¬(form.sum names).value (Expr.assignedBy names values) = true := by
      intro admitted
      obtain ⟨m, product, admits⟩ := isTrue.mp admitted
      have matched := (matches_iff m product).mpr admits
      obtain ⟨p, prime, rfl⟩ := isPrime_of_mem_products valid member product
      exact (prime.implicant _ matched).elim notMinterm notDontCare
    rw [evaluated, Bool.eq_false_iff.mpr isFalse]

/-- Only a function without minterms has an empty form, and it has no other. -/
theorem forms_eq_of_isEmpty (valid : Valid width minterms dontCares)
    (member : form ∈ (outcomeOf width minterms dontCares).forms) (empty : form.isEmpty = true) :
    (outcomeOf width minterms dontCares).forms = [⟨[]⟩] := by
  have noMinterms : minterms.toList = [] := by
    apply List.eq_nil_iff_forall_not_mem.mpr
    intro row minterm
    obtain ⟨m, product, _⟩ := exists_product_of_minterm valid member minterm
    exact absurd product (List.isEmpty_iff.mp empty ▸ List.not_mem_nil)
  unfold outcomeOf
  dsimp only
  rw [noMinterms]
  exact forms_of_no_minterms

/-- The expressions are the sums of the forms. A function that is never true is no exception: the
sum of its only form is the constant false. -/
theorem expressions_eq (valid : Valid width minterms dontCares) {vars : List String} (count : vars.length = width) :
    expressions ⟨vars, minterms, dontCares, some (outcomeOf width minterms dontCares)⟩ =
      .ok ((outcomeOf width minterms dontCares).forms.map (·.sum vars)) := by
  by_cases empty : (outcomeOf width minterms dontCares).forms.any MinimalForm.isEmpty = true
  · obtain ⟨form, member, isEmpty⟩ := List.any_eq_true.mp empty
    refine (if_pos empty).trans ?_
    rw [forms_eq_of_isEmpty valid member isEmpty]
    rfl
  · have each : ∀ form ∈ (outcomeOf width minterms dontCares).forms, form.toExpr vars = .ok (form.sum vars) :=
      fun form member => MinimalForm.toExpr_eq fun m product =>
        count.trans (width_of_mem_products valid member product).symm
    exact (if_neg empty).trans (mapM_eq_ok each)

/-- Over the variables of the function, each minimal form yields a sum of products that has
the value of the function. -/
theorem expressions_eq_ok (valid : Valid width minterms dontCares) {vars : List String}
    (count : vars.length = width) (distinct : vars.Nodup) :
    ∃ trees, expressions ⟨vars, minterms, dontCares, some (outcomeOf width minterms dontCares)⟩ = .ok trees ∧
      trees ≠ [] ∧ ∀ tree ∈ trees, Realizes minterms dontCares vars tree := by
  refine ⟨_, expressions_eq valid count, fun empty => forms_ne_nil valid (List.map_eq_nil_iff.mp empty), ?_⟩
  intro tree listed
  obtain ⟨form, member, rfl⟩ := List.mem_map.mp listed
  exact realizes_sum valid member count distinct

/-- A minimization without a limit has minimal forms, and each of them realizes the function over
any different names. So do the expressions over the variables of the function. -/
theorem forms_sound (minterms dontCares : RowSet) (vars : List String) (settings : Settings)
    (valid : Valid vars.length minterms dontCares) (distinct : vars.Nodup) (noLimit : settings.coverLimit = none) :
    ∃ m forms trees, (run minterms dontCares vars settings).outcome = .ok m ∧
      m.forms = .ok forms ∧ forms ≠ [] ∧
      (∀ form ∈ forms, ∀ names : List String, names.length = vars.length → names.Nodup →
        ∃ e, form.toExpr names = .ok e ∧ Realizes minterms dontCares names e) ∧
      m.expressions = .ok trees ∧ trees ≠ [] ∧ ∀ tree ∈ trees, Realizes minterms dontCares vars tree := by
  obtain ⟨trees, found, nonempty, realized⟩ := expressions_eq_ok valid rfl distinct
  refine ⟨_, _, trees, outcome_run_of_no_limit valid noLimit, rfl, forms_ne_nil valid, ?_, found, nonempty, realized⟩
  intro form member names fits namesDistinct
  have widths : ∀ m ∈ form.products, names.length = m.width :=
    fun m product => fits.trans (width_of_mem_products valid member product).symm
  exact ⟨form.sum names, MinimalForm.toExpr_eq widths, realizes_sum valid member fits namesDistinct⟩

/-- With the variables renamed, every form of a function of four variables is true on row 8. -/
theorem forms_sound_renamed :
    ∃ m forms, (run (.ofList [4, 8, 10, 11, 12, 15]) (.ofList [9, 14]) ["A", "B", "C", "D"] {}).outcome = .ok m ∧
      m.forms = .ok forms ∧ ∀ form ∈ forms, ∃ e, form.toExpr ["W", "X", "Y", "Z"] = .ok e ∧
        e.evalAt ["W", "X", "Y", "Z"] [true, false, false, false] = .ok true := by
  obtain ⟨m, forms, _, done, found, _, realized, _⟩ :=
    forms_sound (.ofList [4, 8, 10, 11, 12, 15]) (.ofList [9, 14]) ["A", "B", "C", "D"] {} (by decide) (by decide) rfl
  refine ⟨m, forms, done, found, fun form member => ?_⟩
  obtain ⟨e, made, realizes⟩ := realized form member ["W", "X", "Y", "Z"] rfl (by decide)
  exact ⟨e, made, (realizes [true, false, false, false] rfl).1 (by decide)⟩

end Minimization

end TwoLevel
