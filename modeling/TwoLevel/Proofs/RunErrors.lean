import Mathlib.Order.Bounds.Defs
import TwoLevel.Proofs.Minimization

/-! How a minimization ends. Without variables there is nothing to do. Otherwise the smallest row
that is both a minterm and of no interest is reported, then the smallest minterm out of range, then
the smallest such row of no interest. Rows that pass these tests are minimized, and only the limit
on the cover search can prevent that: every minterm has a prime implicant, and the implicants that
the search puts together are all of one width. -/

set_option autoImplicit false

namespace TwoLevel

variable {width : Nat} {minterms dontCares : RowSet}

theorem SortedSet.isLeast_of_filter {rows : RowSet} {test : Row → Bool} {row : Row} {rest : List Row}
    (found : rows.toList.filter test = row :: rest) : IsLeast {row | row ∈ rows ∧ test row = true} row := by
  have ascending : (row :: rest).Pairwise (· < ·) := found ▸ rows.ascending.filter test
  have member : row ∈ rows.toList.filter test := found ▸ List.mem_cons_self
  refine ⟨List.mem_filter.mp member, fun other known => ?_⟩
  have listed : other ∈ row :: rest := found ▸ List.mem_filter.mpr known
  rcases List.mem_cons.mp listed with rfl | later
  · exact Nat.le_refl _
  · exact Nat.le_of_lt (List.rel_of_pairwise_cons ascending later)

namespace Column

variable {k : Nat}

theorem Holds.width_of_mem_passes {column pass : Column} (holds : column.Holds width minterms dontCares k)
    (inPasses : pass ∈ column.passes) {m : Implicant} (member : m ∈ pass.flatten) : m.width = width := by
  obtain ⟨i, found⟩ := List.mem_iff_getElem?.mp inPasses
  obtain ⟨source, holdsSource, rfl⟩ := holds.exists_of_getElem?_passes found
  rw [holdsSource.flatten_mark] at member
  obtain ⟨unmarked, inSource, rfl⟩ := List.mem_map.mp member
  obtain ⟨p, inColumn, rfl⟩ := holdsSource.mem_flatten_iff_inColumn.mp inSource
  exact inColumn.length_eq

end Column

namespace Minimization

/-- The rows that are given both as minterms and as rows of no interest. -/
def sharedRows (minterms dontCares : RowSet) : Set Row := {row | row ∈ minterms ∧ row ∈ dontCares}

/-- The rows of a set that a table over `width` variables does not have. -/
def rowsBeyond (width : Nat) (rows : RowSet) : Set Row := {row | row ∈ rows ∧ 2 ^ width ≤ row}

section Rows

theorem not_mem_of_sharedRows_eq_empty (apart : sharedRows minterms dontCares = ∅) {row : Row}
    (minterm : row ∈ minterms) : row ∉ dontCares :=
  fun dontCare => Set.eq_empty_iff_forall_notMem.mp apart row ⟨minterm, dontCare⟩

theorem lt_count_of_rowsBeyond_eq_empty {rows : RowSet} (inRange : rowsBeyond width rows = ∅) {row : Row}
    (member : row ∈ rows) : row < Row.count width := by
  rw [Row.count_eq]
  exact Nat.lt_of_not_le fun beyond => Set.eq_empty_iff_forall_notMem.mp inRange row ⟨member, beyond⟩

theorem exists_common_of_nonempty (shared : (sharedRows minterms dontCares).Nonempty) :
    ∃ row rest, minterms.common dontCares = row :: rest ∧ IsLeast (sharedRows minterms dontCares) row := by
  obtain ⟨row, known⟩ := shared
  obtain ⟨first, rest, found⟩ := List.exists_cons_of_ne_nil (List.ne_nil_of_mem (SortedSet.mem_common.mpr known))
  have least := SortedSet.isLeast_of_filter found
  simp only [decide_eq_true_eq] at least
  exact ⟨first, rest, found, least⟩

theorem common_eq_nil (apart : sharedRows minterms dontCares = ∅) : minterms.common dontCares = [] := by
  apply List.eq_nil_iff_forall_not_mem.mpr
  intro row member
  obtain ⟨minterm, dontCare⟩ := SortedSet.mem_common.mp member
  exact not_mem_of_sharedRows_eq_empty apart minterm dontCare

/-- The implicants of the rows are made one after the other, up to the first row out of range. -/
theorem mapM_ofRow_of_filter {flag : Bool} (positive : 0 < width) {rows rest : List Row} {row : Row}
    (found : rows.filter (fun row => decide (2 ^ width ≤ row)) = row :: rest) :
    rows.mapM (Implicant.ofRow width flag) = .error (.rowOutOfRange row width) := by
  induction rows with
  | nil => cases found
  | cons first rows ih =>
    rw [List.mapM_cons, Implicant.ofRow, if_neg (Nat.not_lt.mpr positive), Row.count_eq]
    by_cases beyond : 2 ^ width ≤ first
    · rw [List.filter_cons, if_pos (decide_eq_true beyond)] at found
      cases found
      rw [if_neg (Nat.not_lt.mpr beyond)]
      rfl
    · rw [List.filter_cons_of_neg (by simpa using beyond)] at found
      rw [if_pos (Nat.lt_of_not_le beyond), ih found]
      rfl

theorem mapM_ofRow_eq_ok (flag : Bool) (positive : 0 < width) {rows : List Row}
    (inRange : ∀ row ∈ rows, row < Row.count width) :
    ∃ implicants, rows.mapM (Implicant.ofRow width flag) = .ok implicants := by
  have each : ∀ row ∈ rows, Implicant.ofRow width flag row =
      .ok ⟨.ofAssignment (row.assignment width), SortedSet.ofList [row], flag, false⟩ := by
    intro row member
    exact Implicant.ofRow_eq_ok_iff.mpr ⟨positive, inRange row member, rfl⟩
  exact ⟨_, mapM_eq_ok each⟩

theorem exists_mapM_ofRow_of_nonempty {rows : RowSet} (flag : Bool) (positive : 0 < width)
    (beyond : (rowsBeyond width rows).Nonempty) :
    ∃ row, IsLeast (rowsBeyond width rows) row ∧
      rows.toList.mapM (Implicant.ofRow width flag) = .error (.rowOutOfRange row width) := by
  obtain ⟨row, member, above⟩ := beyond
  have listed : row ∈ rows.toList.filter fun row => decide (2 ^ width ≤ row) :=
    List.mem_filter.mpr ⟨member, decide_eq_true above⟩
  obtain ⟨first, rest, found⟩ := List.exists_cons_of_ne_nil (List.ne_nil_of_mem listed)
  have least := SortedSet.isLeast_of_filter found
  simp only [decide_eq_true_eq] at least
  exact ⟨first, least, mapM_ofRow_of_filter positive found⟩

end Rows

section Outcome

variable {vars : List String} (settings : Settings)

theorem outcome_run_of_common {row : Row} {rest : List Row} (named : vars ≠ [])
    (found : minterms.common dontCares = row :: rest) :
    (run minterms dontCares vars settings).outcome = .error (.overlap row) := by
  unfold run
  rw [if_neg (mt List.isEmpty_iff.mp named), found]
  rfl

theorem outcome_run_of_base_error {error : MinimizeError} (named : vars ≠ [])
    (apart : sharedRows minterms dontCares = ∅) (failed : base vars.length minterms dontCares = .error error) :
    (run minterms dontCares vars settings).outcome = .error error := by
  unfold run search
  rw [if_neg (mt List.isEmpty_iff.mp named), common_eq_nil apart]
  simp only [Logged.outcome_bind, Logged.outcome_log, Logged.outcome_ofExcept, failed]
  rfl

/-- The minterms are tested before the rows of no interest. -/
theorem exists_base_error_of_minterm (dontCares : RowSet) (positive : 0 < width)
    (beyond : (rowsBeyond width minterms).Nonempty) :
    ∃ row, IsLeast (rowsBeyond width minterms) row ∧
      base width minterms dontCares = .error (.rowOutOfRange row width) := by
  obtain ⟨row, least, failed⟩ := exists_mapM_ofRow_of_nonempty false positive beyond
  refine ⟨row, least, ?_⟩
  unfold base
  rw [failed]
  rfl

theorem exists_base_error_of_dontCare (positive : 0 < width) (inRange : rowsBeyond width minterms = ∅)
    (beyond : (rowsBeyond width dontCares).Nonempty) :
    ∃ row, IsLeast (rowsBeyond width dontCares) row ∧
      base width minterms dontCares = .error (.rowOutOfRange row width) := by
  have small : ∀ row ∈ minterms.toList, row < Row.count width :=
    fun row member => lt_count_of_rowsBeyond_eq_empty inRange member
  obtain ⟨required, made⟩ := mapM_ofRow_eq_ok false positive small
  obtain ⟨row, least, failed⟩ := exists_mapM_ofRow_of_nonempty true positive beyond
  refine ⟨row, least, ?_⟩
  unfold base
  rw [made, failed]
  rfl

theorem valid_of_eq_empty (named : vars ≠ []) (apart : sharedRows minterms dontCares = ∅)
    (mintermsInRange : rowsBeyond vars.length minterms = ∅) (dontCaresInRange : rowsBeyond vars.length dontCares = ∅) :
    Valid vars.length minterms dontCares where
  positive := List.length_pos_iff.mpr named
  disjoint := fun _ => not_mem_of_sharedRows_eq_empty apart
  inRange := fun _ member => member.elim (lt_count_of_rowsBeyond_eq_empty mintermsInRange)
    (lt_count_of_rowsBeyond_eq_empty dontCaresInRange)

/-- Rows that fail one of the tests are reported. -/
theorem valid_or_outcome_run_eq_error (minterms dontCares : RowSet) (named : vars ≠ []) :
    Valid vars.length minterms dontCares ∨
      (∃ row, (run minterms dontCares vars settings).outcome = .error (.overlap row)) ∨
      ∃ row, (run minterms dontCares vars settings).outcome = .error (.rowOutOfRange row vars.length) := by
  have positive := List.length_pos_iff.mpr named
  rcases Set.eq_empty_or_nonempty (sharedRows minterms dontCares) with apart | shared
  · rcases Set.eq_empty_or_nonempty (rowsBeyond vars.length minterms) with mintermsInRange | beyond
    · rcases Set.eq_empty_or_nonempty (rowsBeyond vars.length dontCares) with dontCaresInRange | beyond
      · exact .inl (valid_of_eq_empty named apart mintermsInRange dontCaresInRange)
      · obtain ⟨row, _, failed⟩ := exists_base_error_of_dontCare positive mintermsInRange beyond
        exact .inr (.inr ⟨row, outcome_run_of_base_error settings named apart failed⟩)
    · obtain ⟨row, _, failed⟩ := exists_base_error_of_minterm dontCares positive beyond
      exact .inr (.inr ⟨row, outcome_run_of_base_error settings named apart failed⟩)
  · obtain ⟨row, _, found, _⟩ := exists_common_of_nonempty shared
    exact .inr (.inl ⟨row, outcome_run_of_common settings named found⟩)

/-- Nothing but these tests and the limit can make a minimization fail. -/
theorem outcome_run_cases (minterms dontCares : RowSet) (vars : List String) :
    (∃ m, (run minterms dontCares vars settings).outcome = .ok m) ∨
      (∃ row, (run minterms dontCares vars settings).outcome = .error (.overlap row)) ∨
      (∃ row, (run minterms dontCares vars settings).outcome = .error (.rowOutOfRange row vars.length)) ∨
      ∃ limit, (run minterms dontCares vars settings).outcome = .error (.coverLimit limit) := by
  by_cases named : vars = []
  · subst named
    exact .inl ⟨_, rfl⟩
  rcases valid_or_outcome_run_eq_error settings minterms dontCares named with valid | overlap | outOfRange
  · rcases outcome_run valid settings with done | ⟨limit, _, exceeded⟩
    · exact .inl ⟨_, done⟩
    · exact .inr (.inr (.inr ⟨limit, exceeded⟩))
  · exact .inr (.inl overlap)
  · exact .inr (.inr (.inl outOfRange))

/-- Only rows that pass the tests are minimized, and the limit has no influence on what is found. -/
theorem valid_of_outcome_run_eq_ok {m : Minimization} (named : vars ≠ [])
    (done : (run minterms dontCares vars settings).outcome = .ok m) :
    Valid vars.length minterms dontCares ∧
      m = ⟨vars, minterms, dontCares, some (outcomeOf vars.length minterms dontCares)⟩ := by
  rcases valid_or_outcome_run_eq_error settings minterms dontCares named with valid | ⟨_, failed⟩ | ⟨_, failed⟩
  · rcases outcome_run valid settings with ended | ⟨limit, _, exceeded⟩
    · exact ⟨valid, Except.ok.inj (done.symm.trans ended)⟩
    · cases done.symm.trans exceeded
  · cases done.symm.trans failed
  · cases done.symm.trans failed

/-- Any two implicants of a column that the search comes to have the same width. -/
theorem combine_eq_ok (valid : Valid width minterms dontCares) {implicants : List Implicant}
    (made : base width minterms dontCares = .ok implicants) {column : Column}
    (inPasses : column ∈ (Column.initial width implicants).passes) {a b : Implicant} (first : a ∈ column.flatten)
    (second : b ∈ column.flatten) : ∃ combination, a.combine b = .ok combination := by
  cases (base_eq valid).symm.trans made
  have holds := holds_initial valid
  have same : a.width = b.width :=
    (holds.width_of_mem_passes inPasses first).trans (holds.width_of_mem_passes inPasses second).symm
  exact ⟨_, if_pos same⟩

end Outcome

/-- How a minimization ends, whatever it is given. Without variables it has no outcome and no
error. Otherwise the first of three tests that fails is reported with the smallest row at fault: no
row is given twice, the minterms are in range, the rows of no interest are in range. If all
succeed there is an outcome, unless a limit is set and exceeded; combining implicants never fails
on the way. So a minimization never reports an uncovered minterm, different widths or a missing
outcome. -/
theorem run_classified (minterms dontCares : RowSet) (vars : List String) (settings : Settings) :
    (vars = [] → ∃ m, (run minterms dontCares vars settings).outcome = .ok m ∧ m.isReady = false) ∧
    (vars ≠ [] →
      ((sharedRows minterms dontCares).Nonempty → ∃ row, IsLeast (sharedRows minterms dontCares) row ∧
        (run minterms dontCares vars settings).outcome = .error (.overlap row)) ∧
      (sharedRows minterms dontCares = ∅ →
        ((rowsBeyond vars.length minterms).Nonempty → ∃ row, IsLeast (rowsBeyond vars.length minterms) row ∧
          (run minterms dontCares vars settings).outcome = .error (.rowOutOfRange row vars.length)) ∧
        (rowsBeyond vars.length minterms = ∅ →
          ((rowsBeyond vars.length dontCares).Nonempty → ∃ row, IsLeast (rowsBeyond vars.length dontCares) row ∧
            (run minterms dontCares vars settings).outcome = .error (.rowOutOfRange row vars.length)) ∧
          (rowsBeyond vars.length dontCares = ∅ →
            ((∃ m, (run minterms dontCares vars settings).outcome = .ok m ∧ m.isReady = true) ∨
              ∃ limit, settings.coverLimit = some limit ∧
                (run minterms dontCares vars settings).outcome = .error (.coverLimit limit)) ∧
            ∃ implicants, base vars.length minterms dontCares = .ok implicants ∧
              ∀ column ∈ (Column.initial vars.length implicants).passes,
                ∀ a ∈ column.flatten, ∀ b ∈ column.flatten, ∃ combination, a.combine b = .ok combination)))) ∧
    (∀ row, (run minterms dontCares vars settings).outcome ≠ .error (.uncovered row)) ∧
    (∀ expected found, (run minterms dontCares vars settings).outcome ≠ .error (.widthMismatch expected found)) ∧
    (run minterms dontCares vars settings).outcome ≠ .error .notReady := by
  refine ⟨?empty, fun named => ⟨?shared, fun apart => ⟨?minterm, fun mintermsInRange => ⟨?dontCare, ?valid⟩⟩⟩, ?internal⟩
  case empty =>
    intro noVars
    subst noVars
    exact ⟨_, rfl, rfl⟩
  case shared =>
    intro shared
    obtain ⟨row, _, found, least⟩ := exists_common_of_nonempty shared
    exact ⟨row, least, outcome_run_of_common settings named found⟩
  case minterm =>
    intro beyond
    obtain ⟨row, least, failed⟩ :=
      exists_base_error_of_minterm dontCares (List.length_pos_iff.mpr named) beyond
    exact ⟨row, least, outcome_run_of_base_error settings named apart failed⟩
  case dontCare =>
    intro beyond
    obtain ⟨row, least, failed⟩ :=
      exists_base_error_of_dontCare (List.length_pos_iff.mpr named) mintermsInRange beyond
    exact ⟨row, least, outcome_run_of_base_error settings named apart failed⟩
  case valid =>
    intro dontCaresInRange
    have valid := valid_of_eq_empty named apart mintermsInRange dontCaresInRange
    refine ⟨?_, _, base_eq valid, fun column inPasses a first b second =>
      combine_eq_ok valid (base_eq valid) inPasses first second⟩
    rcases outcome_run valid settings with done | exceeded
    · exact .inl ⟨_, done, rfl⟩
    · exact .inr exceeded
  case internal =>
    rcases outcome_run_cases settings minterms dontCares vars with ⟨_, ended⟩ | ⟨_, ended⟩ | ⟨_, ended⟩ | ⟨_, ended⟩ <;>
      simp [ended]

/-- Rows 3 and 5 are given twice, and row 9 is out of range. -/
theorem run_classified_shared :
    (run (.ofList [1, 3, 5, 9]) (.ofList [2, 3, 5]) ["A", "B", "C"] {}).outcome = .error (.overlap 3) := by
  obtain ⟨_, classified, _⟩ := run_classified (.ofList [1, 3, 5, 9]) (.ofList [2, 3, 5]) ["A", "B", "C"] {}
  have shared : (3 : Row) ∈ sharedRows (.ofList [1, 3, 5, 9]) (.ofList [2, 3, 5]) := ⟨by decide, by decide⟩
  obtain ⟨row, least, failed⟩ := (classified (by decide)).1 ⟨3, shared⟩
  have small : row ≤ 3 := least.2 shared
  have minterm : row ∈ SortedSet.ofList [1, 3, 5, 9] := least.1.1
  have dontCare : row ∈ SortedSet.ofList [2, 3, 5] := least.1.2
  rw [SortedSet.mem_ofList] at minterm dontCare
  rw [failed]
  simp only [List.mem_cons, List.not_mem_nil, or_false] at dontCare
  rcases dontCare with rfl | rfl | rfl
  · exact absurd minterm (by decide)
  · rfl
  · exact absurd small (by decide)

end Minimization

end TwoLevel
