import TwoLevel.Proofs.TruthTables

/-! The rows on which an expression is true and those on which it is false. Over any list of
names, repeated or missing ones too, either both cannot be found for one reason, or they part
the table between them. -/

set_option autoImplicit false

namespace TwoLevel

theorem SortedSet.toList_ofList {rows : List Row} (ascending : rows.Pairwise (· < ·)) :
    (SortedSet.ofList rows).toList = rows := by
  have same : SortedSet.ofList rows = ⟨rows, ascending⟩ := SortedSet.ext_of_mem fun _ => SortedSet.mem_ofList
  rw [same]

/-- In a table of a size that is allowed, a row is the row of its assignment. -/
theorem Row.ofAssignment_assignment {width : Nat} {row : Row} (few : width ≤ Table.limit)
    (small : row < Row.count width) : Row.ofAssignment (row.assignment width) = row := by
  have short : (row.assignment width).length ≤ 64 := by
    rw [Row.length_assignment]
    exact Nat.le_trans few (by decide)
  rw [Row.ofAssignment_of_le short, Row.binaryValue_assignment_of_lt small]

namespace Table

section Walk

variable {value : Row → Except EvalError Bool} {rows : List Row}

theorem select_of_defined (defined : ∀ row ∈ rows, ∃ b, value row = .ok b) (expected : Bool) (kept : List Row) :
    select (fun row => (value row).map (· == expected)) kept rows =
      .ok (kept.reverse ++ rows.filter fun row => value row = .ok expected) := by
  refine select_eq_ok (fun row member => ?_) kept
  obtain ⟨b, found⟩ := defined row member
  rw [found]
  cases b <;> cases expected <;> rfl

/-- A walk that fails on some row fails for the same reason whichever value is wanted. -/
theorem defined_or_select_eq_error (value : Row → Except EvalError Bool) (rows : List Row) :
    (∀ row ∈ rows, ∃ b, value row = .ok b) ∨
      ∃ error, (∃ row ∈ rows, value row = .error error) ∧
        ∀ (expected : Bool) (kept : List Row),
          select (fun row => (value row).map (· == expected)) kept rows = .error error := by
  induction rows with
  | nil => exact .inl fun row member => absurd member List.not_mem_nil
  | cons row rest ih =>
    cases found : value row with
    | error error =>
      refine .inr ⟨error, ⟨row, List.mem_cons_self, found⟩, fun expected kept => ?_⟩
      rw [select, found]
      rfl
    | ok b =>
      obtain defined | ⟨error, ⟨other, member, failed⟩, walked⟩ := ih
      · exact .inl (List.forall_mem_cons.mpr ⟨⟨b, found⟩, defined⟩)
      · refine .inr ⟨error, ⟨other, List.mem_cons_of_mem row member, failed⟩, fun expected kept => ?_⟩
        rw [select, found]
        exact walked expected _

end Walk

variable {names : List String} {e : Expr}

/-- The rows of the table whose assignments give the expression the value. -/
def rowsHaving (names : List String) (e : Expr) (expected : Bool) : List Row :=
  (List.range (Row.count names.length)).filter fun row => valueAt names e row = .ok expected

theorem mem_rowsHaving {expected : Bool} {row : Row} :
    row ∈ rowsHaving names e expected ↔ row < Row.count names.length ∧ valueAt names e row = .ok expected := by
  rw [rowsHaving, List.mem_filter, List.mem_range, decide_eq_true_eq]

theorem not_mem_rowsHaving_false {row : Row} (isTrue : row ∈ rowsHaving names e true) :
    row ∉ rowsHaving names e false := by
  intro isFalse
  cases (mem_rowsHaving.mp isTrue).2.symm.trans (mem_rowsHaving.mp isFalse).2

theorem mem_rowsHaving_or_iff {row : Row}
    (defined : ∀ row < Row.count names.length, ∃ b, valueAt names e row = .ok b) :
    row ∈ rowsHaving names e true ∨ row ∈ rowsHaving names e false ↔ row < Row.count names.length := by
  simp only [mem_rowsHaving]
  refine ⟨fun either => either.elim And.left And.left, fun small => ?_⟩
  obtain ⟨b, value⟩ := defined row small
  cases b with
  | true => exact .inl ⟨small, value⟩
  | false => exact .inr ⟨small, value⟩

theorem ascending_rowsHaving (expected : Bool) : (rowsHaving names e expected).Pairwise (· < ·) :=
  List.pairwise_lt_range.filter _

/-- A table of a size that is allowed is either walked to its end, or some row of it has no value. -/
theorem rowsWhere_cases (few : names.length ≤ limit) :
    ((∀ row < Row.count names.length, ∃ b, valueAt names e row = .ok b) ∧
      ∀ expected, rowsWhere names e expected = .ok (rowsHaving names e expected)) ∨
    ∃ error row, valueAt names e row = .error error ∧ ∀ expected, rowsWhere names e expected = .error error := by
  unfold rowsWhere Table.rows
  rw [if_pos few]
  obtain defined | ⟨error, ⟨row, _, failed⟩, walked⟩ :=
    defined_or_select_eq_error (valueAt names e) (List.range (Row.count names.length))
  · refine .inl ⟨fun row small => defined row (List.mem_range.mpr small), fun expected => ?_⟩
    exact select_of_defined defined expected []
  · exact .inr ⟨error, row, failed, fun expected => walked expected []⟩

theorem unknown_of_valueAt {row : Row} {error : EvalError} (failed : valueAt names e row = .error error) :
    ∃ name ∈ e.occurrences, name ∉ names ∧ error = .unknownVariable name := by
  have fits := Row.length_assignment names.length row
  rw [valueAt, Expr.evalAt, if_pos fits] at failed
  obtain ⟨name, occurs, unknown, same⟩ := Expr.unknown_of_eval failed
  exact ⟨name, occurs, (Expr.lookupIn_eq_none_iff fits).mp unknown, same⟩

/-- The assignments of the rows lead back to the rows. -/
theorem map_ofAssignment_rowsHaving (few : names.length ≤ limit) (expected : Bool) :
    ((rowsHaving names e expected).map (Row.assignment names.length)).map Row.ofAssignment =
      rowsHaving names e expected := by
  rw [List.map_map]
  refine (List.map_congr_left fun row member => ?_).trans (List.map_id _)
  exact Row.ofAssignment_assignment few (mem_rowsHaving.mp member).1

/-- Over any list of names, the rows where an expression is true and the rows where it is false cannot be
found for one reason, which is the size of the table or a name that is missing, or else they part the
rows of the table between them. The assignments that are found are those of the rows, in their order. -/
theorem minterms_maxterms_partition (names : List String) (e : Expr) :
    (∃ error, minterms names e = .error error ∧ maxterms names e = .error error ∧
        (∀ expected, assignmentsWhere names e expected = .error error) ∧
        (24 < names.length → error = .tooManyVariables names.length 24) ∧
        (names.length ≤ 24 → ∃ name ∈ e.occurrences, name ∉ names ∧ error = .unknownVariable name)) ∨
      names.length ≤ 24 ∧ ∃ rows : Bool → RowSet,
        minterms names e = .ok (rows true) ∧ maxterms names e = .ok (rows false) ∧
        (∀ row ∈ rows true, row ∉ rows false) ∧
        (∀ row, row ∈ rows true ∨ row ∈ rows false ↔ row < 2 ^ names.length) ∧
        ∀ expected, (∀ row < 2 ^ names.length,
            row ∈ rows expected ↔ e.evalAt names (row.assignment names.length) = .ok expected) ∧
          ∃ found, assignmentsWhere names e expected = .ok found ∧
            found = (rows expected).toList.map (Row.assignment names.length) ∧
            found.map Row.ofAssignment = (rows expected).toList ∧
            (found.map Row.ofAssignment).Pairwise (· < ·) := by
  unfold minterms maxterms assignmentsWhere
  rw [← Row.count_eq]
  rcases Nat.lt_or_ge 24 names.length with many | few
  · refine .inl ⟨.tooManyVariables names.length 24, ?_⟩
    have refused := rowsWhere_eq_error (e := e) many
    refine ⟨by rw [refused]; rfl, by rw [refused]; rfl, fun expected => by rw [refused]; rfl, fun _ => rfl, ?_⟩
    exact fun few => absurd few (Nat.not_le.mpr many)
  · obtain ⟨defined, walked⟩ | ⟨error, row, failed, walked⟩ := rowsWhere_cases (e := e) few
    · refine .inr ⟨few, fun expected => .ofList (rowsHaving names e expected), ?_⟩
      refine ⟨by rw [walked]; rfl, by rw [walked]; rfl, ?_⟩
      simp only [SortedSet.mem_ofList, SortedSet.toList_ofList (ascending_rowsHaving _)]
      refine ⟨fun row => not_mem_rowsHaving_false, fun row => mem_rowsHaving_or_iff defined, fun expected => ?_⟩
      refine ⟨?value, ?found⟩
      case value =>
        intro row small
        rw [mem_rowsHaving, and_iff_right small]
        rfl
      case found =>
        rw [walked]
        refine ⟨_, rfl, rfl, map_ofAssignment_rowsHaving few expected, ?_⟩
        rw [map_ofAssignment_rowsHaving few]
        exact ascending_rowsHaving expected
    · refine .inl ⟨error, by rw [walked]; rfl, by rw [walked]; rfl, fun expected => by rw [walked]; rfl, ?_, ?_⟩
      · exact fun many => absurd few (Nat.not_le.mpr many)
      · exact fun _ => unknown_of_valueAt failed

/-- The first two rows do without the name that is missing, and still both searches fail for it. More than
24 names are too many even if they are all one. Of a repeated name the last one counts. -/
theorem minterms_maxterms_partition_unusual :
    (minterms ["A", "B"] (.nary .and [.var "A", .var "Q"]) = .error (.unknownVariable "Q") ∧
        maxterms ["A", "B"] (.nary .and [.var "A", .var "Q"]) = .error (.unknownVariable "Q")) ∧
      minterms (List.replicate 25 "A") (.const true) = .error (.tooManyVariables 25 24) ∧
      ∃ rows, minterms ["A", "B", "A"] (.nary .and [.var "A", .not (.var "B")]) = .ok rows ∧ 5 ∈ rows ∧ 4 ∉ rows := by
  refine ⟨?_, ?_, ?_⟩
  · obtain ⟨error, isTrue, isFalse, _, _, missing⟩ | ⟨_, rows, _, _, _, whole, value⟩ :=
      minterms_maxterms_partition ["A", "B"] (.nary .and [.var "A", .var "Q"])
    · obtain ⟨name, occurs, unlisted, rfl⟩ := missing (by decide)
      have isQ : name = "Q" := by
        rcases List.mem_cons.mp occurs with rfl | later
        · exact absurd List.mem_cons_self unlisted
        · exact List.mem_singleton.mp later
      subst isQ
      exact ⟨isTrue, isFalse⟩
    · -- The third row has no value, but a table that is parted gives it one.
      have undefined : ∀ b, Expr.evalAt ["A", "B"] (Row.assignment 2 2) (.nary .and [.var "A", .var "Q"]) ≠ .ok b := by
        decide
      rcases (whole 2).mpr (by decide) with isTrue | isFalse
      · exact absurd (((value true).1 2 (by decide)).mp isTrue) (undefined true)
      · exact absurd (((value false).1 2 (by decide)).mp isFalse) (undefined false)
  · obtain ⟨error, isTrue, _, _, many, _⟩ | ⟨few, _⟩ :=
      minterms_maxterms_partition (List.replicate 25 "A") (.const true)
    · rw [isTrue, many (by decide)]
      rfl
    · exact absurd few (by decide)
  · obtain ⟨error, _, _, _, _, missing⟩ | ⟨_, rows, isTrue, _, _, _, value⟩ :=
      minterms_maxterms_partition ["A", "B", "A"] (.nary .and [.var "A", .not (.var "B")])
    · have listed : ∀ name ∈ Expr.occurrences (.nary .and [.var "A", .not (.var "B")]), name ∈ ["A", "B", "A"] := by
        decide
      obtain ⟨name, occurs, unlisted, _⟩ := missing (by decide)
      exact absurd (listed name occurs) unlisted
    · refine ⟨rows true, isTrue, ((value true).1 5 (by decide)).mpr (by decide), ?_⟩
      rw [(value true).1 4 (by decide)]
      decide

end Table

end TwoLevel
