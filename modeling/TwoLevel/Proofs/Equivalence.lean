import Mathlib.Data.Finset.Card
import Mathlib.Data.Finset.Union
import TwoLevel.Proofs.TruthTables

/-! Equivalence of expressions. The walk through the table over the names of both expressions
decides whether they have the same value under every assignment, and nothing but the number of
the names can stand in its way. -/

set_option autoImplicit false

namespace TwoLevel

namespace Table

variable {names : List String} {a b : Expr}

theorem agreeOn_eq_ok (listedFirst : ∀ name ∈ a.occurrences, name ∈ names)
    (listedSecond : ∀ name ∈ b.occurrences, name ∈ names) (rows : List Row) :
    agreeOn names a b rows = .ok (rows.all fun row => valueIn names a row == valueIn names b row) := by
  induction rows with
  | nil => rfl
  | cons row rest ih =>
    rw [agreeOn, valueAt_eq_ok listedFirst, valueAt_eq_ok listedSecond, List.all_cons]
    by_cases same : valueIn names a row = valueIn names b row
    · simp [same, ih]
    · simp [same]

/-- The rows of a table reach every assignment, as far as it matters for the expressions. -/
theorem agree_iff (listedFirst : ∀ name ∈ a.occurrences, name ∈ names)
    (listedSecond : ∀ name ∈ b.occurrences, name ∈ names) :
    (∀ row < Row.count names.length, valueIn names a row = valueIn names b row) ↔
      ∀ assign : String → Bool, a.value assign = b.value assign := by
  constructor
  · intro agree assign
    have same := agree _ (binaryValue_map_lt_count names assign)
    rwa [valueIn_binaryValue listedFirst, valueIn_binaryValue listedSecond] at same
  · intro same row _
    exact same _

end Table

namespace Expr

variable {a b : Expr}

theorem mem_jointVariables {name : String} : name ∈ a.jointVariables b ↔ name ∈ a.vars ∨ name ∈ b.vars := by
  rw [mem_vars, mem_vars, ← List.mem_append]
  exact SortedSet.mem_ofList

theorem nodup_jointVariables : (a.jointVariables b).Nodup :=
  (SortedSet.ofList (a.occurrences ++ b.occurrences)).ascending.imp fun below same =>
    absurd (same ▸ below) (Std.lt_irrefl)

theorem length_jointVariables : (a.jointVariables b).length = (a.vars.toFinset ∪ b.vars.toFinset).card := by
  rw [← List.toFinset_card_of_nodup nodup_jointVariables]
  congr 1
  ext name
  simp [mem_jointVariables]

/-- A table of a size that is allowed is walked through without a failure. -/
theorem equivalent_of_few (few : (a.jointVariables b).length ≤ Table.limit) :
    ∃ same : Bool, a.equivalent b = .ok same ∧
      (same = true ↔ ∀ assign : String → Bool, a.value assign = b.value assign) := by
  have listedFirst : ∀ name ∈ a.occurrences, name ∈ a.jointVariables b :=
    fun name occurs => mem_jointVariables.mpr (.inl (mem_vars.mpr occurs))
  have listedSecond : ∀ name ∈ b.occurrences, name ∈ a.jointVariables b :=
    fun name occurs => mem_jointVariables.mpr (.inr (mem_vars.mpr occurs))
  have walked : a.equivalent b =
      Table.agreeOn (a.jointVariables b) a b (List.range (Row.count (a.jointVariables b).length)) := by
    unfold equivalent Table.rows
    rw [if_pos few]
  rw [walked, Table.agreeOn_eq_ok listedFirst listedSecond]
  refine ⟨_, rfl, ?_⟩
  rw [← Table.agree_iff listedFirst listedSecond]
  simp

theorem equivalent_of_many (many : Table.limit < (a.jointVariables b).length) :
    a.equivalent b = .error (.tooManyVariables (a.jointVariables b).length Table.limit) := by
  unfold equivalent Table.rows
  rw [if_neg (Nat.not_le.mpr many)]

/-- Up to 24 names in both expressions together, the test of equivalence succeeds, and its answer is whether
the expressions have the same value under every assignment. Its only error is that there are more names. -/
theorem equivalent_decides (a b : Expr) :
    ((a.vars.toFinset ∪ b.vars.toFinset).card ≤ 24 →
      (a.equivalent b = .ok true ↔ ∀ assign : String → Bool, a.value assign = b.value assign) ∧
      (a.equivalent b = .ok false ↔ ∃ assign : String → Bool, a.value assign ≠ b.value assign)) ∧
    ∀ error, a.equivalent b = .error error ↔
      24 < (a.vars.toFinset ∪ b.vars.toFinset).card ∧
        error = .tooManyVariables (a.vars.toFinset ∪ b.vars.toFinset).card 24 := by
  rw [← length_jointVariables]
  rcases Nat.lt_or_ge 24 (a.jointVariables b).length with many | few
  · refine ⟨fun few => absurd few (Nat.not_le.mpr many), fun error => ?_⟩
    rw [equivalent_of_many many, Except.error.injEq, and_iff_right many]
    exact eq_comm
  · obtain ⟨same, done, decides⟩ := equivalent_of_few few
    have notMany : ¬24 < (a.jointVariables b).length := Nat.not_lt.mpr few
    rw [done]
    refine ⟨fun _ => ⟨?_, ?_⟩, fun error => by simp [notMany]⟩
    · simp [decides]
    · rw [Except.ok.injEq, ← Bool.not_eq_true, decides, not_forall]

/-- De Morgan over two names, where the second expression mentions a third one without effect. -/
theorem equivalent_decides_de_morgan :
    (Expr.not (.nary .and [.var "A", .var "B"])).equivalent
      (.nary .or [.not (.var "B"), .not (.var "A"), .nary .and [.var "C", .const false]]) = .ok true := by
  refine ((equivalent_decides _ _).1 (by decide)).1.mpr fun assign => ?_
  simp [Op.combine, Bool.or_comm]

end Expr

end TwoLevel
