import TwoLevel.Implicant.Basic
import TwoLevel.Proofs.Merging

/-! Implicants and prime implicants of a function that is given by its minterms and the
rows of no interest, said by rows alone. Every implicant that matches a minterm lies in a
prime one. -/

set_option autoImplicit false

namespace TwoLevel

namespace Pattern

variable (minterms dontCares : RowSet)

/-- Only minterms and rows of no interest match the pattern. -/
def IsImplicant (p : Pattern) : Prop := ∀ row, p.Matches row → row ∈ minterms ∨ row ∈ dontCares

/-- Some variable can be left out and the pattern remains an implicant. -/
def Widenable (p : Pattern) : Prop :=
  ∃ i : Fin p.length, p[i] ≠ .absent ∧ (p.leaveOut i).IsImplicant minterms dontCares

/-- The pattern is an implicant over `width` variables that matches a minterm, and none of
its variables can be left out. -/
structure IsPrime (width : Nat) (p : Pattern) : Prop where
  length_eq : p.length = width
  implicant : p.IsImplicant minterms dontCares
  useful : ∃ row ∈ minterms, p.Matches row
  maximal : ∀ i, ∀ inRange : i < p.length, p[i] ≠ .absent →
    ∃ row, (p.leaveOut i).Matches row ∧ row ∉ minterms ∧ row ∉ dontCares

def rows (p : Pattern) : RowSet :=
  SortedSet.ofList ((List.range (Row.count p.length)).filter fun row => decide (p.Matches row))

@[simp] theorem mem_rows {p : Pattern} {row : Row} : row ∈ p.rows ↔ p.Matches row := by
  rw [rows, SortedSet.mem_ofList, List.mem_filter, decide_eq_true_eq, List.mem_range]
  exact and_iff_right_of_imp And.left

variable {minterms dontCares}

theorem isImplicant_iff {p : Pattern} :
    p.IsImplicant minterms dontCares ↔ ∀ row ∈ p.rows.toList, row ∈ minterms ∨ row ∈ dontCares :=
  forall_congr' fun _ => imp_congr_left mem_rows.symm

instance (p : Pattern) : Decidable (p.IsImplicant minterms dontCares) :=
  decidable_of_iff _ isImplicant_iff.symm

instance (p : Pattern) : Decidable (p.Widenable minterms dontCares) :=
  inferInstanceAs (Decidable (∃ _ : Fin p.length, _ ∧ _))

theorem widenable_iff {p : Pattern} :
    p.Widenable minterms dontCares ↔ ∃ r, p.Widens r ∧ r.IsImplicant minterms dontCares := by
  constructor
  · rintro ⟨i, named, implicant⟩
    exact ⟨_, ⟨i, i.isLt, named, rfl⟩, implicant⟩
  · rintro ⟨r, ⟨i, inRange, named, rfl⟩, implicant⟩
    exact ⟨⟨i, inRange⟩, named, implicant⟩

theorem not_isImplicant_iff {p : Pattern} :
    ¬p.IsImplicant minterms dontCares ↔ ∃ row, p.Matches row ∧ row ∉ minterms ∧ row ∉ dontCares := by
  simp only [IsImplicant, not_forall, not_or, exists_prop]

theorem isPrime_iff {width : Nat} {p : Pattern} :
    p.IsPrime minterms dontCares width ↔
      p.length = width ∧ p.IsImplicant minterms dontCares ∧ (∃ row ∈ minterms, p.Matches row) ∧
        ¬p.Widenable minterms dontCares := by
  constructor
  · intro prime
    refine ⟨prime.length_eq, prime.implicant, prime.useful, ?_⟩
    rintro ⟨i, named, implicant⟩
    exact not_isImplicant_iff.mpr (prime.maximal i i.isLt named) implicant
  · rintro ⟨length_eq, implicant, useful, closed⟩
    refine ⟨length_eq, implicant, useful, fun i inRange named => not_isImplicant_iff.mp fun wider => ?_⟩
    exact closed ⟨⟨i, inRange⟩, named, wider⟩

instance (width : Nat) (p : Pattern) : Decidable (p.IsPrime minterms dontCares width) :=
  haveI : Decidable (∃ row ∈ minterms, p.Matches row) :=
    inferInstanceAs (Decidable (∃ row ∈ minterms.toList, p.Matches row))
  decidable_of_iff _ isPrime_iff.symm

theorem Halves.isImplicant_iff {low high whole : Pattern} (halves : Halves low high whole) :
    whole.IsImplicant minterms dontCares ↔
      low.IsImplicant minterms dontCares ∧ high.IsImplicant minterms dontCares := by
  simp only [IsImplicant, halves.matches_iff, or_imp, forall_and]

theorem Widens.absents_lt {p r : Pattern} (widens : p.Widens r) :
    r.length - r.absents < p.length - p.absents := by
  have length := widens.length_eq
  have absents := widens.absents_eq
  have bound := r.weight_add_absents_le
  omega

/-- Variables of an implicant are left out as long as it remains one. -/
theorem exists_isPrime {width : Nat} {p : Pattern} (length_eq : p.length = width)
    (implicant : p.IsImplicant minterms dontCares) (useful : ∃ row ∈ minterms, p.Matches row) :
    ∃ q : Pattern, q.IsPrime minterms dontCares width ∧ ∀ row, p.Matches row → q.Matches row := by
  by_cases more : p.Widenable minterms dontCares
  -- A wider implicant has one literal less, so the recursion ends.
  · obtain ⟨r, widens, wider⟩ := widenable_iff.mp more
    have shorter := widens.absents_lt
    obtain ⟨row, minterm, matched⟩ := useful
    obtain ⟨q, prime, contains⟩ := exists_isPrime (widens.length_eq.trans length_eq) wider
      ⟨row, minterm, widens.matches_of_matches matched⟩
    exact ⟨q, prime, fun row matched => contains row (widens.matches_of_matches matched)⟩
  · exact ⟨p, isPrime_iff.mpr ⟨length_eq, implicant, useful, more⟩, fun _ => id⟩
termination_by p.length - p.absents

end Pattern

namespace Implicant

variable {dontCares : RowSet}

/-- The implicant of a pattern with all rows that match it, not yet merged. -/
def complete (dontCares : RowSet) (p : Pattern) : Implicant :=
  ⟨p, p.rows, decide (∀ row ∈ p.rows.toList, row ∈ dontCares), false⟩

@[simp] theorem pattern_complete (p : Pattern) : (complete dontCares p).pattern = p := rfl

@[simp] theorem combined_complete (p : Pattern) : (complete dontCares p).combined = false := rfl

@[simp] theorem covers_complete {p : Pattern} {row : Row} :
    (complete dontCares p).covers row = true ↔ p.Matches row := by
  rw [covers, decide_eq_true_eq]
  exact Pattern.mem_rows

theorem dontCare_complete {p : Pattern} :
    (complete dontCares p).dontCare = true ↔ ∀ row, p.Matches row → row ∈ dontCares := by
  simp only [complete, decide_eq_true_eq, ← SortedSet.mem_def, Pattern.mem_rows]

/-- Which implicants a pattern is merged from makes no difference to the result. -/
theorem unite_complete {low high whole : Pattern} (halves : Pattern.Halves low high whole) :
    (complete dontCares low).unite (complete dontCares high) whole = complete dontCares whole := by
  have rows : low.rows ∪ high.rows = whole.rows := by
    apply SortedSet.ext_of_mem
    intro row
    rw [SortedSet.mem_union, Pattern.mem_rows, Pattern.mem_rows, Pattern.mem_rows, halves.matches_iff]
  have flags : ((complete dontCares low).dontCare && (complete dontCares high).dontCare) =
      (complete dontCares whole).dontCare := by
    rw [Bool.eq_iff_iff, Bool.and_eq_true, dontCare_complete, dontCare_complete, dontCare_complete]
    simp only [halves.matches_iff, or_imp, forall_and]
  unfold unite
  rw [flags]
  exact congrArg (Implicant.mk whole · _ false) rows

theorem ofRow_eq_complete {width : Nat} {flag : Bool} {row : Row} (positive : 0 < width)
    (small : row < Row.count width) (isFlag : flag = true ↔ row ∈ dontCares) :
    ofRow width flag row = .ok (complete dontCares (.ofAssignment (row.assignment width))) := by
  have rows : SortedSet.ofList [row] = (Pattern.ofAssignment (row.assignment width)).rows := by
    apply SortedSet.ext_of_mem
    intro other
    rw [SortedSet.mem_ofList, List.mem_singleton, Pattern.mem_rows, Pattern.matches_ofAssignment small]
  have flags : flag = (complete dontCares (.ofAssignment (row.assignment width))).dontCare := by
    rw [Bool.eq_iff_iff, dontCare_complete, isFlag]
    simp only [Pattern.matches_ofAssignment small, forall_eq]
  refine ofRow_eq_ok_iff.mpr ⟨positive, small, ?_⟩
  rw [rows, flags]
  rfl

end Implicant

end TwoLevel
