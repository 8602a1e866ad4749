import Mathlib.Data.List.Find
import Mathlib.Order.Bounds.Defs
import TwoLevel.Proofs.Passes

/-! How long a search takes. It is given implicants of single rows, in which a row may come more
than once and with different flags; what comes first counts. Column after column holds all
implicants of its size, so the search ends with the size of the largest one, and the prime
implicants come by size and then by weight. -/

set_option autoImplicit false

namespace TwoLevel

variable {width k : Nat} {minterms dontCares : RowSet} {column : Column}

/-- The numbers of absent variables of the patterns that only the given rows match. -/
def Pattern.sizesWithin (width : Nat) (rows : List Row) : Set Nat :=
  {size | ∃ p : Pattern, p.length = width ∧ (∀ row, p.Matches row → row ∈ rows) ∧ p.absents = size}

/-- Larger implicants come later, and of equal ones those with more asserted variables. -/
def Implicant.Before (first later : Implicant) : Prop :=
  first.pattern.absents < later.pattern.absents ∨
    first.pattern.absents = later.pattern.absents ∧ first.weight ≤ later.weight

/-- Rows of one table have different patterns. -/
theorem Pattern.ofAssignment_eq_iff {row other : Row} (small : row < Row.count width)
    (otherSmall : other < Row.count width) :
    ofAssignment (row.assignment width) = ofAssignment (other.assignment width) ↔ row = other := by
  constructor
  · intro same
    have own : (ofAssignment (row.assignment width)).Matches row := (matches_ofAssignment small).mpr rfl
    exact (matches_ofAssignment otherSmall).mp (same ▸ own)
  · rintro rfl
    rfl

namespace Implicant

/-- The implicant of one row of a table. -/
def single (width : Nat) (given : Row × Bool) : Implicant :=
  ⟨.ofAssignment (given.1.assignment width), SortedSet.ofList [given.1], given.2, false⟩

theorem eq_map_of_mapM_ofRow {rows : List (Row × Bool)} {base : List Implicant}
    (made : rows.mapM (fun given => ofRow width given.2 given.1) = .ok base) :
    base = rows.map (single width) ∧ ∀ given ∈ rows, 0 < width ∧ given.1 < Row.count width := by
  induction rows generalizing base with
  | nil =>
    cases made
    exact ⟨rfl, fun _ member => absurd member List.not_mem_nil⟩
  | cons given rows ih =>
    rw [List.mapM_cons] at made
    cases one : ofRow width given.2 given.1 with
    | error error =>
      rw [one] at made
      cases made
    | ok m =>
      cases others : rows.mapM (fun given => ofRow width given.2 given.1) with
      | error error =>
        rw [one, others] at made
        cases made
      | ok rest =>
        rw [one, others] at made
        cases made
        obtain ⟨positive, small, rfl⟩ := ofRow_eq_ok_iff.mp one
        obtain ⟨rfl, inRange⟩ := ih others
        exact ⟨rfl, List.forall_mem_cons.mpr ⟨⟨positive, small⟩, inRange⟩⟩

theorem single_eq_complete {given : Row × Bool} (positive : 0 < width) (small : given.1 < Row.count width)
    (isFlag : given.2 = true ↔ given.1 ∈ dontCares) :
    single width given = .complete dontCares (.ofAssignment (given.1.assignment width)) := by
  have made : ofRow width given.2 given.1 = .ok (single width given) :=
    ofRow_eq_ok_iff.mpr ⟨positive, small, rfl⟩
  exact Except.ok.inj (made.symm.trans (ofRow_eq_complete positive small isFlag))

end Implicant

/-- The rows of a list that are of no interest. What is said first about a row counts. -/
def optionalRows (rows : List (Row × Bool)) : RowSet :=
  SortedSet.ofList ((rows.map Prod.fst).filter fun row => (rows.find? (·.1 == row)).any Prod.snd)

theorem mem_optionalRows {rows : List (Row × Bool)} {given : Row × Bool}
    (first : rows.find? (·.1 == given.1) = some given) : given.1 ∈ optionalRows rows ↔ given.2 = true := by
  unfold optionalRows
  rw [SortedSet.mem_ofList, List.mem_filter, first, Option.any_some]
  exact and_iff_right (List.mem_map_of_mem (List.mem_of_find?_eq_some first))

theorem mem_rows_or_optionalRows (rows : List (Row × Bool)) (row : Row) :
    row ∈ rows.map Prod.fst ↔ row ∈ SortedSet.ofList (rows.map Prod.fst) ∨ row ∈ optionalRows rows := by
  unfold optionalRows
  rw [SortedSet.mem_ofList, SortedSet.mem_ofList]
  exact (or_iff_left_of_imp fun member => (List.mem_filter.mp member).1).symm

namespace Column

theorem holds_initial_single {rows : List (Row × Bool)}
    (inRange : ∀ given ∈ rows, 0 < width ∧ given.1 < Row.count width) :
    (initial width (rows.map (Implicant.single width))).Holds
      width (.ofList (rows.map Prod.fst)) (optionalRows rows) 0 := by
  have small : ∀ row ∈ rows.map Prod.fst, row < Row.count width :=
    List.forall_mem_map.mpr fun given member => (inRange given member).2
  refine holds_initial_of_complete (fun p => ?_) fun m member => ?_
  · rw [Pattern.inColumn_zero_iff (mem_rows_or_optionalRows rows) small, List.map_map, List.mem_map]
    simp only [List.mem_map, exists_exists_and_eq_and]
    rfl
  · -- Of the rows with one pattern, which is one row, the first is kept.
    unfold Bucket.ofList at member
    rw [distinctOn_map] at member
    obtain ⟨given, kept, rfl⟩ := List.mem_map.mp member
    have listed := mem_of_mem_distinctOn kept
    obtain ⟨positive, own⟩ := inRange given listed
    have first : rows.find? (·.1 == given.1) = some given := by
      rw [← find?_of_mem_distinctOn kept]
      refine List.find?_congr fun other known => ?_
      rw [Bool.eq_iff_iff, beq_iff_eq]
      exact (Pattern.ofAssignment_eq_iff (inRange other known).2 own).symm.trans beq_iff_eq.symm
    exact Implicant.single_eq_complete positive own (mem_optionalRows first).symm

theorem Holds.exists_inColumn (holds : column.Holds width minterms dontCares k) (nonempty : column.isEmpty = false) :
    ∃ p : Pattern, p.InColumn width minterms dontCares k := by
  rw [Bool.eq_false_iff, Ne, isEmpty_iff, not_forall] at nonempty
  obtain ⟨weight, filled⟩ := nonempty
  obtain ⟨m, member⟩ := List.exists_mem_of_ne_nil _ filled
  obtain ⟨p, ⟨inColumn, _⟩, _⟩ := (holds.buckets weight).mem_bucket_iff.mp member
  exact ⟨p, inColumn⟩

/-- From column `k` on there is one pass for each size up to the largest one. -/
theorem Holds.exists_length_passes {column : Column} {k : Nat} (holds : column.Holds width minterms dontCares k) :
    ∃ j, column.passes.length = j + 1 ∧ (0 < j → ∃ p : Pattern, p.InColumn width minterms dontCares (k + j)) ∧
      ∀ p : Pattern, ¬p.InColumn width minterms dontCares (k + j + 1) := by
  rw [passes_eq, List.length_cons]
  cases last : column.next.isEmpty with
  | true => exact ⟨0, rfl, fun positive => absurd positive (Nat.lt_irrefl 0), holds.next.not_inColumn_of_isEmpty last⟩
  | false =>
    obtain ⟨j, length, largest, noLarger⟩ := holds.next.exists_length_passes
    have later : k + 1 + j = k + (j + 1) := by rw [Nat.add_assoc, Nat.add_comm 1 j]
    rw [later] at largest noLarger
    refine ⟨j + 1, congrArg (· + 1) length, fun _ => ?_, noLarger⟩
    cases j with
    | zero => exact holds.next.exists_inColumn last
    | succ j => exact largest (Nat.succ_pos j)
termination_by column.length
decreasing_by exact length_next_lt last

end Column

namespace Column

section Order

/-- Within a column the implicants come by weight. -/
theorem Holds.pairwise_flatten (holds : column.Holds width minterms dontCares k) :
    column.flatten.Pairwise fun first later => first.weight ≤ later.weight := by
  rw [List.pairwise_flatten]
  constructor
  · intro bucket member
    obtain ⟨weight, inRange, rfl⟩ := List.mem_iff_getElem.mp member
    refine List.pairwise_of_forall_mem_list fun first here later there => ?_
    rw [holds.weight_eq inRange here, holds.weight_eq inRange there]
  · refine List.pairwise_iff_getElem.mpr fun i j iRange jRange less first here later there => ?_
    rw [holds.weight_eq iRange here, holds.weight_eq jRange there]
    exact Nat.le_of_lt less

theorem Holds.absents_of_mem_primes_mark (holds : column.Holds width minterms dontCares k) {m : Implicant}
    (member : m ∈ column.mark.primes) : m.pattern.absents = k := by
  have listed := (List.mem_filter.mp member).1
  rw [holds.flatten_mark] at listed
  obtain ⟨source, inColumn, rfl⟩ := List.mem_map.mp listed
  obtain ⟨p, selected, rfl⟩ := holds.mem_flatten_iff_inColumn.mp inColumn
  exact selected.absents_eq

theorem Holds.pairwise_primes_mark (holds : column.Holds width minterms dontCares k) :
    column.mark.primes.Pairwise Implicant.Before := by
  have weights : column.mark.primes.Pairwise fun first later => first.weight ≤ later.weight := by
    refine List.Pairwise.filter _ ?_
    rw [holds.flatten_mark, List.pairwise_map]
    exact holds.pairwise_flatten
  refine weights.imp_of_mem fun here there le => .inr ⟨?_, le⟩
  rw [holds.absents_of_mem_primes_mark here, holds.absents_of_mem_primes_mark there]

/-- The prime implicants come by their size, and those of one size by their weight. -/
theorem Holds.pairwise_primes_passes (holds : column.Holds width minterms dontCares k) :
    (column.passes.flatMap primes).Pairwise Implicant.Before := by
  rw [List.pairwise_flatMap]
  constructor
  · intro pass member
    obtain ⟨i, found⟩ := List.mem_iff_getElem?.mp member
    obtain ⟨source, here, rfl⟩ := holds.exists_of_getElem?_passes found
    exact here.pairwise_primes_mark
  · refine List.pairwise_iff_getElem.mpr fun i j iRange jRange less first inFirst later inLater => .inl ?_
    obtain ⟨source, here, same⟩ := holds.exists_of_getElem?_passes (List.getElem?_eq_getElem iRange)
    obtain ⟨other, there, otherSame⟩ := holds.exists_of_getElem?_passes (List.getElem?_eq_getElem jRange)
    rw [here.absents_of_mem_primes_mark (same ▸ inFirst), there.absents_of_mem_primes_mark (otherSame ▸ inLater)]
    exact Nat.add_lt_add_left less k

end Order

end Column

section Sizes

variable {rows : List Row} (mem_rows : ∀ row, row ∈ rows ↔ row ∈ minterms ∨ row ∈ dontCares)

include mem_rows

theorem Pattern.mem_sizesWithin {size : Nat} :
    size ∈ sizesWithin width rows ↔ ∃ p : Pattern, p.InColumn width minterms dontCares size := by
  constructor
  · rintro ⟨p, length_eq, within, absents_eq⟩
    exact ⟨p, length_eq, absents_eq, fun row matched => (mem_rows row).mp (within row matched)⟩
  · rintro ⟨p, length_eq, absents_eq, implicant⟩
    exact ⟨p, length_eq, fun row matched => (mem_rows row).mpr (implicant row matched), absents_eq⟩

/-- A search from the first column on makes one pass more than the largest size. -/
theorem Column.Holds.exists_size (holds : column.Holds width minterms dontCares 0) :
    ∃ size, column.passes.length = size + 1 ∧ size ≤ width ∧
      ((Pattern.sizesWithin width rows).Nonempty → IsGreatest (Pattern.sizesWithin width rows) size) ∧
      (Pattern.sizesWithin width rows = ∅ → size = 0) := by
  obtain ⟨size, length, largest, noLarger⟩ := holds.exists_length_passes
  rw [Nat.zero_add] at largest noLarger
  have bounded : size ∈ Pattern.sizesWithin width rows ∨ size = 0 := by
    rcases Nat.eq_zero_or_pos size with zero | positive
    · exact .inr zero
    · exact .inl ((Pattern.mem_sizesWithin mem_rows).mpr (largest positive))
  have upper : ∀ other ∈ Pattern.sizesWithin width rows, other ≤ size := by
    intro other member
    obtain ⟨p, inColumn⟩ := (Pattern.mem_sizesWithin mem_rows).mp member
    by_contra beyond
    obtain ⟨q, next⟩ := inColumn.exists_of_le (Nat.lt_of_not_le beyond)
    exact noLarger q next
  refine ⟨size, length, ?_, fun ⟨other, member⟩ => ⟨?_, upper⟩, fun empty => ?_⟩
  · rcases bounded with member | rfl
    · obtain ⟨p, inColumn⟩ := (Pattern.mem_sizesWithin mem_rows).mp member
      exact Nat.le_of_add_left_le inColumn.weight_le
    · exact Nat.zero_le width
  · rcases bounded with member | rfl
    · exact member
    · exact Nat.le_zero.mp (upper other member) ▸ member
  · rcases bounded with member | zero
    · exact absurd (empty ▸ member) (Set.notMem_empty size)
    · exact zero

end Sizes

/-- A search ends, whatever rows it is given, with one pass more than the largest number of absent
variables of a pattern that only these rows match, and with one pass if there is none. No bucket
that it looks for is missing. It finds the prime implicants by their size, and those of one size by
their weight, and the number of passes is logged. -/
theorem search_terminates {rows : List (Row × Bool)} {base : List Implicant}
    (made : rows.mapM (fun given => Implicant.ofRow width given.2 given.1) = .ok base) :
    ∃ (passes : List Pass) (size : Nat),
      (∀ outcome, Searches width base outcome ↔ outcome = .ok passes) ∧
      passes.length = size + 1 ∧ size ≤ width ∧
      ((Pattern.sizesWithin width (rows.map Prod.fst)).Nonempty →
        IsGreatest (Pattern.sizesWithin width (rows.map Prod.fst)) size) ∧
      (Pattern.sizesWithin width (rows.map Prod.fst) = ∅ → size = 0) ∧
      passes.flatMap (·.after.primes) = primeImplicants width base ∧
      (primeImplicants width base).Pairwise Implicant.Before ∧
      ∀ settings, (searchPrimes (ε := MinimizeError) width base settings).events.getLast? =
        some (.searched (primeImplicants width base).length passes.length) := by
  obtain ⟨rfl, inRange⟩ := Implicant.eq_map_of_mapM_ofRow made
  have widths : ∀ m ∈ rows.map (Implicant.single width), m.width = width := by
    rw [List.forall_mem_map]
    intro given _
    simp [Implicant.width, Implicant.single]
  have holds := Column.holds_initial_single inRange
  obtain ⟨passes, only, marks, _⟩ := holds.exists_searches widths
  obtain ⟨size, length, bound, greatest, empty⟩ := holds.exists_size (mem_rows_or_optionalRows rows)
  have found : passes.flatMap (·.after.primes) = primeImplicants width (rows.map (Implicant.single width)) := by
    unfold primeImplicants
    rw [← marks, List.flatMap_map]
  have lengths : passes.length = (Column.initial width (rows.map (Implicant.single width))).passes.length := by
    rw [← marks, List.length_map]
  refine ⟨passes, size, only, lengths.trans length, bound, greatest, empty, found, holds.pairwise_primes_passes, ?_⟩
  intro settings
  unfold searchPrimes
  rw [List.getLast?_concat, lengths]
  rfl

/-- The two rows over one variable, of which row 0 comes twice. The pattern `-` has both of them, so
there are two passes. -/
theorem search_terminates_two_rows :
    ∃ base passes, [(0, true), (1, false), (0, false)].mapM (fun given => Implicant.ofRow 1 given.2 given.1) = .ok base ∧
      Searches 1 base (.ok passes) ∧ passes.length = 2 := by
  have made : [(0, true), (1, false), (0, false)].mapM (fun given => Implicant.ofRow 1 given.2 given.1) =
      .ok ([(0, true), (1, false), (0, false)].map (Implicant.single 1)) := rfl
  obtain ⟨passes, size, only, length, bound, greatest, _⟩ := search_terminates made
  have member : 1 ∈ Pattern.sizesWithin 1 [0, 1, 0] := by
    have all : ∀ row < 2, row ∈ [0, 1, 0] := by decide
    exact ⟨[.absent], rfl, fun row matched => all row matched.1, rfl⟩
  have least : 1 ≤ size := (greatest ⟨1, member⟩).2 member
  exact ⟨_, passes, made, (only _).mpr rfl, by omega⟩

end TwoLevel
