import Mathlib.Data.List.Perm.Basic
import TwoLevel.Proofs.Minimization
import TwoLevel.Proofs.Sweeping

/-! A search from its first column to its end, one pass after the other, and what holds at the
start of each pass: the buckets collect the implicants of one size, each with all rows that match
it. A pass marks those that can be widened. As an implicant is determined by its pattern, it does
not matter from which two it was merged. -/

set_option autoImplicit false

namespace TwoLevel

variable {width k : Nat} {minterms dontCares : RowSet} {column : Column} {sweep : Sweep}

/-- A pass over a column: the column at its start, and with the marks of the pass. -/
structure Pass where
  before : Column
  after : Column

/-- How a search ends that comes to a column: with its passes, of which the last one merges
nothing, or with a fault. -/
inductive Column.Ends : Column → Except SearchFault (List Pass) → Prop where
  | fault {column : Column} {fault : SearchFault} (failed : column.sweep = .error fault) :
      Ends column (.error fault)
  | last {column : Column} {sweep : Sweep} (passed : column.sweep = .ok sweep)
      (done : sweep.found.merged = false) : Ends column (.ok [⟨column, sweep.column⟩])
  | more {column : Column} {sweep : Sweep} {outcome : Except SearchFault (List Pass)}
      (passed : column.sweep = .ok sweep) (merged : sweep.found.merged = true)
      (later : Ends sweep.found.next outcome) : Ends column (outcome.map (⟨column, sweep.column⟩ :: ·))

/-- How a search ends that is given the implicants of single rows. -/
inductive Searches (width : Nat) (base : List Implicant) : Except SearchFault (List Pass) → Prop where
  | fault {fault : SearchFault} (failed : Column.fill width base = .error fault) :
      Searches width base (.error fault)
  | passes {column : Column} {outcome : Except SearchFault (List Pass)}
      (filled : Column.fill width base = .ok column) (ends : column.Ends outcome) : Searches width base outcome

/-- The bucket of a weight at the start of pass `k`: the implicants with `k` absent variables and
this weight, once each, with the rows that match them and without marks. -/
structure Bucket.Exact (width : Nat) (minterms dontCares : RowSet) (k weight : Nat) (bucket : Bucket) : Prop where
  nodup : (bucket.map (·.pattern)).Nodup
  mem_iff : ∀ p : Pattern, p ∈ bucket.map (·.pattern) ↔
    p.length = width ∧ p.absents = k ∧ p.weight = weight ∧ p.IsImplicant minterms dontCares
  rows : ∀ m ∈ bucket, ∀ row, row ∈ m.rows ↔ m.pattern.Matches row
  size_rows : ∀ m ∈ bucket, m.rows.size = 2 ^ k
  dontCare : ∀ m ∈ bucket, (m.dontCare = true ↔ ∀ row ∈ m.rows, row ∈ dontCares)
  combined : ∀ m ∈ bucket, m.combined = false

/-- An implicant of a column as it is met during a pass, with or without a mark. -/
def Column.Met (column : Column) (m : Implicant) : Prop :=
  ∃ source ∈ column.flatten, ∃ flag, m = source.markIf flag

/-- The implicant is what some two that are met during a pass are merged to. -/
def Column.Yields (column : Column) (m : Implicant) : Prop :=
  ∃ low high combination, column.Met low ∧ column.Met high ∧ low.combine high = .ok (some combination) ∧
    combination.merged = m

/-- What pass `k` of a search finds, and what it does. The buckets are as they should be, each
implicant is marked if it can be widened, and an implicant that the pass yields is determined by its
pattern, so the two from which it is merged first make no difference. -/
structure Pass.Exact (width : Nat) (minterms dontCares : RowSet) (k : Nat) (pass : Pass) : Prop where
  length_before : pass.before.length = width + 1 - k
  before : ∀ weight, (pass.before.bucketAt weight).Exact width minterms dontCares k weight
  after : ∀ weight,
    pass.after.bucketAt weight = (pass.before.bucketAt weight).map (Implicant.marked minterms dontCares)
  determined : ∀ first second, pass.before.Yields first → pass.before.Yields second →
    first.pattern = second.pattern → first = second

namespace Pattern

variable {low high whole : Pattern}

/-- The halves of a pattern exclude each other. -/
theorem Halves.not_admits (halves : Halves low high whole) {values : List Bool}
    (lowAdmits : low.admits values = true) : ¬high.admits values = true := by
  obtain ⟨before, after, rfl, rfl, rfl⟩ := halves
  induction before generalizing values with
  | nil => cases values with
    | nil => cases lowAdmits
    | cons value values => cases value <;> simp_all [Pattern.admits, Slot.admits]
  | cons s before ih => cases values with
    | nil => cases lowAdmits
    | cons value values =>
      simp only [List.cons_append, Pattern.admits, Bool.and_eq_true] at lowAdmits ⊢
      exact fun both => ih lowAdmits.2 both.2

theorem Halves.perm_rows (halves : Halves low high whole) :
    whole.rows.toList.Perm (low.rows.toList ++ high.rows.toList) := by
  have nodup : ∀ p : Pattern, p.rows.toList.Nodup := fun p => p.rows.ascending.imp Nat.ne_of_lt
  have apart : low.rows.toList.Disjoint high.rows.toList := by
    intro row inLow inHigh
    have lowMatches := mem_rows.mp inLow
    have highMatches := mem_rows.mp inHigh
    rw [Matches, halves.length_low] at lowMatches
    rw [Matches, halves.length_high] at highMatches
    exact halves.not_admits lowMatches.2 highMatches.2
  refine (List.perm_ext_iff_of_nodup (nodup whole) ((nodup low).append (nodup high) apart)).mpr fun row => ?_
  rw [List.mem_append]
  exact mem_rows.trans ((halves.matches_iff row).trans (or_congr mem_rows.symm mem_rows.symm))

/-- Each absent variable doubles the number of rows. -/
theorem size_rows (p : Pattern) : p.rows.size = 2 ^ p.absents := by
  generalize size : p.absents = k
  induction k generalizing p with
  | zero =>
    obtain ⟨row, small, same⟩ := exists_row size
    have single : p.rows = SortedSet.ofList [row] := by
      apply SortedSet.ext_of_mem
      intro other
      rw [mem_rows, SortedSet.mem_ofList, List.mem_singleton, same, matches_ofAssignment small]
    rw [single]
    rfl
  | succ k ih =>
    obtain ⟨low, high, halves⟩ := exists_halves (by rw [size]; exact Nat.succ_pos k)
    have lowSize := ih low (Nat.succ.inj (halves.absents_low.symm.trans size))
    have highSize := ih high (Nat.succ.inj (halves.absents_high.symm.trans size))
    unfold SortedSet.size at lowSize highSize ⊢
    rw [halves.perm_rows.length_eq, List.length_append, lowSize, highSize, Nat.pow_succ, Nat.mul_two]

end Pattern

theorem Bucket.Collects.exact {weight : Nat} {bucket : Bucket}
    (collects : bucket.Collects dontCares fun p => p.InColumn width minterms dontCares k ∧ p.weight = weight) :
    bucket.Exact width minterms dontCares k weight where
  nodup := collects.nodup
  mem_iff := fun p => by
    rw [collects.mem_iff]
    constructor
    · rintro ⟨⟨length_eq, absents_eq, implicant⟩, weight_eq⟩
      exact ⟨length_eq, absents_eq, weight_eq, implicant⟩
    · rintro ⟨length_eq, absents_eq, weight_eq, implicant⟩
      exact ⟨⟨length_eq, absents_eq, implicant⟩, weight_eq⟩
  rows := fun m member row => by
    obtain ⟨p, _, rfl⟩ := collects.mem_bucket_iff.mp member
    exact Pattern.mem_rows
  size_rows := fun m member => by
    obtain ⟨p, ⟨inColumn, _⟩, rfl⟩ := collects.mem_bucket_iff.mp member
    exact p.size_rows.trans (congrArg (2 ^ ·) inColumn.absents_eq)
  dontCare := fun m member => by
    obtain ⟨p, _, rfl⟩ := collects.mem_bucket_iff.mp member
    exact decide_eq_true_iff
  combined := fun m member => by
    obtain ⟨p, _, rfl⟩ := collects.mem_bucket_iff.mp member
    rfl

namespace Column

section Ends

variable {outcome : Except SearchFault (List Pass)}

theorem ends_iff_of_done (passed : column.sweep = .ok sweep) (done : sweep.found.merged = false) :
    column.Ends outcome ↔ outcome = .ok [⟨column, sweep.column⟩] := by
  constructor
  · intro ends
    cases ends with
    | fault failed => cases passed.symm.trans failed
    | last other _ =>
      cases passed.symm.trans other
      rfl
    | more other merged _ =>
      cases passed.symm.trans other
      cases done.symm.trans merged
  · rintro rfl
    exact .last passed done

theorem ends_iff_of_merged (passed : column.sweep = .ok sweep) (merged : sweep.found.merged = true) :
    column.Ends outcome ↔
      ∃ later, sweep.found.next.Ends later ∧ outcome = later.map (⟨column, sweep.column⟩ :: ·) := by
  constructor
  · intro ends
    cases ends with
    | fault failed => cases passed.symm.trans failed
    | last other done =>
      cases passed.symm.trans other
      cases done.symm.trans merged
    | more other _ later =>
      cases passed.symm.trans other
      exact ⟨_, later, rfl⟩
  · rintro ⟨later, ends, rfl⟩
    exact .more passed merged ends

end Ends

theorem Holds.uniform (holds : column.Holds width minterms dontCares k) : column.Uniform width := by
  intro weight m member
  obtain ⟨p, ⟨inColumn, _⟩, rfl⟩ := (holds.buckets weight).mem_bucket_iff.mp member
  exact inColumn.length_eq

/-- From column `k` on, a search comes to one end, and the invariant holds at the start of each pass. -/
theorem Holds.exists_ends {column : Column} {k : Nat} (holds : column.Holds width minterms dontCares k) :
    ∃ passes : List Pass, (∀ outcome, column.Ends outcome ↔ outcome = .ok passes) ∧
      passes.map (·.after) = column.passes ∧
      ∀ (i : Nat) (pass : Pass), passes[i]? = some pass →
        pass.before.Holds width minterms dontCares (k + i) ∧ pass.after = pass.before.mark := by
  have passed := sweep_eq holds.uniform
  rw [passes_eq]
  cases last : column.next.isEmpty with
  | true =>
    refine ⟨[⟨column, column.mark⟩], fun _ => ends_iff_of_done passed (congrArg not last), rfl, fun i pass found => ?_⟩
    cases i with
    | zero =>
      cases found
      exact ⟨holds, rfl⟩
    | succ i => cases found
  | false =>
    obtain ⟨later, ends, marks, invariant⟩ := holds.next.exists_ends
    have allMarks : (⟨column, column.mark⟩ :: later : List Pass).map (·.after) = column.mark :: column.next.passes :=
      congrArg (column.mark :: ·) marks
    refine ⟨⟨column, column.mark⟩ :: later, fun outcome => ?_, allMarks, fun i pass found => ?_⟩
    · rw [ends_iff_of_merged passed (congrArg not last)]
      simp only [ends, exists_eq_left]
      rfl
    · cases i with
      | zero =>
        cases found
        exact ⟨holds, rfl⟩
      | succ i =>
        rw [← Nat.add_assoc, Nat.add_right_comm]
        exact invariant i pass found
termination_by column.length
decreasing_by exact length_next_lt last

/-- What two implicants are merged to has all rows of its pattern, whichever two they are. -/
theorem Holds.eq_complete_of_yields (holds : column.Holds width minterms dontCares k) {m : Implicant}
    (yields : column.Yields m) : m = .complete dontCares m.pattern := by
  obtain ⟨_, _, _, ⟨low, inColumn, flag, rfl⟩, ⟨high, highInColumn, highFlag, rfl⟩, found, rfl⟩ := yields
  obtain ⟨p, _, rfl⟩ := holds.mem_flatten_iff_inColumn.mp inColumn
  obtain ⟨q, _, rfl⟩ := holds.mem_flatten_iff_inColumn.mp highInColumn
  obtain ⟨whole, merged, rfl⟩ := Implicant.eq_of_combine found
  rcases Pattern.merge?_eq_some_iff.mp merged with halves | halves
  · exact Implicant.unite_complete halves
  · exact (Implicant.unite_comm _ _ whole).trans (Implicant.unite_complete halves)

theorem bucketAt_map (f : Bucket → Bucket) (nil : f [] = []) (j : Nat) :
    Column.bucketAt (column.map f) j = f (column.bucketAt j) := by
  unfold bucketAt
  rw [List.getElem?_map]
  cases column[j]? with
  | none => exact nil.symm
  | some bucket => rfl

theorem Holds.exact_pass (holds : column.Holds width minterms dontCares k) :
    Pass.Exact width minterms dontCares k ⟨column, column.mark⟩ where
  length_before := holds.length_eq
  before := fun weight => (holds.buckets weight).exact
  after := fun weight => by
    show column.mark.bucketAt weight = _
    rw [holds.mark_eq, bucketAt_map _ rfl]
  determined := fun first second yieldsFirst yieldsSecond same => by
    rw [holds.eq_complete_of_yields yieldsFirst, same]
    exact (holds.eq_complete_of_yields yieldsSecond).symm

end Column

theorem Implicant.weight_le_width (m : Implicant) : m.weight ≤ m.width :=
  Nat.le_of_add_right_le m.pattern.weight_add_absents_le

theorem searches_iff {base : List Implicant} (filled : Column.fill width base = .ok column)
    {outcome : Except SearchFault (List Pass)} : Searches width base outcome ↔ column.Ends outcome := by
  constructor
  · intro searches
    cases searches with
    | fault failed => cases filled.symm.trans failed
    | passes other ends =>
      cases filled.symm.trans other
      exact ends
  · exact .passes filled

/-- If the invariant holds for the first column, a search fills it and comes to one end. -/
theorem Column.Holds.exists_searches {base : List Implicant}
    (holds : (initial width base).Holds width minterms dontCares 0) (widths : ∀ m ∈ base, m.width = width) :
    ∃ passes : List Pass, (∀ outcome, Searches width base outcome ↔ outcome = .ok passes) ∧
      passes.map (·.after) = (initial width base).passes ∧
      ∀ (k : Nat) (pass : Pass), passes[k]? = some pass → pass.Exact width minterms dontCares k := by
  have light : ∀ m ∈ base, m.weight ≤ width := fun m member => widths m member ▸ m.weight_le_width
  obtain ⟨passes, ends, marks, invariant⟩ := holds.exists_ends
  have only : ∀ outcome, Searches width base outcome ↔ outcome = .ok passes :=
    fun outcome => (searches_iff (fill_eq light)).trans (ends outcome)
  refine ⟨passes, only, marks, fun k pass found => ?_⟩
  obtain ⟨before, after⟩ := invariant k pass found
  rw [Nat.zero_add] at before
  have exact := before.exact_pass
  rwa [← after] at exact

namespace Minimization

/-- What holds at the start of each pass of the search, for the rows of a function in any order. The
search has one outcome, and its marked columns are those that the prime implicants are read from.
At the start of pass `k` the bucket of each weight has exactly the implicants with `k` absent
variables, with all their rows. The pass marks those that can be widened. An implicant that is
merged on the way does not depend on the two from which it is merged. -/
theorem search_invariant (valid : Valid width minterms dontCares) {rows : List Row}
    (listed : ∀ row, row ∈ rows ↔ row ∈ minterms ∨ row ∈ dontCares) :
    ∃ (implicants : List Implicant) (passes : List Pass),
      rows.mapM (fun row => Implicant.ofRow width (decide (row ∈ dontCares)) row) = .ok implicants ∧
      (rows = minterms.toList ++ dontCares.toList → base width minterms dontCares = .ok implicants) ∧
      (∀ outcome, Searches width implicants outcome ↔ outcome = .ok passes) ∧
      passes.map (·.after) = (Column.initial width implicants).passes ∧
      ∀ (k : Nat) (pass : Pass), passes[k]? = some pass → pass.Exact width minterms dontCares k := by
  have inRange : ∀ row ∈ rows, row < Row.count width :=
    fun row member => valid.inRange row ((listed row).mp member)
  have made : rows.mapM (fun row => Implicant.ofRow width (decide (row ∈ dontCares)) row) =
      .ok (rows.map fun row => .complete dontCares (.ofAssignment (row.assignment width))) :=
    mapM_eq_ok fun row member => Implicant.ofRow_eq_complete valid.positive (inRange row member) decide_eq_true_iff
  have widths : ∀ m ∈ rows.map fun row => Implicant.complete dontCares (.ofAssignment (row.assignment width)),
      m.width = width := by
    rw [List.forall_mem_map]
    intro row _
    simp [Implicant.width]
  obtain ⟨passes, only, marks, exact⟩ := (Column.holds_initial listed inRange).exists_searches widths
  refine ⟨_, passes, made, ?_, only, marks, exact⟩
  rintro rfl
  exact base_eq valid

/-- Rows 3, 1 and 2, of which row 2 is of no interest. The pattern `01` is in the first column, and
it is marked because `-1` is an implicant too. -/
theorem search_invariant_three_rows :
    ∃ implicants passes pass,
      [3, 1, 2].mapM (fun row => Implicant.ofRow 2 (decide (row ∈ SortedSet.ofList [2])) row) = .ok implicants ∧
      Searches 2 implicants (.ok passes) ∧ passes[0]? = some pass ∧
      ∃ m ∈ pass.before.bucketAt 1, m.pattern = [.negated, .asserted] ∧ m.dontCare = false ∧
        { m with combined := true } ∈ pass.after.bucketAt 1 := by
  have listed : ∀ row, row ∈ [3, 1, 2] ↔ row ∈ SortedSet.ofList [1, 3] ∨ row ∈ SortedSet.ofList [2] := by
    intro row
    rw [SortedSet.mem_ofList, SortedSet.mem_ofList]
    simp only [List.mem_cons, List.not_mem_nil, or_false]
    omega
  have valid : Valid 2 (.ofList [1, 3]) (.ofList [2]) := by decide
  obtain ⟨implicants, passes, made, _, only, marks, exact⟩ := search_invariant valid listed
  rw [Column.passes_eq] at marks
  obtain ⟨pass, rest, rfl, _, _⟩ := List.map_eq_cons_iff.mp marks
  obtain ⟨_, before, after, _⟩ := exact 0 pass rfl
  obtain ⟨m, member, same⟩ := List.mem_map.mp (((before 1).mem_iff [.negated, .asserted]).mpr (by decide))
  have own : 1 ∈ m.rows := ((before 1).rows m member 1).mpr (same ▸ by decide)
  have widenable : m.pattern.Widenable (.ofList [1, 3]) (.ofList [2]) := same ▸ by decide
  refine ⟨implicants, _, pass, made, (only _).mpr rfl, rfl, m, member, same, Bool.eq_false_iff.mpr fun flag => ?_, ?_⟩
  · exact absurd (((before 1).dontCare m member).mp flag 1 own) (by decide)
  · rw [after, List.mem_map]
    refine ⟨m, member, ?_⟩
    unfold Implicant.marked
    rw [decide_eq_true widenable]

end Minimization

end TwoLevel
