import TwoLevel.Implicant.Column
import TwoLevel.Proofs.Distinct
import TwoLevel.Proofs.Primality

/-! The columns of the search for prime implicants. Column `k` holds, in the bucket of each
weight, the implicants with `k` absent variables, once each and with all their rows. A
merge marks those that can be widened, so that the unmarked ones that match a minterm are
the prime implicants. -/

set_option autoImplicit false

namespace TwoLevel

variable {width : Nat} {minterms dontCares : RowSet}

/-- The patterns of the implicants that column `k` holds. -/
structure Pattern.InColumn (width : Nat) (minterms dontCares : RowSet) (k : Nat) (p : Pattern) : Prop where
  length_eq : p.length = width
  absents_eq : p.absents = k
  implicant : p.IsImplicant minterms dontCares

/-- A bucket of exactly the selected patterns, once each and with all their rows. -/
structure Bucket.Collects (dontCares : RowSet) (bucket : Bucket) (selected : Pattern → Prop) : Prop where
  nodup : (bucket.map (·.pattern)).Nodup
  mem_iff : ∀ p, p ∈ bucket.map (·.pattern) ↔ selected p
  complete : ∀ m ∈ bucket, m = .complete dontCares m.pattern

/-- The implicant marked if it can be widened. -/
def Implicant.marked (minterms dontCares : RowSet) (m : Implicant) : Implicant :=
  { m with combined := decide (m.pattern.Widenable minterms dontCares) }

namespace Pattern

theorem InColumn.weight_le {k : Nat} {p : Pattern} (inColumn : p.InColumn width minterms dontCares k) :
    p.weight + k ≤ width := by
  have bound := p.weight_add_absents_le
  rwa [inColumn.length_eq, inColumn.absents_eq] at bound

theorem Halves.inColumn_iff {k : Nat} {low high whole : Pattern} (halves : Halves low high whole) :
    whole.InColumn width minterms dontCares (k + 1) ↔
      low.InColumn width minterms dontCares k ∧ high.InColumn width minterms dontCares k := by
  have lowAbsents := halves.absents_low
  have highAbsents := halves.absents_high
  constructor
  · rintro ⟨length_eq, absents_eq, implicant⟩
    obtain ⟨lowImplicant, highImplicant⟩ := halves.isImplicant_iff.mp implicant
    exact ⟨⟨halves.length_low.trans length_eq, by omega, lowImplicant⟩,
      ⟨halves.length_high.trans length_eq, by omega, highImplicant⟩⟩
  · rintro ⟨low, high⟩
    exact ⟨halves.length_low.symm.trans low.length_eq, by have := low.absents_eq; omega,
      halves.isImplicant_iff.mpr ⟨low.implicant, high.implicant⟩⟩

theorem InColumn.of_widens {k : Nat} {p r : Pattern} (inColumn : p.InColumn width minterms dontCares k)
    (widens : p.Widens r) (implicant : r.IsImplicant minterms dontCares) :
    r.InColumn width minterms dontCares (k + 1) :=
  ⟨widens.length_eq.trans inColumn.length_eq,
    widens.absents_eq.trans (congrArg (· + 1) inColumn.absents_eq), implicant⟩

theorem inColumn_zero_iff {rows : List Row} (mem_rows : ∀ row, row ∈ rows ↔ row ∈ minterms ∨ row ∈ dontCares)
    (inRange : ∀ row ∈ rows, row < Row.count width) {p : Pattern} :
    p.InColumn width minterms dontCares 0 ↔ ∃ row ∈ rows, .ofAssignment (row.assignment width) = p := by
  constructor
  · intro inColumn
    obtain ⟨rfl, full, implicant⟩ := inColumn
    obtain ⟨row, small, same⟩ := exists_row full
    have matched : p.Matches row := by
      rw [same]
      exact (matches_ofAssignment small).mpr rfl
    exact ⟨row, (mem_rows row).mpr (implicant row matched), same.symm⟩
  · intro found
    obtain ⟨row, member, rfl⟩ := found
    refine ⟨by simp, absents_ofAssignment _, fun other matched => ?_⟩
    rw [(matches_ofAssignment (inRange row member)).mp matched]
    exact (mem_rows row).mp member

/-- An implicant has parts in every column before its own. -/
theorem InColumn.exists_of_le {j k : Nat} {p : Pattern} (inColumn : p.InColumn width minterms dontCares j)
    (le : k ≤ j) : ∃ q : Pattern, q.InColumn width minterms dontCares k := by
  induction j generalizing p with
  | zero => exact ⟨p, Nat.le_zero.mp le ▸ inColumn⟩
  | succ j ih =>
    rcases Nat.eq_or_lt_of_le le with rfl | less
    · exact ⟨p, inColumn⟩
    · obtain ⟨low, high, halves⟩ := exists_halves (by rw [inColumn.absents_eq]; exact Nat.succ_pos j)
      exact ih (halves.inColumn_iff.mp inColumn).1 (Nat.le_of_lt_succ less)

end Pattern

namespace Bucket

theorem Collects.mem_bucket_iff {bucket : Bucket} {selected : Pattern → Prop}
    (collects : bucket.Collects dontCares selected) {m : Implicant} :
    m ∈ bucket ↔ ∃ p, selected p ∧ m = .complete dontCares p := by
  constructor
  · intro member
    exact ⟨m.pattern, (collects.mem_iff _).mp (List.mem_map_of_mem member), collects.complete m member⟩
  · rintro ⟨p, isSelected, rfl⟩
    obtain ⟨m, member, rfl⟩ := List.mem_map.mp ((collects.mem_iff p).mpr isSelected)
    exact collects.complete m member ▸ member

theorem Collects.congr {bucket : Bucket} {selected others : Pattern → Prop}
    (collects : bucket.Collects dontCares selected) (same : ∀ p, selected p ↔ others p) :
    bucket.Collects dontCares others :=
  ⟨collects.nodup, fun p => (collects.mem_iff p).trans (same p), collects.complete⟩

theorem collects_nil {selected : Pattern → Prop} (empty : ∀ p, ¬selected p) :
    Collects dontCares [] selected :=
  ⟨.nil, fun p => iff_of_false List.not_mem_nil (empty p), fun _ member => absurd member List.not_mem_nil⟩

theorem collects_ofList {l : List Implicant} (complete : ∀ m ∈ ofList l, m = .complete dontCares m.pattern) :
    (ofList l).Collects dontCares fun p => p ∈ l.map (·.pattern) :=
  ⟨nodup_keys_distinctOn l, fun _ => mem_keys_distinctOn, complete⟩

theorem merges_nil (lower : Bucket) : merges lower [] = [] := by
  have nothing : lower.flatMap (fun low => List.filterMap low.merge? []) = [] := by simp
  rw [merges_eq, nothing]
  rfl

section Neighbours

variable {k weight : Nat} {lower upper : Bucket}
  (low : lower.Collects dontCares fun p => p.InColumn width minterms dontCares k ∧ p.weight = weight)
  (high : upper.Collects dontCares fun p => p.InColumn width minterms dontCares k ∧ p.weight = weight + 1)

include low high

theorem mem_merges_iff {m : Implicant} :
    m ∈ lower.flatMap (fun a => upper.filterMap a.merge?) ↔
      ∃ p, (p.InColumn width minterms dontCares (k + 1) ∧ p.weight = weight) ∧ m = .complete dontCares p := by
  simp only [List.mem_flatMap, List.mem_filterMap, Implicant.merge?, Option.map_eq_some_iff]
  constructor
  · intro found
    obtain ⟨a, inLower, b, inUpper, p, merged, rfl⟩ := found
    obtain ⟨q, ⟨lowColumn, lowWeight⟩, rfl⟩ := low.mem_bucket_iff.mp inLower
    obtain ⟨r, ⟨highColumn, highWeight⟩, rfl⟩ := high.mem_bucket_iff.mp inUpper
    have heavier : r.weight = q.weight + 1 := highWeight.trans (congrArg (· + 1) lowWeight.symm)
    have halves := Pattern.halves_of_merge?_of_weight merged heavier
    exact ⟨p, ⟨halves.inColumn_iff.mpr ⟨lowColumn, highColumn⟩, halves.weight_low.symm.trans lowWeight⟩,
      Implicant.unite_complete halves⟩
  · intro selected
    obtain ⟨p, ⟨inColumn, rfl⟩, rfl⟩ := selected
    -- Both halves at any absent variable are in column `k`, and their weights are the two at hand.
    obtain ⟨q, r, halves⟩ := Pattern.exists_halves (by rw [inColumn.absents_eq]; exact Nat.succ_pos k)
    obtain ⟨lowColumn, highColumn⟩ := halves.inColumn_iff.mp inColumn
    exact ⟨_, low.mem_bucket_iff.mpr ⟨q, ⟨lowColumn, halves.weight_low⟩, rfl⟩,
      _, high.mem_bucket_iff.mpr ⟨r, ⟨highColumn, halves.weight_high⟩, rfl⟩,
      p, halves.merge?.1, Implicant.unite_complete halves⟩

/-- The merges of two neighbouring buckets of column `k` are a bucket of column `k + 1`. -/
theorem collects_merges :
    (merges lower upper).Collects dontCares fun p =>
      p.InColumn width minterms dontCares (k + 1) ∧ p.weight = weight := by
  rw [merges_eq]
  refine (collects_ofList fun m member => ?_).congr fun p => ?_
  · obtain ⟨p, _, rfl⟩ := (mem_merges_iff low high).mp (mem_of_mem_distinctOn member)
    rfl
  · rw [List.mem_map]
    constructor
    · intro found
      obtain ⟨m, member, rfl⟩ := found
      obtain ⟨p, selected, rfl⟩ := (mem_merges_iff low high).mp member
      exact selected
    · intro selected
      exact ⟨_, (mem_merges_iff low high).mpr ⟨p, selected, rfl⟩, rfl⟩

end Neighbours

section Marking

variable {k weight : Nat} {below bucket above : Bucket}
  (lower : below.Collects dontCares fun p => p.InColumn width minterms dontCares k ∧ p.weight + 1 = weight)
  (upper : above.Collects dontCares fun p => p.InColumn width minterms dontCares k ∧ p.weight = weight + 1)

include lower upper

/-- An implicant merges into a neighbouring bucket exactly if it can be widened. -/
theorem merges_iff_widenable {p : Pattern} (inColumn : p.InColumn width minterms dontCares k)
    (own : p.weight = weight) :
    (∃ m ∈ above, ∃ r, p.merge? m.pattern = some r) ∨ (∃ m ∈ below, ∃ r, m.pattern.merge? p = some r) ↔
      p.Widenable minterms dontCares := by
  subst own
  rw [Pattern.widenable_iff]
  constructor
  · intro merges
    cases merges with
    | inl found =>
      obtain ⟨other, inAbove, r, merged⟩ := found
      obtain ⟨q, ⟨otherColumn, heavier⟩, rfl⟩ := upper.mem_bucket_iff.mp inAbove
      have halves := Pattern.halves_of_merge?_of_weight merged heavier
      exact ⟨r, Pattern.widens_iff.mpr ⟨q, .inl halves⟩,
        halves.isImplicant_iff.mpr ⟨inColumn.implicant, otherColumn.implicant⟩⟩
    | inr found =>
      obtain ⟨other, inBelow, r, merged⟩ := found
      obtain ⟨q, ⟨otherColumn, lighter⟩, rfl⟩ := lower.mem_bucket_iff.mp inBelow
      have halves := Pattern.halves_of_merge?_of_weight merged lighter.symm
      exact ⟨r, Pattern.widens_iff.mpr ⟨q, .inr halves⟩,
        halves.isImplicant_iff.mpr ⟨otherColumn.implicant, inColumn.implicant⟩⟩
  · intro widenable
    obtain ⟨r, widens, implicant⟩ := widenable
    have whole := inColumn.of_widens widens implicant
    -- The other half lies in the next bucket if the variable is negated here, else in the one before.
    obtain ⟨q, halves | halves⟩ := Pattern.widens_iff.mp widens
    · have heavier : q.weight = p.weight + 1 := by rw [halves.weight_high, halves.weight_low]
      exact .inl ⟨_, upper.mem_bucket_iff.mpr ⟨q, ⟨(halves.inColumn_iff.mp whole).2, heavier⟩, rfl⟩,
        r, halves.merge?.1⟩
    · have lighter : q.weight + 1 = p.weight := by rw [halves.weight_high, halves.weight_low]
      exact .inr ⟨_, lower.mem_bucket_iff.mpr ⟨q, ⟨(halves.inColumn_iff.mp whole).1, lighter⟩, rfl⟩,
        r, halves.merge?.1⟩

theorem mark_eq_map_marked
    (here : bucket.Collects dontCares fun p => p.InColumn width minterms dontCares k ∧ p.weight = weight) :
    below.mark bucket above = bucket.map (Implicant.marked minterms dontCares) := by
  rw [mark_eq]
  apply List.map_congr_left
  intro m member
  obtain ⟨p, ⟨inColumn, own⟩, rfl⟩ := here.mem_bucket_iff.mp member
  have flag := merges_iff_widenable lower upper inColumn own
  refine congrArg (Implicant.mk p _ _) (?_ : _ = decide (p.Widenable minterms dontCares))
  rw [Bool.eq_iff_iff]
  simpa only [Implicant.combined_complete, Implicant.pattern_complete, Bool.false_or, Bool.or_eq_true,
    List.any_eq_true, Option.isSome_iff_exists, decide_eq_true_eq] using flag

end Marking

end Bucket

namespace Column

/-- The bucket of a weight, empty if the column has none. -/
def bucketAt (column : Column) (weight : Nat) : Bucket := column[weight]?.getD []

theorem bucketAt_of_le {column : Column} {weight : Nat} (beyond : column.length ≤ weight) :
    column.bucketAt weight = [] := by
  rw [bucketAt, List.getElem?_eq_none beyond, Option.getD_none]

theorem length_next (column : Column) : column.next.length = column.length - 1 := by
  rw [next, List.length_zipWith, List.length_tail, Nat.min_eq_right (Nat.sub_le _ _)]

/-- Beyond the last bucket there is nothing to merge. -/
theorem bucketAt_next (column : Column) (weight : Nat) :
    column.next.bucketAt weight = Bucket.merges (column.bucketAt weight) (column.bucketAt (weight + 1)) := by
  rcases Nat.lt_or_ge (weight + 1) column.length with inRange | beyond
  · simp [bucketAt, next, List.getElem?_zipWith, Nat.lt_of_succ_lt inRange, inRange]
  · rw [bucketAt_of_le (by rw [length_next]; omega), bucketAt_of_le beyond, Bucket.merges_nil]

/-- From the first bucket on, which stands for a given weight, the buckets collect the
implicants with `k` absent variables. -/
def HoldsFrom (width : Nat) (minterms dontCares : RowSet) (k weight : Nat) (column : Column) : Prop :=
  ∀ i, (column.bucketAt i).Collects dontCares fun p =>
    p.InColumn width minterms dontCares k ∧ p.weight = weight + i

/-- The invariant of the search: column `k` has a bucket for each weight that an implicant
with `k` absent variables may have. -/
structure Holds (width : Nat) (minterms dontCares : RowSet) (k : Nat) (column : Column) : Prop where
  length_eq : column.length = width + 1 - k
  buckets : ∀ weight, (column.bucketAt weight).Collects dontCares fun p =>
    p.InColumn width minterms dontCares k ∧ p.weight = weight

theorem markFrom_eq_map {k weight : Nat} {below : Bucket} {column : Column}
    (lower : below.Collects dontCares fun p => p.InColumn width minterms dontCares k ∧ p.weight + 1 = weight)
    (holds : column.HoldsFrom width minterms dontCares k weight) :
    column.markFrom below = column.map (List.map (Implicant.marked minterms dontCares)) := by
  induction column generalizing below weight with
  | nil => rfl
  | cons bucket rest ih =>
    have here : bucket.Collects dontCares fun p => p.InColumn width minterms dontCares k ∧ p.weight = weight :=
      holds 0
    have upper : (rest.headD []).Collects dontCares fun p =>
        p.InColumn width minterms dontCares k ∧ p.weight = weight + 1 := by
      have next := holds 1
      rwa [bucketAt, List.getElem?_cons_succ, ← List.head?_eq_getElem?, ← List.headD_eq_head?_getD] at next
    have before : bucket.Collects dontCares fun p =>
        p.InColumn width minterms dontCares k ∧ p.weight + 1 = weight + 1 :=
      here.congr fun p => by rw [Nat.add_right_cancel_iff]
    have after : HoldsFrom width minterms dontCares k (weight + 1) rest :=
      fun i => (holds (i + 1)).congr fun p => by rw [Nat.add_right_comm, Nat.add_assoc]
    -- The bucket just marked lies below the next one.
    rw [markFrom, List.map_cons, Bucket.mark_eq_map_marked lower upper here, ih before after]

variable {k : Nat} {column : Column}

theorem Holds.mark_eq (holds : column.Holds width minterms dontCares k) :
    column.mark = column.map (List.map (Implicant.marked minterms dontCares)) := by
  have below : Bucket.Collects dontCares [] fun p =>
      p.InColumn width minterms dontCares k ∧ p.weight + 1 = 0 :=
    Bucket.collects_nil fun p impossible => Nat.succ_ne_zero _ impossible.2
  apply markFrom_eq_map below
  intro i
  rw [Nat.zero_add]
  exact holds.buckets i

/-- The merges of a column are the next column. -/
theorem Holds.next (holds : column.Holds width minterms dontCares k) :
    column.next.Holds width minterms dontCares (k + 1) := by
  refine ⟨?_, fun weight => ?_⟩
  · rw [length_next, holds.length_eq]
    omega
  · rw [bucketAt_next]
    exact Bucket.collects_merges (holds.buckets weight) (holds.buckets (weight + 1))

theorem bucketAt_initial (base : List Implicant) {weight : Nat} (small : weight < width + 1) :
    (initial width base).bucketAt weight = Bucket.ofList (base.filter (·.weight == weight)) := by
  simp [bucketAt, initial, List.getElem?_range small, List.filter_map, Function.comp_def]

/-- The first column holds the patterns of the given implicants, if the first one of each pattern
has all rows that match it. -/
theorem holds_initial_of_complete {base : List Implicant}
    (patterns : ∀ p, p ∈ base.map (·.pattern) ↔ p.InColumn width minterms dontCares 0)
    (complete : ∀ m ∈ Bucket.ofList base, m = .complete dontCares m.pattern) :
    (initial width base).Holds width minterms dontCares 0 := by
  refine ⟨by simp [initial], fun weight => ?_⟩
  rcases Nat.lt_or_ge weight (width + 1) with small | large
  · have sees : ∀ a b : Implicant, a.pattern = b.pattern → (a.weight == weight) = (b.weight == weight) :=
      fun a b same => congrArg (Pattern.weight · == weight) same
    have kept : Bucket.ofList (base.filter (·.weight == weight)) = (Bucket.ofList base).filter (·.weight == weight) :=
      distinctOn_filter sees base
    rw [bucketAt_initial _ small]
    refine (Bucket.collects_ofList fun m member => ?_).congr fun p => ?_
    · rw [kept] at member
      exact complete m (List.mem_filter.mp member).1
    · rw [← patterns]
      simp only [List.mem_map, List.mem_filter, beq_iff_eq]
      constructor
      · rintro ⟨m, ⟨member, rfl⟩, rfl⟩
        exact ⟨⟨m, member, rfl⟩, rfl⟩
      · rintro ⟨⟨m, member, rfl⟩, rfl⟩
        exact ⟨m, ⟨member, rfl⟩, rfl⟩
  · rw [bucketAt_of_le (by simpa [initial] using large)]
    apply Bucket.collects_nil
    intro p selected
    obtain ⟨found, rfl⟩ := selected
    have bound := found.weight_le
    omega

/-- The first column holds the patterns of the rows that matter or are of no interest. -/
theorem holds_initial {rows : List Row} (mem_rows : ∀ row, row ∈ rows ↔ row ∈ minterms ∨ row ∈ dontCares)
    (inRange : ∀ row ∈ rows, row < Row.count width) :
    (initial width (rows.map fun row => .complete dontCares (.ofAssignment (row.assignment width)))).Holds
      width minterms dontCares 0 := by
  refine holds_initial_of_complete (fun p => ?_) fun m member => ?_
  · rw [Pattern.inColumn_zero_iff mem_rows inRange, List.map_map, List.mem_map]
    rfl
  · obtain ⟨row, _, rfl⟩ := List.mem_map.mp (mem_of_mem_distinctOn member)
    rfl

end Column

end TwoLevel
