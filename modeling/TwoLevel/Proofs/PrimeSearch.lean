import TwoLevel.Proofs.Columns

/-! The result of the search for prime implicants: all prime implicants of the function,
once each, with all their rows and without marks. -/

set_option autoImplicit false

namespace TwoLevel

variable {width : Nat} {minterms dontCares : RowSet}

theorem Implicant.marked_complete {p : Pattern} (closed : ¬p.Widenable minterms dontCares) :
    (complete dontCares p).marked minterms dontCares = complete dontCares p := by
  unfold marked
  rw [pattern_complete, decide_eq_false closed]
  rfl

namespace Column

variable {k : Nat} {column : Column}

theorem mem_flatten_iff {m : Implicant} : m ∈ column.flatten ↔ ∃ weight, m ∈ column.bucketAt weight := by
  rw [List.mem_flatten]
  constructor
  · rintro ⟨bucket, inColumn, member⟩
    obtain ⟨weight, found⟩ := List.mem_iff_getElem?.mp inColumn
    exact ⟨weight, by rwa [bucketAt, found, Option.getD_some]⟩
  · rintro ⟨weight, member⟩
    unfold bucketAt at member
    cases found : column[weight]? with
    | none =>
      rw [found] at member
      exact absurd member List.not_mem_nil
    | some bucket =>
      rw [found] at member
      exact ⟨bucket, List.mem_of_getElem? found, member⟩

theorem Holds.mem_flatten_iff_inColumn (holds : column.Holds width minterms dontCares k) {m : Implicant} :
    m ∈ column.flatten ↔ ∃ p, p.InColumn width minterms dontCares k ∧ m = .complete dontCares p := by
  rw [mem_flatten_iff]
  constructor
  · rintro ⟨weight, member⟩
    obtain ⟨p, ⟨inColumn, _⟩, rfl⟩ := (holds.buckets weight).mem_bucket_iff.mp member
    exact ⟨p, inColumn, rfl⟩
  · rintro ⟨p, inColumn, rfl⟩
    exact ⟨p.weight, (holds.buckets _).mem_bucket_iff.mpr ⟨p, ⟨inColumn, rfl⟩, rfl⟩⟩

theorem Holds.weight_eq (holds : column.Holds width minterms dontCares k) {weight : Nat}
    (inRange : weight < column.length) {m : Implicant} (member : m ∈ column[weight]) : m.weight = weight := by
  have bucket : column.bucketAt weight = column[weight] := by simp [bucketAt, inRange]
  obtain ⟨p, ⟨_, own⟩, rfl⟩ := (holds.buckets weight).mem_bucket_iff.mp (bucket ▸ member)
  exact own

theorem Holds.nodup_flatten (holds : column.Holds width minterms dontCares k) :
    (column.flatten.map (·.pattern)).Nodup := by
  rw [List.map_flatten, List.nodup_flatten]
  constructor
  · intro patterns member
    obtain ⟨bucket, inColumn, rfl⟩ := List.mem_map.mp member
    obtain ⟨weight, found⟩ := List.mem_iff_getElem?.mp inColumn
    have nodup := (holds.buckets weight).nodup
    rwa [bucketAt, found, Option.getD_some] at nodup
  · apply List.pairwise_iff_getElem.mpr
    intro i j iRange jRange less
    rw [List.length_map] at iRange jRange
    intro p first second
    rw [List.getElem_map] at first second
    obtain ⟨m, inFirst, rfl⟩ := List.mem_map.mp first
    obtain ⟨other, inSecond, same⟩ := List.mem_map.mp second
    -- A pattern in two buckets would have two weights.
    have weights : other.weight = m.weight := congrArg Pattern.weight same
    rw [holds.weight_eq iRange inFirst, holds.weight_eq jRange inSecond] at weights
    omega

theorem Holds.flatten_mark (holds : column.Holds width minterms dontCares k) :
    column.mark.flatten = column.flatten.map (Implicant.marked minterms dontCares) := by
  rw [holds.mark_eq, List.map_flatten]

/-- The unmarked implicants of a column that match a minterm are prime. -/
theorem Holds.mem_primes_mark (holds : column.Holds width minterms dontCares k)
    (disjoint : ∀ row ∈ minterms, row ∉ dontCares) {m : Implicant} :
    m ∈ column.mark.primes ↔
      ∃ p : Pattern, p.IsPrime minterms dontCares width ∧ p.absents = k ∧ m = .complete dontCares p := by
  rw [primes, holds.flatten_mark, List.mem_filter, List.mem_map, Bool.and_eq_true, Bool.not_eq_true',
    Bool.not_eq_true']
  constructor
  · rintro ⟨⟨source, member, rfl⟩, unmarked, matters⟩
    obtain ⟨p, inColumn, rfl⟩ := holds.mem_flatten_iff_inColumn.mp member
    have closed : ¬p.Widenable minterms dontCares := of_decide_eq_false unmarked
    have useful : ∃ row ∈ minterms, p.Matches row := by
      by_contra useless
      -- Without a minterm all its rows are of no interest, and it would be hidden.
      refine Bool.eq_false_iff.mp matters (Implicant.dontCare_complete.mpr fun row matched => ?_)
      exact (inColumn.implicant row matched).resolve_left fun minterm => useless ⟨row, minterm, matched⟩
    exact ⟨p, Pattern.isPrime_iff.mpr ⟨inColumn.length_eq, inColumn.implicant, useful, closed⟩,
      inColumn.absents_eq, Implicant.marked_complete closed⟩
  · rintro ⟨p, prime, rfl, rfl⟩
    obtain ⟨length_eq, implicant, ⟨row, minterm, matched⟩, closed⟩ := Pattern.isPrime_iff.mp prime
    refine ⟨⟨_, holds.mem_flatten_iff_inColumn.mpr ⟨p, ⟨length_eq, rfl, implicant⟩, rfl⟩,
      Implicant.marked_complete closed⟩, rfl, Bool.eq_false_iff.mpr fun flag => ?_⟩
    exact disjoint row minterm (Implicant.dontCare_complete.mp flag row matched)

theorem Holds.nodup_primes_mark (holds : column.Holds width minterms dontCares k) :
    (column.mark.primes.map (·.pattern)).Nodup := by
  refine List.Nodup.sublist (List.filter_sublist.map _) ?_
  rw [holds.flatten_mark, List.map_map]
  exact holds.nodup_flatten

theorem Holds.not_inColumn_of_isEmpty (holds : column.Holds width minterms dontCares k)
    (empty : column.isEmpty = true) (p : Pattern) : ¬p.InColumn width minterms dontCares k := by
  intro inColumn
  obtain ⟨bucket, member, found⟩ := List.mem_flatten.mp (holds.mem_flatten_iff_inColumn.mpr ⟨p, inColumn, rfl⟩)
  rw [List.isEmpty_iff.mp (List.all_eq_true.mp empty bucket member)] at found
  exact absurd found List.not_mem_nil

theorem passes_eq (column : Column) :
    column.passes = column.mark :: if column.next.isEmpty then [] else column.next.passes := by
  rw [passes]
  split <;> rfl

/-- Each pass of the search marks a column for which the invariant holds. -/
theorem Holds.exists_of_getElem?_passes {column pass : Column} {k i : Nat}
    (holds : column.Holds width minterms dontCares k) (found : column.passes[i]? = some pass) :
    ∃ source : Column, source.Holds width minterms dontCares (k + i) ∧ pass = source.mark := by
  rw [passes_eq] at found
  cases i with
  | zero =>
    cases found
    exact ⟨column, holds, rfl⟩
  | succ i =>
    rw [List.getElem?_cons_succ] at found
    cases last : column.next.isEmpty with
    | true =>
      rw [last, if_pos rfl] at found
      cases found
    | false =>
      rw [last, if_neg Bool.false_ne_true] at found
      rw [← Nat.add_assoc, Nat.add_right_comm]
      exact holds.next.exists_of_getElem?_passes found
termination_by column.length
decreasing_by exact length_next_lt last

/-- From column `k` on, the search finds the prime implicants with at least `k` absent variables. -/
theorem Holds.mem_primes_passes {column : Column} {k : Nat} (holds : column.Holds width minterms dontCares k)
    (disjoint : ∀ row ∈ minterms, row ∉ dontCares) {m : Implicant} :
    m ∈ column.passes.flatMap primes ↔
      ∃ p : Pattern, p.IsPrime minterms dontCares width ∧ k ≤ p.absents ∧ m = .complete dontCares p := by
  rw [passes_eq, List.flatMap_cons, List.mem_append, holds.mem_primes_mark disjoint]
  cases last : column.next.isEmpty with
  | true =>
    -- An implicant beyond this column would have a part in the next one.
    have noLarger : ∀ p : Pattern, p.IsPrime minterms dontCares width → ¬k + 1 ≤ p.absents := by
      intro p prime beyond
      have inColumn : p.InColumn width minterms dontCares p.absents := ⟨prime.length_eq, rfl, prime.implicant⟩
      obtain ⟨q, inNext⟩ := inColumn.exists_of_le beyond
      exact holds.next.not_inColumn_of_isEmpty last q inNext
    rw [if_pos rfl, List.flatMap_nil]
    constructor
    · intro found
      cases found with
      | inl here =>
        obtain ⟨p, prime, rfl, rfl⟩ := here
        exact ⟨p, prime, Nat.le_refl _, rfl⟩
      | inr later => exact absurd later List.not_mem_nil
    · intro known
      obtain ⟨p, prime, le, rfl⟩ := known
      have bound := noLarger p prime
      exact .inl ⟨p, prime, by omega, rfl⟩
  | false =>
    rw [if_neg Bool.false_ne_true, holds.next.mem_primes_passes disjoint]
    constructor
    · intro found
      cases found with
      | inl here =>
        obtain ⟨p, prime, rfl, rfl⟩ := here
        exact ⟨p, prime, Nat.le_refl _, rfl⟩
      | inr later =>
        obtain ⟨p, prime, beyond, rfl⟩ := later
        exact ⟨p, prime, Nat.le_of_succ_le beyond, rfl⟩
    · intro known
      obtain ⟨p, prime, le, rfl⟩ := known
      rcases Nat.eq_or_lt_of_le le with same | beyond
      · exact .inl ⟨p, prime, same.symm, rfl⟩
      · exact .inr ⟨p, prime, beyond, rfl⟩
termination_by column.length
decreasing_by exact length_next_lt last

theorem Holds.nodup_primes_passes {column : Column} {k : Nat} (holds : column.Holds width minterms dontCares k)
    (disjoint : ∀ row ∈ minterms, row ∉ dontCares) :
    ((column.passes.flatMap primes).map (·.pattern)).Nodup := by
  rw [passes_eq, List.flatMap_cons, List.map_append]
  cases last : column.next.isEmpty with
  | true => simpa using holds.nodup_primes_mark
  | false =>
    rw [if_neg Bool.false_ne_true]
    refine List.nodup_append.mpr ⟨holds.nodup_primes_mark, holds.next.nodup_primes_passes disjoint, ?_⟩
    -- The prime implicants of different columns differ in the number of absent variables.
    rintro p here q later rfl
    obtain ⟨m, member, rfl⟩ := List.mem_map.mp here
    obtain ⟨p, _, absents, rfl⟩ := (holds.mem_primes_mark disjoint).mp member
    obtain ⟨m, member, same⟩ := List.mem_map.mp later
    obtain ⟨q, _, beyond, rfl⟩ := (holds.next.mem_primes_passes disjoint).mp member
    have equal : q = p := same
    rw [equal, absents] at beyond
    exact absurd beyond (Nat.not_succ_le_self k)
termination_by column.length
decreasing_by exact length_next_lt last

end Column

end TwoLevel
