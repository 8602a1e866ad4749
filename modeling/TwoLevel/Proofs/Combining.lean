import TwoLevel.Implicant.Basic
import TwoLevel.Proofs.Merging

/-! Combining two implicants. It succeeds exactly if their patterns differ at one variable that
both name, and then yields what the two cover together, in either order. The weights of such
patterns differ by one, so nothing is lost by looking at the weights first, and one pass over the
two patterns finds the variable. -/

set_option autoImplicit false

namespace TwoLevel

namespace Pattern

/-- The patterns differ at one variable only, and both name it. -/
def Adjacent (p q : Pattern) : Prop :=
  ∃ (i : Nat) (s t : Slot), p[i]? = some s ∧ q[i]? = some t ∧ s ≠ t ∧ s ≠ .absent ∧ t ≠ .absent ∧
    ∀ j, j ≠ i → p[j]? = q[j]?

variable {p q r : Pattern} {s t : Slot}

/-- The first slots differ and the others agree, or the other way round. -/
theorem adjacent_cons_iff :
    Adjacent (s :: p) (t :: q) ↔ s = t ∧ Adjacent p q ∨ s ≠ t ∧ s ≠ .absent ∧ t ≠ .absent ∧ p = q := by
  constructor
  · rintro ⟨i, s', t', first, second, different, named, named', others⟩
    cases i with
    | zero =>
      cases first
      cases second
      exact .inr ⟨different, named, named', List.ext_getElem? fun j => others (j + 1) (Nat.succ_ne_zero j)⟩
    | succ i =>
      refine .inl ⟨Option.some.inj (others 0 (Nat.succ_ne_zero i).symm), i, s', t', first, second, different, named,
        named', fun j other => ?_⟩
      exact others (j + 1) (mt Nat.succ.inj other)
  · rintro (⟨rfl, i, s', t', first, second, different, named, named', others⟩ | ⟨different, named, named', rfl⟩)
    · refine ⟨i + 1, s', t', first, second, different, named, named', fun j other => ?_⟩
      cases j with
      | zero => rfl
      | succ j => exact others j (mt (congrArg Nat.succ) other)
    · refine ⟨0, s, t, rfl, rfl, different, named, named', fun j other => ?_⟩
      cases j with
      | zero => exact absurd rfl other
      | succ j => rfl

theorem exists_merge?_iff : (∃ r, p.merge? q = some r) ↔ Adjacent p q := by
  induction p generalizing q with
  | nil =>
    constructor
    · rintro ⟨r, merged⟩
      cases merged
    · rintro ⟨i, s, t, first, _⟩
      cases first
  | cons s p ih =>
    cases q with
    | nil =>
      constructor
      · rintro ⟨r, merged⟩
        cases merged
      · rintro ⟨i, s', t, _, second, _⟩
        cases second
    | cons t q =>
      rw [adjacent_cons_iff, ← ih, merge?]
      by_cases same : s = t
      · rw [if_pos same, and_iff_right same, or_iff_left fun facts => facts.1 same]
        simp only [Option.map_eq_some_iff]
        constructor
        · rintro ⟨_, tail, merged, _⟩
          exact ⟨tail, merged⟩
        · rintro ⟨tail, merged⟩
          exact ⟨_, tail, merged, rfl⟩
      · rw [if_neg same, or_iff_right fun facts => same facts.1, and_iff_right same]
        split
        · rename_i facts
          exact iff_of_true ⟨_, rfl⟩ facts
        · rename_i facts
          refine iff_of_false ?_ facts
          rintro ⟨r, merged⟩
          cases merged

theorem length_eq_of_merge? (merged : p.merge? q = some r) : p.length = q.length := by
  rcases halves_of_merge? merged with halves | halves
  · exact halves.length_low.trans halves.length_high.symm
  · exact halves.length_high.trans halves.length_low.symm

theorem admits_of_merge? (merged : p.merge? q = some r) (values : List Bool) :
    r.admits values = true ↔ p.admits values = true ∨ q.admits values = true := by
  rcases halves_of_merge? merged with halves | halves
  · rw [halves.admits, Bool.or_eq_true]
  · rw [halves.admits, Bool.or_eq_true, or_comm]

/-- The weights of patterns that merge differ by one, and the merge keeps the smaller one. -/
theorem weight_of_merge? (merged : p.merge? q = some r) :
    (q.weight = p.weight + 1 ∨ p.weight = q.weight + 1) ∧ r.weight = min p.weight q.weight := by
  rcases halves_of_merge? merged with halves | halves
  · have low := halves.weight_low
    have high := halves.weight_high
    omega
  · have low := halves.weight_low
    have high := halves.weight_high
    omega

theorem merge?_comm : p.merge? q = q.merge? p := by
  apply Option.ext
  intro r
  rw [merge?_eq_some_iff, merge?_eq_some_iff, or_comm]

/-- Go through two patterns from the given position on for the only one where they differ, which
may have been found before. The pass ends at a second one, and where only one of the two names
the variable. -/
def differing? (position : Nat) (found : Option Nat) : Pattern → Pattern → Option Nat
  | s :: p, t :: q =>
    if s = t then differing? (position + 1) found p q
    else if s = .absent ∨ t = .absent ∨ found.isSome then none
    else differing? (position + 1) (some position) p q
  | _, _ => found

/-- Once a position has been found, the rest must be the same. -/
theorem differing?_some (same : p.length = q.length) (position i : Nat) :
    differing? position (some i) p q = if p = q then some i else none := by
  induction p generalizing q position with
  | nil =>
    obtain rfl := List.length_eq_zero_iff.mp same.symm
    rfl
  | cons s p ih =>
    cases q with
    | nil => cases same
    | cons t q =>
      rw [differing?, ih (Nat.succ.inj same)]
      by_cases agree : s = t
      · simp only [agree, if_true, List.cons.injEq, true_and]
      · simp only [agree, if_false, Option.isSome_some, or_true, if_true, List.cons.injEq, false_and]

/-- Leaving out the variable that the pass finds is merging. The slots before the position are
those that have been passed, and they agree. -/
theorem map_set_differing? (same : p.length = q.length) (before : Pattern) :
    (differing? before.length none p q).map ((before ++ p).set · .absent) = (p.merge? q).map (before ++ ·) := by
  induction p generalizing q before with
  | nil =>
    obtain rfl := List.length_eq_zero_iff.mp same.symm
    rfl
  | cons s p ih =>
    cases q with
    | nil => cases same
    | cons t q =>
      have tails := Nat.succ.inj same
      rw [differing?, merge?]
      by_cases agree : s = t
      · have passed := ih tails (before ++ [s])
        simp only [List.length_append, List.length_singleton, List.append_assoc, List.singleton_append] at passed
        rw [if_pos agree, if_pos agree, passed, Option.map_map]
        rfl
      · rw [if_neg agree, if_neg agree, differing?_some tails]
        simp only [Option.isSome_none, Bool.false_eq_true, or_false]
        by_cases facts : s ≠ .absent ∧ t ≠ .absent ∧ p = q
        · obtain ⟨named, named', rest⟩ := facts
          rw [if_neg (not_or.mpr ⟨named, named'⟩), if_pos rest, if_pos ⟨named, named', rest⟩, Option.map_some,
            Option.map_some, List.set_append_right _ _ (Nat.le_refl _), Nat.sub_self]
          rfl
        · rw [if_neg facts]
          split
          · rfl
          · rename_i named
            obtain ⟨named, named'⟩ := not_or.mp named
            rw [if_neg fun rest => facts ⟨named, named', rest⟩]
            rfl

end Pattern

namespace Implicant

/-- The implicant stands for what two others cover together: it admits their assignments and has
their rows, and it is new. -/
structure IsUnion (a b m : Implicant) : Prop where
  admits : ∀ values, m.pattern.admits values = true ↔ a.pattern.admits values = true ∨ b.pattern.admits values = true
  rows : ∀ row, row ∈ m.rows ↔ row ∈ a.rows ∨ row ∈ b.rows
  dontCare : m.dontCare = true ↔ a.dontCare = true ∧ b.dontCare = true
  combined : m.combined = false
  weight : m.weight = min a.weight b.weight

/-- Combine two implicants in one pass over their patterns, which is made only if the weights
differ by one. -/
def combineByScan (a b : Implicant) : Except MinimizeError (Option Combination) :=
  if a.width ≠ b.width then .error (.widthMismatch a.width b.width)
  else if b.weight = a.weight + 1 ∨ a.weight = b.weight + 1 then
    .ok ((Pattern.differing? 0 none a.pattern b.pattern).map fun position =>
      ⟨a.unite b (a.pattern.set position .absent), { a with combined := true }, { b with combined := true }⟩)
  else .ok none

/-- What has become of two implicants after combining them was tried. -/
def afterCombining (a b : Implicant) : Implicant × Implicant :=
  match a.combine b with
  | .ok (some combination) => (combination.first, combination.second)
  | .ok none | .error _ => (a, b)

variable {a b : Implicant} {p : Pattern}

theorem unite_comm (a b : Implicant) (p : Pattern) : a.unite b p = b.unite a p := by
  have rows : a.rows ∪ b.rows = b.rows ∪ a.rows := by
    apply SortedSet.ext_of_mem
    intro row
    rw [SortedSet.mem_union, SortedSet.mem_union, or_comm]
  unfold unite
  rw [rows, Bool.and_comm]

theorem isUnion_unite (merged : a.pattern.merge? b.pattern = some p) : IsUnion a b (a.unite b p) where
  admits := Pattern.admits_of_merge? merged
  rows := fun row => SortedSet.mem_union
  dontCare := by
    show (a.dontCare && b.dontCare) = true ↔ _
    rw [Bool.and_eq_true]
  combined := rfl
  weight := (Pattern.weight_of_merge? merged).2

theorem combine_of_merge? (merged : a.pattern.merge? b.pattern = some p) :
    a.combine b = .ok (some ⟨a.unite b p, { a with combined := true }, { b with combined := true }⟩) := by
  have same : a.width = b.width := Pattern.length_eq_of_merge? merged
  unfold combine merge?
  rw [if_pos same, merged]
  rfl

/-- Patterns that do not merge leave nothing to combine, whatever their widths are. -/
theorem combine_of_not_adjacent (apart : ¬a.pattern.Adjacent b.pattern) :
    a.combine b = if a.width = b.width then .ok none else .error (.widthMismatch a.width b.width) := by
  have unmerged : a.pattern.merge? b.pattern = none :=
    Option.eq_none_iff_forall_ne_some.mpr fun r merged => apart (Pattern.exists_merge?_iff.mp ⟨r, merged⟩)
  unfold combine merge?
  rw [unmerged]
  rfl

theorem exists_combine_iff :
    (∃ combination, a.combine b = .ok (some combination)) ↔ a.pattern.Adjacent b.pattern := by
  constructor
  · rintro ⟨combination, found⟩
    by_contra apart
    rw [combine_of_not_adjacent apart] at found
    split at found <;> cases found
  · intro adjacent
    obtain ⟨p, merged⟩ := Pattern.exists_merge?_iff.mpr adjacent
    exact ⟨_, combine_of_merge? merged⟩

theorem eq_of_combine {combination : Combination} (found : a.combine b = .ok (some combination)) :
    ∃ p, a.pattern.merge? b.pattern = some p ∧
      combination = ⟨a.unite b p, { a with combined := true }, { b with combined := true }⟩ := by
  obtain ⟨p, merged⟩ := Pattern.exists_merge?_iff.mpr (exists_combine_iff.mp ⟨combination, found⟩)
  cases (combine_of_merge? merged).symm.trans found
  exact ⟨p, merged, rfl⟩

theorem afterCombining_of_combine {combination : Combination} (found : a.combine b = .ok (some combination)) :
    a.afterCombining b = (combination.first, combination.second) := by
  unfold afterCombining
  rw [found]

theorem afterCombining_of_failure (failed : ∀ combination, a.combine b ≠ .ok (some combination)) :
    a.afterCombining b = (a, b) := by
  unfold afterCombining
  split
  · rename_i combination found
    exact absurd found (failed combination)
  · rfl
  · rfl

/-- Implicants whose weights do not differ by one are not adjacent, and the others are left to the pass. -/
theorem combineByScan_eq (a b : Implicant) : a.combineByScan b = a.combine b := by
  unfold combineByScan
  by_cases same : a.width = b.width
  · rw [if_neg (not_not.mpr same)]
    split
    · have found := Pattern.map_set_differing? same []
      simp only [List.length_nil, List.nil_append, Option.map_id'] at found
      unfold combine merge?
      rw [if_pos same, ← found, Option.map_map, Option.map_map]
      rfl
    · rename_i weights
      have apart : ¬a.pattern.Adjacent b.pattern := by
        intro adjacent
        obtain ⟨r, merged⟩ := Pattern.exists_merge?_iff.mpr adjacent
        exact weights (Pattern.weight_of_merge? merged).1
      rw [combine_of_not_adjacent apart, if_pos same]
  · exact (if_pos same).trans (if_neg same).symm

/-- What combining any two implicants does. Different widths are an error. Otherwise it succeeds
exactly if the patterns are adjacent. Looking at the weights first and then making one pass over
the patterns comes to the same. On success both are marked and nothing else about them changes,
and the order of the two does not matter to the union. In all other cases they stay as they are. -/
theorem combine_exact (a b : Implicant) :
    (a.width ≠ b.width → a.combine b = .error (.widthMismatch a.width b.width)) ∧
      (a.width = b.width → ¬a.pattern.Adjacent b.pattern → a.combine b = .ok none) ∧
      ((∃ combination, a.combine b = .ok (some combination)) ↔ a.pattern.Adjacent b.pattern) ∧
      a.combineByScan b = a.combine b ∧
      (∀ combination, a.combine b = .ok (some combination) →
        IsUnion a b combination.merged ∧
          a.afterCombining b = ({ a with combined := true }, { b with combined := true }) ∧
          ∃ other, b.combine a = .ok (some other) ∧ other.merged = combination.merged) ∧
      ((∀ combination, a.combine b ≠ .ok (some combination)) → a.afterCombining b = (a, b)) := by
  refine ⟨fun different => if_neg different, ?apart, exists_combine_iff, combineByScan_eq a b, ?success,
    afterCombining_of_failure⟩
  case apart =>
    intro same apart
    rw [combine_of_not_adjacent apart, if_pos same]
  case success =>
    intro combination found
    obtain ⟨p, merged, rfl⟩ := eq_of_combine found
    refine ⟨isUnion_unite merged, afterCombining_of_combine found, ?_⟩
    exact ⟨_, combine_of_merge? (Pattern.merge?_comm.trans merged), unite_comm b a p⟩

end Implicant

end TwoLevel
