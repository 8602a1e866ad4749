import TwoLevel.Pattern
import TwoLevel.Proofs.Numbering

/-! The rows that match a pattern, and how patterns of different sizes hang together. A
pattern with an absent variable has two halves, in which that variable is negated and
asserted; a row matches the whole if it matches one of them. Two patterns merge exactly
if they are the halves of a third one. -/

set_option autoImplicit false

namespace TwoLevel.Pattern

/-- The row is one of the table over the variables of the pattern, and its assignment is
admitted. -/
def Matches (p : Pattern) (row : Row) : Prop :=
  row < Row.count p.length ∧ p.admits (row.assignment p.length) = true

instance (p : Pattern) (row : Row) : Decidable (p.Matches row) := inferInstanceAs (Decidable (_ ∧ _))

/-- The number of variables that take no part. -/
def absents (p : Pattern) : Nat := p.count .absent

/-- The halves of a pattern at one of its absent variables, the negated one first. -/
def Halves (low high whole : Pattern) : Prop :=
  ∃ before after, low = before ++ .negated :: after ∧ high = before ++ .asserted :: after ∧
    whole = before ++ .absent :: after

theorem weight_add_absents_le (p : Pattern) : p.weight + p.absents ≤ p.length := by
  unfold weight absents
  induction p with
  | nil => rfl
  | cons s p ih =>
    rw [List.length_cons, List.count_cons, List.count_cons]
    cases s <;> simp <;> omega

section Assignments

@[simp] theorem length_ofAssignment (values : List Bool) : (ofAssignment values).length = values.length :=
  List.length_map _

theorem absents_ofAssignment (values : List Bool) : (ofAssignment values).absents = 0 := by
  apply List.count_eq_zero.mpr
  intro member
  obtain ⟨value, _, same⟩ := List.mem_map.mp member
  cases value <;> exact Slot.noConfusion same

theorem exists_ofAssignment {p : Pattern} (full : p.absents = 0) : ∃ values, p = ofAssignment values := by
  induction p with
  | nil => exact ⟨[], rfl⟩
  | cons s p ih =>
    have present : Slot.absent ∉ s :: p := List.count_eq_zero.mp full
    obtain ⟨values, rfl⟩ := ih (List.count_eq_zero.mpr fun member => present (List.mem_cons_of_mem s member))
    cases s with
    | negated => exact ⟨false :: values, rfl⟩
    | asserted => exact ⟨true :: values, rfl⟩
    | absent => exact absurd List.mem_cons_self present

theorem admits_ofAssignment {given values : List Bool} :
    (ofAssignment given).admits values = true ↔ values = given := by
  induction given generalizing values with
  | nil => cases values <;> simp [ofAssignment, admits]
  | cons b given ih =>
    cases values with
    | nil => simp [ofAssignment, admits]
    | cons value values =>
      have tail := @ih values
      rw [ofAssignment] at tail
      simp only [ofAssignment, List.map_cons, admits, Bool.and_eq_true, tail, List.cons.injEq]
      cases b <;> cases value <;> simp [Slot.ofBool, Slot.admits]

end Assignments

section Rows

/-- The pattern of a row is matched by this row only. -/
theorem matches_ofAssignment {width : Nat} {row other : Row} (small : row < Row.count width) :
    (ofAssignment (row.assignment width)).Matches other ↔ other = row := by
  rw [Matches, length_ofAssignment, Row.length_assignment, admits_ofAssignment]
  constructor
  · rintro ⟨otherSmall, same⟩
    exact Row.eq_of_assignment_eq otherSmall small same
  · rintro rfl
    exact ⟨small, rfl⟩

/-- A pattern in which every variable takes part is the pattern of a row. -/
theorem exists_row {p : Pattern} (full : p.absents = 0) :
    ∃ row : Row, row < Row.count p.length ∧ p = ofAssignment (row.assignment p.length) := by
  obtain ⟨values, rfl⟩ := exists_ofAssignment full
  refine ⟨Row.binaryValue values, ?_, ?_⟩
  · rw [length_ofAssignment]
    exact Row.binaryValue_lt_count values
  · rw [length_ofAssignment, Row.assignment_binaryValue]

theorem matches_binaryValue {p : Pattern} {values : List Bool} (same : values.length = p.length) :
    p.Matches (Row.binaryValue values) ↔ p.admits values = true := by
  rw [Matches, ← same, Row.assignment_binaryValue]
  exact and_iff_right (Row.binaryValue_lt_count values)

end Rows

section Halves

variable {low high whole : Pattern}

theorem Halves.length_low (halves : Halves low high whole) : low.length = whole.length := by
  obtain ⟨before, after, rfl, rfl, rfl⟩ := halves
  simp only [List.length_append, List.length_cons]

theorem Halves.length_high (halves : Halves low high whole) : high.length = whole.length := by
  obtain ⟨before, after, rfl, rfl, rfl⟩ := halves
  simp only [List.length_append, List.length_cons]

theorem Halves.weight_low (halves : Halves low high whole) : low.weight = whole.weight := by
  obtain ⟨before, after, rfl, rfl, rfl⟩ := halves
  simp [weight, List.count_append]

theorem Halves.weight_high (halves : Halves low high whole) : high.weight = whole.weight + 1 := by
  obtain ⟨before, after, rfl, rfl, rfl⟩ := halves
  simp [weight, List.count_append]
  omega

theorem Halves.absents_low (halves : Halves low high whole) : whole.absents = low.absents + 1 := by
  obtain ⟨before, after, rfl, rfl, rfl⟩ := halves
  simp [absents, List.count_append]
  omega

theorem Halves.absents_high (halves : Halves low high whole) : whole.absents = high.absents + 1 := by
  obtain ⟨before, after, rfl, rfl, rfl⟩ := halves
  simp [absents, List.count_append]
  omega

theorem Halves.admits (halves : Halves low high whole) (values : List Bool) :
    whole.admits values = (low.admits values || high.admits values) := by
  obtain ⟨before, after, rfl, rfl, rfl⟩ := halves
  -- Before the absent slot the three patterns agree.
  induction before generalizing values with
  | nil => cases values with
    | nil => rfl
    | cons value values => cases value <;> simp [Pattern.admits, Slot.admits]
  | cons s before ih => cases values with
    | nil => rfl
    | cons value values =>
      simp only [List.cons_append, Pattern.admits]
      rw [ih, Bool.and_or_distrib_left]

theorem Halves.matches_iff (halves : Halves low high whole) (row : Row) :
    whole.Matches row ↔ low.Matches row ∨ high.Matches row := by
  rw [Matches, Matches, Matches, halves.length_low, halves.length_high, halves.admits, Bool.or_eq_true,
    and_or_left]

theorem exists_halves (positive : 0 < whole.absents) : ∃ low high, Halves low high whole := by
  obtain ⟨before, after, rfl⟩ := List.append_of_mem (List.count_pos_iff.mp positive)
  exact ⟨_, _, before, after, rfl, rfl, rfl⟩

theorem Halves.cons (s : Slot) (halves : Halves low high whole) :
    Halves (s :: low) (s :: high) (s :: whole) := by
  obtain ⟨before, after, rfl, rfl, rfl⟩ := halves
  exact ⟨s :: before, after, rfl, rfl, rfl⟩

theorem Halves.merge? (halves : Halves low high whole) :
    low.merge? high = some whole ∧ high.merge? low = some whole := by
  obtain ⟨before, after, rfl, rfl, rfl⟩ := halves
  induction before with
  | nil => simp [Pattern.merge?]
  | cons s before ih => simp [Pattern.merge?, ih]

theorem halves_of_merge? {p q r : Pattern} (merged : p.merge? q = some r) :
    Halves p q r ∨ Halves q p r := by
  induction p generalizing q r with
  | nil => simp [Pattern.merge?] at merged
  | cons a p ih =>
    cases q with
    | nil => simp [Pattern.merge?] at merged
    | cons b q =>
      simp only [Pattern.merge?] at merged
      split at merged
      · rename_i same
        obtain ⟨tail, found, rfl⟩ := Option.map_eq_some_iff.mp merged
        subst same
        exact (ih found).imp (.cons a) (.cons a)
      · split at merged
        · rename_i different facts
          obtain ⟨given, other, rfl⟩ := facts
          obtain rfl := Option.some.inj merged
          -- Two different slots that are not absent are negated and asserted, in one order.
          cases a <;> cases b <;> try contradiction
          · exact .inl ⟨[], p, rfl, rfl, rfl⟩
          · exact .inr ⟨[], p, rfl, rfl, rfl⟩
        · cases merged

theorem merge?_eq_some_iff {p q r : Pattern} : p.merge? q = some r ↔ Halves p q r ∨ Halves q p r := by
  constructor
  · exact halves_of_merge?
  · intro either
    cases either with
    | inl halves => exact halves.merge?.1
    | inr halves => exact halves.merge?.2

/-- With the weights known, it is known which half is which. -/
theorem halves_of_merge?_of_weight {p q r : Pattern} (merged : p.merge? q = some r)
    (heavier : q.weight = p.weight + 1) : Halves p q r := by
  rcases halves_of_merge? merged with halves | halves
  · exact halves
  · have low := halves.weight_low
    have high := halves.weight_high
    omega

end Halves

section Widening

def leaveOut (p : Pattern) (i : Nat) : Pattern := p.set i .absent

/-- The pattern `r` is `p` without one of the variables that take part in it. -/
def Widens (p r : Pattern) : Prop :=
  ∃ i, ∃ inRange : i < p.length, p[i] ≠ .absent ∧ r = p.leaveOut i

theorem leaveOut_append (before after : Pattern) (s : Slot) :
    leaveOut (before ++ s :: after) before.length = before ++ .absent :: after := by
  rw [leaveOut, List.set_append_right _ _ (Nat.le_refl _), Nat.sub_self, List.set_cons_zero]

theorem Widens.of_append (before after : Pattern) {s : Slot} (named : s ≠ .absent) :
    Widens (before ++ s :: after) (before ++ .absent :: after) := by
  refine ⟨before.length, by simp, ?_, (leaveOut_append before after s).symm⟩
  rw [List.getElem_append_right (Nat.le_refl _)]
  simpa using named

theorem widens_iff {p r : Pattern} : p.Widens r ↔ ∃ q, Halves p q r ∨ Halves q p r := by
  constructor
  · intro widens
    obtain ⟨i, inRange, named, rfl⟩ := widens
    have parts : p = p.take i ++ p[i] :: p.drop (i + 1) := by simp
    have whole : p.leaveOut i = p.take i ++ .absent :: p.drop (i + 1) := by
      rw [leaveOut, List.set_eq_take_append_cons_drop, if_pos inRange]
    -- The slot that is left out tells which half `p` is.
    cases slot : p[i] with
    | negated => exact ⟨_, .inl ⟨_, _, slot ▸ parts, rfl, whole⟩⟩
    | asserted => exact ⟨_, .inr ⟨_, _, rfl, slot ▸ parts, whole⟩⟩
    | absent => exact absurd slot named
  · intro found
    obtain ⟨q, either⟩ := found
    cases either with
    | inl halves =>
      obtain ⟨before, after, rfl, _, rfl⟩ := halves
      exact .of_append before after Slot.noConfusion
    | inr halves =>
      obtain ⟨before, after, _, rfl, rfl⟩ := halves
      exact .of_append before after Slot.noConfusion

theorem Widens.length_eq {p r : Pattern} (widens : p.Widens r) : r.length = p.length := by
  obtain ⟨q, halves | halves⟩ := widens_iff.mp widens
  · exact halves.length_low.symm
  · exact halves.length_high.symm

theorem Widens.absents_eq {p r : Pattern} (widens : p.Widens r) : r.absents = p.absents + 1 := by
  obtain ⟨q, halves | halves⟩ := widens_iff.mp widens
  · exact halves.absents_low
  · exact halves.absents_high

theorem Widens.matches_of_matches {p r : Pattern} (widens : p.Widens r) {row : Row}
    (matched : p.Matches row) : r.Matches row := by
  obtain ⟨q, halves | halves⟩ := widens_iff.mp widens
  · exact (halves.matches_iff row).mpr (.inl matched)
  · exact (halves.matches_iff row).mpr (.inr matched)

end Widening

end TwoLevel.Pattern
