import Mathlib.Data.Finset.Card

/-! Sets of the smallest size with a property. -/

set_option autoImplicit false

namespace TwoLevel

/-- The set has the property, and no smaller set has it. -/
structure Smallest {α : Type} (P : Finset α → Prop) (s : Finset α) : Prop where
  has : P s
  card_le : ∀ t, P t → s.card ≤ t.card

namespace Smallest

variable {α : Type} {P Q : Finset α → Prop}

theorem exists_of_has {s : Finset α} (has : P s) : ∃ t, Smallest P t := by
  induction size : s.card using Nat.strong_induction_on generalizing s with
  | h n ih =>
    by_cases smaller : ∃ u, P u ∧ u.card < s.card
    · obtain ⟨u, other, less⟩ := smaller
      exact ih u.card (size ▸ less) other rfl
    · exact ⟨s, has, fun u other => Nat.not_lt.mp fun less => smaller ⟨u, other, less⟩⟩

section Split

variable [DecidableEq α] {fixed : Finset α}

theorem disjoint_of_free {s : Finset α} (smallest : Smallest Q s) (free : ∀ s, Q s → Q (s \ fixed)) :
    Disjoint fixed s := by
  have same : s \ fixed = s :=
    Finset.eq_of_subset_of_card_le Finset.sdiff_subset (smallest.card_le _ (free s smallest.has))
  rw [← same]
  exact Finset.disjoint_sdiff

/-- If `P` asks for the members of `fixed` and for `Q`, which the members of `fixed` do not help
with, then the smallest sets with `P` are those with `Q` completed by `fixed`. -/
theorem iff_of_split (split : ∀ s, P s ↔ fixed ⊆ s ∧ Q s) (mono : ∀ s t, s ⊆ t → Q s → Q t)
    (free : ∀ s, Q s → Q (s \ fixed)) (s : Finset α) : Smallest P s ↔ ∃ t, Smallest Q t ∧ s = fixed ∪ t := by
  have completed : ∀ t, Q t → P (fixed ∪ t) := fun t has =>
    (split _).mpr ⟨Finset.subset_union_left, mono t _ Finset.subset_union_right has⟩
  constructor
  · intro smallest
    obtain ⟨subset, has⟩ := (split s).mp smallest.has
    refine ⟨s \ fixed, ⟨free s has, fun t other => ?_⟩, (Finset.union_sdiff_of_subset subset).symm⟩
    -- Otherwise `fixed` and the smaller set would together beat `s`.
    have bound : s.card ≤ (fixed ∪ t).card := smallest.card_le _ (completed t other)
    have union := Finset.card_union_le fixed t
    have rest := Finset.card_sdiff_add_card_eq_card subset
    omega
  · intro found
    obtain ⟨t, smallest, rfl⟩ := found
    refine ⟨completed t smallest.has, fun u other => ?_⟩
    obtain ⟨subset, has⟩ := (split u).mp other
    have bound : t.card ≤ (u \ fixed).card := smallest.card_le _ (free u has)
    have rest := Finset.card_sdiff_add_card_eq_card subset
    have union := Finset.card_union_le fixed t
    omega

end Split

/-- If `Q` implies `P` and every set with `P` contains one with `Q`, the smallest sets are the same. -/
theorem iff_of_refines (implies : ∀ s, Q s → P s) (contains : ∀ s, P s → ∃ t ⊆ s, Q t) (s : Finset α) :
    Smallest P s ↔ Smallest Q s := by
  constructor
  · intro smallest
    obtain ⟨t, subset, has⟩ := contains s smallest.has
    have same : t = s := Finset.eq_of_subset_of_card_le subset (smallest.card_le t (implies t has))
    exact ⟨same ▸ has, fun u other => smallest.card_le u (implies u other)⟩
  · intro smallest
    refine ⟨implies s smallest.has, fun u other => ?_⟩
    obtain ⟨t, subset, has⟩ := contains u other
    exact (smallest.card_le t has).trans (Finset.card_le_card subset)

/-- If the sets with `R` are the images of the sets with `P`, under a function that is injective on
each of these, then the smallest ones correspond. -/
theorem iff_exists_image {β : Type} [DecidableEq β] {g : α → β} {R : Finset β → Prop}
    (injective : ∀ s, P s → Set.InjOn g s) (image : ∀ t, R t ↔ ∃ s, P s ∧ s.image g = t) (t : Finset β) :
    Smallest R t ↔ ∃ s, Smallest P s ∧ s.image g = t := by
  constructor
  · intro smallest
    obtain ⟨s, has, rfl⟩ := (image t).mp smallest.has
    refine ⟨s, ⟨has, fun u other => ?_⟩, rfl⟩
    calc s.card = (s.image g).card := (Finset.card_image_of_injOn (injective s has)).symm
      _ ≤ (u.image g).card := smallest.card_le _ ((image _).mpr ⟨u, other, rfl⟩)
      _ ≤ u.card := Finset.card_image_le
  · intro found
    obtain ⟨s, smallest, rfl⟩ := found
    refine ⟨(image _).mpr ⟨s, smallest.has, rfl⟩, fun _ other => ?_⟩
    obtain ⟨u, has, rfl⟩ := (image _).mp other
    calc (s.image g).card ≤ s.card := Finset.card_image_le
      _ ≤ u.card := smallest.card_le u has
      _ = (u.image g).card := (Finset.card_image_of_injOn (injective u has)).symm

end Smallest

end TwoLevel
