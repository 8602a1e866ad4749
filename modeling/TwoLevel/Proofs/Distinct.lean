import Mathlib.Data.List.Induction
import Mathlib.Data.List.Nodup
import TwoLevel.Distinct

/-! What is left of a list when the elements with a known key are dropped: elements of the
list with different keys, and all its keys. -/

set_option autoImplicit false

namespace TwoLevel

variable {α β : Type} [BEq β] [LawfulBEq β] [Hashable β] {key : α → β}

namespace Distinct

theorem mem_of_mem_addAll {found : Distinct key} {l : List α} {a : α}
    (member : a ∈ (found.addAll l).latestFirst) : a ∈ found.latestFirst ∨ a ∈ l := by
  induction l generalizing found with
  | nil => exact .inl member
  | cons b l ih =>
    rcases ih member with old | new
    · rw [latestFirst_add] at old
      split at old
      · exact .inl old
      · rcases List.mem_cons.mp old with rfl | old
        · exact .inr List.mem_cons_self
        · exact .inl old
    · exact .inr (List.mem_cons_of_mem b new)

theorem mem_keys_add {found : Distinct key} {a : α} {b : β} :
    b ∈ (found.add a).latestFirst.map key ↔ b ∈ found.latestFirst.map key ∨ b = key a := by
  rw [latestFirst_add]
  split
  · rename_i known
    exact (or_iff_left_of_imp fun same => same ▸ known).symm
  · rw [List.map_cons, List.mem_cons, or_comm]

theorem mem_keys_addAll {found : Distinct key} {l : List α} {b : β} :
    b ∈ (found.addAll l).latestFirst.map key ↔ b ∈ found.latestFirst.map key ∨ b ∈ l.map key := by
  induction l generalizing found with
  | nil => simp [addAll]
  | cons a l ih =>
    show b ∈ ((found.add a).addAll l).latestFirst.map key ↔ _
    rw [ih, mem_keys_add, List.map_cons, List.mem_cons, or_assoc]

end Distinct

theorem mem_of_mem_distinctOn {l : List α} {a : α} (member : a ∈ distinctOn key l) : a ∈ l := by
  rcases Distinct.mem_of_mem_addAll (List.mem_reverse.mp member) with inEmpty | found
  · exact absurd inEmpty List.not_mem_nil
  · exact found

@[simp] theorem mem_keys_distinctOn {l : List α} {b : β} :
    b ∈ (distinctOn key l).map key ↔ b ∈ l.map key := by
  rw [distinctOn, Distinct.toList, List.map_reverse, List.mem_reverse, Distinct.mem_keys_addAll]
  exact or_iff_right List.not_mem_nil

theorem nodup_keys_distinctOn (l : List α) : ((distinctOn key l).map key).Nodup := by
  rw [distinctOn, Distinct.toList, List.map_reverse, List.nodup_reverse]
  exact (Distinct.addAll _ l).nodup

@[simp] theorem mem_distinctOn_id {l : List β} {b : β} : b ∈ distinctOn id l ↔ b ∈ l := by
  have keys : b ∈ (distinctOn id l).map id ↔ b ∈ l.map id := mem_keys_distinctOn
  simpa only [List.map_id] using keys

/-- An element at the end is kept if its key is new. -/
theorem distinctOn_concat (l : List α) (a : α) :
    distinctOn key (l ++ [a]) = if key a ∈ l.map key then distinctOn key l else distinctOn key l ++ [a] := by
  have known : key a ∈ ((Distinct.empty : Distinct key).addAll l).latestFirst.map key ↔ key a ∈ l.map key := by
    rw [Distinct.mem_keys_addAll]
    exact or_iff_right List.not_mem_nil
  unfold distinctOn Distinct.toList
  rw [Distinct.addAll_append]
  show (((Distinct.empty : Distinct key).addAll l).add a).latestFirst.reverse = _
  rw [Distinct.latestFirst_add]
  by_cases old : key a ∈ l.map key
  · rw [if_pos old, if_pos (known.mpr old)]
  · rw [if_neg old, if_neg (mt known.mp old), List.reverse_cons]

/-- What is kept of a key is what the list has first. -/
theorem find?_of_mem_distinctOn {l : List α} {a : α} (member : a ∈ distinctOn key l) :
    l.find? (key · == key a) = some a := by
  induction l using List.reverseRecOn with
  | nil => exact absurd (mem_of_mem_distinctOn member) List.not_mem_nil
  | append_singleton l b ih =>
    rw [distinctOn_concat] at member
    split at member
    · rw [List.find?_append, ih member, Option.some_or]
    · rename_i new
      rcases List.mem_append.mp member with old | last
      · rw [List.find?_append, ih old, Option.some_or]
      · rw [List.mem_singleton.mp last]
        have absent : l.find? (key · == key b) = none :=
          List.find?_eq_none.mpr fun x found same => new (eq_of_beq same ▸ List.mem_map_of_mem found)
        rw [List.find?_append, absent, Option.none_or]
        exact List.find?_cons_of_pos BEq.rfl

/-- A test that sees only the keys may be made first. -/
theorem distinctOn_filter {test : α → Bool} (sees : ∀ a b, key a = key b → test a = test b) (l : List α) :
    distinctOn key (l.filter test) = (distinctOn key l).filter test := by
  induction l using List.reverseRecOn with
  | nil => rfl
  | append_singleton l a ih =>
    have known : test a = true → (key a ∈ (l.filter test).map key ↔ key a ∈ l.map key) := by
      intro passed
      constructor
      · exact fun member => (List.filter_sublist.map key).mem member
      · intro member
        obtain ⟨b, found, same⟩ := List.mem_map.mp member
        exact List.mem_map.mpr ⟨b, List.mem_filter.mpr ⟨found, (sees b a same).trans passed⟩, same⟩
    rw [List.filter_append, distinctOn_concat, List.filter_singleton]
    cases passed : test a with
    | true =>
      rw [cond_true, distinctOn_concat, ih]
      simp only [known passed]
      split
      · rfl
      · simp [passed]
    | false =>
      rw [cond_false, List.append_nil, ih]
      split
      · rfl
      · simp [passed]

theorem nodup_distinctOn_id (l : List β) : (distinctOn id l).Nodup := by
  have keys : ((distinctOn id l).map id).Nodup := nodup_keys_distinctOn l
  simpa only [List.map_id] using keys

end TwoLevel
