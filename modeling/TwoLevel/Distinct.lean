import Std.Data.HashSet.Lemmas

/-! Collecting elements, the first one of each key, in the order in which they come. The
set of their keys is kept beside them, so that a key is looked up at once. -/

set_option autoImplicit false

namespace TwoLevel

/-- Elements with different keys. -/
structure Distinct {α β : Type} [BEq β] [Hashable β] (key : α → β) where
  keys : Std.HashSet β
  /-- The elements, the latest first. -/
  latestFirst : List α
  mem_keys : ∀ b, b ∈ keys ↔ b ∈ latestFirst.map key
  nodup : (latestFirst.map key).Nodup
  size_keys : keys.size = latestFirst.length

namespace Distinct

variable {α β : Type} [BEq β] [LawfulBEq β] [Hashable β] {key : α → β}

def empty : Distinct key := ⟨∅, [], by simp, .nil, by simp⟩

/-- Add an element, unless there is one with its key. -/
def add : Distinct key → α → Distinct key
  | ⟨keys, latestFirst, mem_keys, nodup, size_keys⟩, a =>
    let step := keys.containsThenInsert (key a)
    have contained : step.1 = keys.contains (key a) := Std.HashSet.containsThenInsert_fst
    have inserted : step.2 = keys.insert (key a) := Std.HashSet.containsThenInsert_snd
    if known : step.1 = true then
      have member : key a ∈ keys := Std.HashSet.mem_iff_contains.mpr (contained ▸ known)
      ⟨step.2, latestFirst,
        fun b => by
          rw [inserted, Std.HashSet.mem_insert, ← mem_keys b, beq_iff_eq]
          exact or_iff_right_of_imp fun same => same ▸ member,
        nodup,
        by rw [inserted, Std.HashSet.size_insert, if_pos member, size_keys]⟩
    else
      have new : key a ∉ keys := fun member => known (contained ▸ Std.HashSet.mem_iff_contains.mp member)
      ⟨step.2, a :: latestFirst,
        fun b => by
          rw [inserted, Std.HashSet.mem_insert, mem_keys b, beq_iff_eq, List.map_cons, List.mem_cons]
          exact or_congr_left eq_comm,
        by
          rw [List.map_cons, List.nodup_cons]
          exact ⟨fun member => new ((mem_keys _).mpr member), nodup⟩,
        by rw [inserted, Std.HashSet.size_insert, if_neg new, size_keys, List.length_cons]⟩

theorem latestFirst_add (found : Distinct key) (a : α) :
    (found.add a).latestFirst =
      if key a ∈ found.latestFirst.map key then found.latestFirst else a :: found.latestFirst := by
  obtain ⟨keys, latestFirst, mem_keys, nodup, size_keys⟩ := found
  simp only [add, Std.HashSet.containsThenInsert_fst]
  have same : keys.contains (key a) = true ↔ key a ∈ latestFirst.map key := by
    rw [← Std.HashSet.mem_iff_contains, mem_keys]
  split
  · rename_i known
    rw [if_pos (same.mp known)]
  · rename_i new
    rw [if_neg fun member => new (same.mpr member)]

def addAll (found : Distinct key) (l : List α) : Distinct key := l.foldl add found

def size (found : Distinct key) : Nat := found.keys.size

/-- The elements in the order in which they came. -/
def toList (found : Distinct key) : List α := found.latestFirst.reverse

omit [LawfulBEq β] in
theorem size_eq_length (found : Distinct key) : found.size = found.toList.length := by
  rw [size, toList, List.length_reverse, found.size_keys]

theorem addAll_append (found : Distinct key) (first second : List α) :
    found.addAll (first ++ second) = (found.addAll first).addAll second := List.foldl_append

theorem size_le_size_addAll (found : Distinct key) (l : List α) : found.size ≤ (found.addAll l).size := by
  induction l generalizing found with
  | nil => exact Nat.le_refl _
  | cons a l ih =>
    refine Nat.le_trans ?_ (ih (found.add a))
    rw [size, size, found.size_keys, (found.add a).size_keys, latestFirst_add]
    split
    · exact Nat.le_refl _
    · exact Nat.le_succ _

end Distinct

/-- The elements of a list whose key no earlier element has. -/
def distinctOn {α β : Type} [BEq β] [LawfulBEq β] [Hashable β] (key : α → β) (l : List α) : List α :=
  ((Distinct.empty : Distinct key).addAll l).toList

theorem Distinct.latestFirst_addAll_map {α β γ : Type} [BEq β] [LawfulBEq β] [Hashable β] {key : γ → β}
    (f : α → γ) (l : List α) {found : Distinct key} {sources : Distinct (key ∘ f)}
    (same : found.latestFirst = sources.latestFirst.map f) :
    (found.addAll (l.map f)).latestFirst = (sources.addAll l).latestFirst.map f := by
  induction l generalizing found sources with
  | nil => exact same
  | cons a l ih =>
    refine ih ?_
    rw [latestFirst_add, latestFirst_add, same, List.map_map]
    show (if key (f a) ∈ _ then _ else _) = List.map f (if key (f a) ∈ _ then _ else _)
    split <;> rfl

/-- Elements may be made from others after it is known which of them are kept. -/
theorem distinctOn_map {α β γ : Type} [BEq β] [LawfulBEq β] [Hashable β] (key : γ → β) (f : α → γ)
    (l : List α) : distinctOn key (l.map f) = (distinctOn (key ∘ f) l).map f := by
  rw [distinctOn, distinctOn, Distinct.toList, Distinct.toList, List.map_reverse]
  exact congrArg List.reverse (Distinct.latestFirst_addAll_map f l rfl)

end TwoLevel
