/-! Finite sets over a linear order, kept as the strictly ascending list of their
members. Two sets with the same members are equal, and a set is read in order. -/

set_option autoImplicit false

namespace TwoLevel

/-- A finite set, held as its members in strictly ascending order. -/
structure SortedSet (α : Type) [LT α] where
  toList : List α
  ascending : toList.Pairwise (· < ·)

namespace SortedSet

section Order

variable {α : Type} [LT α]

instance : EmptyCollection (SortedSet α) := ⟨⟨[], .nil⟩⟩

instance : Inhabited (SortedSet α) := ⟨∅⟩

instance : Membership α (SortedSet α) := ⟨fun s a => a ∈ s.toList⟩

theorem mem_def {a : α} {s : SortedSet α} : a ∈ s ↔ a ∈ s.toList := Iff.rfl

instance [DecidableEq α] (a : α) (s : SortedSet α) : Decidable (a ∈ s) :=
  inferInstanceAs (Decidable (a ∈ s.toList))

theorem eq_of_toList_eq {s t : SortedSet α} (same : s.toList = t.toList) : s = t := by
  cases s; cases t; cases same; rfl

instance [DecidableEq α] : DecidableEq (SortedSet α) := fun s t =>
  decidable_of_iff (s.toList = t.toList) ⟨eq_of_toList_eq, fun same => same ▸ rfl⟩

def size (s : SortedSet α) : Nat := s.toList.length

def isEmpty (s : SortedSet α) : Bool := s.toList.isEmpty

end Order

section Lists

variable {α : Type} [LT α] [DecidableLT α]

/-- Put an element at its place in an ascending list, unless it is there already. -/
def insertList (a : α) : List α → List α
  | [] => [a]
  | b :: rest => if a < b then a :: b :: rest else if b < a then b :: insertList a rest else b :: rest

/-- Merge the ascending list `a :: l` with another one, where `rest` merges `l`. -/
def mergeHead (a : α) (l : List α) (rest : List α → List α) : List α → List α
  | [] => a :: l
  | b :: m =>
    if a < b then a :: rest (b :: m)
    else if b < a then b :: mergeHead a l rest m
    else a :: rest m

/-- Merge two ascending lists, keeping one copy of what occurs in both. -/
def mergeList : List α → List α → List α
  | [] => id
  | a :: l => mergeHead a l (mergeList l)

end Lists

variable {α : Type} [LT α] [LE α] [DecidableLT α] [Std.IsLinearOrder α] [Std.LawfulOrderLT α]

omit [LE α] [Std.IsLinearOrder α] [Std.LawfulOrderLT α] in
theorem mem_of_mem_insertList {a x : α} {l : List α} (member : x ∈ insertList a l) : x = a ∨ x ∈ l := by
  induction l with
  | nil => simpa [insertList] using member
  | cons b rest ih =>
    simp only [insertList] at member
    split at member
    · simpa using member
    · split at member
      · rcases List.mem_cons.mp member with rfl | member
        · simp
        · rcases ih member with rfl | member <;> simp [*]
      · exact Or.inr member

theorem mem_insertList {a x : α} {l : List α} : x ∈ insertList a l ↔ x = a ∨ x ∈ l := by
  refine ⟨mem_of_mem_insertList, ?_⟩
  induction l with
  | nil => simp [insertList]
  | cons b rest ih =>
    intro member
    simp only [insertList]
    split
    · simpa using member
    · rename_i notBelow
      split
      · rcases member with rfl | member
        · exact List.mem_cons_of_mem _ (ih (.inl rfl))
        · rcases List.mem_cons.mp member with rfl | member
          · exact List.mem_cons_self
          · exact List.mem_cons_of_mem _ (ih (.inr member))
      · rename_i notAbove
        rcases member with rfl | member
        · exact List.mem_cons.mpr (.inl (Std.le_antisymm (Std.not_lt.mp notAbove) (Std.not_lt.mp notBelow)))
        · exact member

theorem pairwise_insertList {a : α} {l : List α} (sorted : l.Pairwise (· < ·)) :
    (insertList a l).Pairwise (· < ·) := by
  induction l with
  | nil => simp [insertList]
  | cons b rest ih =>
    obtain ⟨below, tail⟩ := List.pairwise_cons.mp sorted
    simp only [insertList]
    split
    · rename_i less
      refine List.pairwise_cons.mpr ⟨fun x member => ?_, sorted⟩
      rcases List.mem_cons.mp member with rfl | member
      · exact less
      · exact Std.lt_trans less (below x member)
    · split
      · rename_i greater
        refine List.pairwise_cons.mpr ⟨fun x member => ?_, ih tail⟩
        rcases mem_of_mem_insertList member with rfl | member
        · exact greater
        · exact below x member
      · exact sorted

def insert (a : α) (s : SortedSet α) : SortedSet α :=
  ⟨insertList a s.toList, pairwise_insertList s.ascending⟩

@[simp] theorem mem_insert {a x : α} {s : SortedSet α} : x ∈ s.insert a ↔ x = a ∨ x ∈ s :=
  mem_insertList

/-- The set of the elements of a list, in any order and with repetitions. -/
def ofList (l : List α) : SortedSet α := l.foldr insert ∅

@[simp] theorem mem_ofList {x : α} {l : List α} : x ∈ ofList l ↔ x ∈ l := by
  induction l with
  | nil => exact Iff.rfl
  | cons a rest ih => simp only [ofList, List.foldr_cons, mem_insert, List.mem_cons] at ih ⊢; rw [ih]

theorem mem_mergeHead {a x : α} {l : List α} {rest : List α → List α}
    (inRest : ∀ m, x ∈ rest m ↔ x ∈ l ∨ x ∈ m) (m : List α) :
    x ∈ mergeHead a l rest m ↔ x ∈ a :: l ∨ x ∈ m := by
  induction m with
  | nil => simp [mergeHead]
  | cons b m ih =>
    simp only [mergeHead]
    split
    · simp only [List.mem_cons, inRest]; grind
    · split
      · simp only [List.mem_cons, ih]; grind
      · rename_i notBelow notAbove
        have same : a = b := Std.le_antisymm (Std.not_lt.mp notAbove) (Std.not_lt.mp notBelow)
        simp only [List.mem_cons, inRest, same]; grind

theorem mem_mergeList {x : α} {l m : List α} : x ∈ mergeList l m ↔ x ∈ l ∨ x ∈ m := by
  induction l generalizing m with
  | nil => simp [mergeList]
  | cons a l ih => exact mem_mergeHead (fun m => ih) m

theorem pairwise_mergeHead {a : α} {l : List α} {rest : List α → List α}
    (sortedL : (a :: l).Pairwise (· < ·)) (inRest : ∀ m x, x ∈ rest m ↔ x ∈ l ∨ x ∈ m)
    (sortedRest : ∀ m, m.Pairwise (· < ·) → (rest m).Pairwise (· < ·)) (m : List α)
    (sortedM : m.Pairwise (· < ·)) : (mergeHead a l rest m).Pairwise (· < ·) := by
  obtain ⟨belowL, _⟩ := List.pairwise_cons.mp sortedL
  induction m with
  | nil => exact sortedL
  | cons b m ih =>
    obtain ⟨belowM, tail⟩ := List.pairwise_cons.mp sortedM
    simp only [mergeHead]
    split
    · rename_i less
      refine List.pairwise_cons.mpr ⟨fun x member => ?_, sortedRest _ sortedM⟩
      rcases (inRest _ x).mp member with member | member
      · exact belowL x member
      · rcases List.mem_cons.mp member with rfl | member
        · exact less
        · exact Std.lt_trans less (belowM x member)
    · split
      · rename_i greater
        refine List.pairwise_cons.mpr ⟨fun x member => ?_, ih tail⟩
        rcases (mem_mergeHead (fun m => inRest m x) m).mp member with member | member
        · rcases List.mem_cons.mp member with rfl | member
          · exact greater
          · exact Std.lt_trans greater (belowL x member)
        · exact belowM x member
      · rename_i notBelow notAbove
        have same : a = b := Std.le_antisymm (Std.not_lt.mp notAbove) (Std.not_lt.mp notBelow)
        refine List.pairwise_cons.mpr ⟨fun x member => ?_, sortedRest _ tail⟩
        rcases (inRest _ x).mp member with member | member
        · exact belowL x member
        · exact same ▸ belowM x member

theorem pairwise_mergeList {l m : List α} (sortedL : l.Pairwise (· < ·)) (sortedM : m.Pairwise (· < ·)) :
    (mergeList l m).Pairwise (· < ·) := by
  induction l generalizing m with
  | nil => exact sortedM
  | cons a l ih =>
    exact pairwise_mergeHead sortedL (fun _ _ => mem_mergeList)
      (fun _ sorted => ih (List.pairwise_cons.mp sortedL).2 sorted) m sortedM

instance : Union (SortedSet α) :=
  ⟨fun s t => ⟨mergeList s.toList t.toList, pairwise_mergeList s.ascending t.ascending⟩⟩

@[simp] theorem mem_union {x : α} {s t : SortedSet α} : x ∈ s ∪ t ↔ x ∈ s ∨ x ∈ t := mem_mergeList

/-- The members of `s` that lie in `t` too, smallest first. -/
def common [DecidableEq α] (s t : SortedSet α) : List α := s.toList.filter fun a => decide (a ∈ t)

omit [LE α] [DecidableLT α] [Std.IsLinearOrder α] [Std.LawfulOrderLT α] in
@[simp] theorem mem_common [DecidableEq α] {x : α} {s t : SortedSet α} :
    x ∈ s.common t ↔ x ∈ s ∧ x ∈ t := by
  simp [common, mem_def]

omit [DecidableLT α] in
theorem ext_of_mem {s t : SortedSet α} (same : ∀ x, x ∈ s ↔ x ∈ t) : s = t := by
  apply eq_of_toList_eq
  have order : ∀ (l m : List α), l.Pairwise (· < ·) → m.Pairwise (· < ·) →
      (∀ x, x ∈ l ↔ x ∈ m) → l = m := by
    intro l
    induction l with
    | nil =>
      intro m _ _ same
      cases m with
      | nil => rfl
      | cons b _ => exact absurd ((same b).mpr List.mem_cons_self) List.not_mem_nil
    | cons a rest ih =>
      intro m sortedL sortedM same
      cases m with
      | nil => exact absurd ((same a).mp List.mem_cons_self) List.not_mem_nil
      | cons b tail =>
        obtain ⟨belowA, sortedRest⟩ := List.pairwise_cons.mp sortedL
        obtain ⟨belowB, sortedTail⟩ := List.pairwise_cons.mp sortedM
        have head : a = b := by
          rcases List.mem_cons.mp ((same a).mp List.mem_cons_self) with equal | inTail
          · exact equal
          · rcases List.mem_cons.mp ((same b).mpr List.mem_cons_self) with equal | inRest
            · exact equal.symm
            · exact absurd (Std.lt_trans (belowB a inTail) (belowA b inRest)) (Std.lt_irrefl)
        subst head
        refine congrArg (a :: ·) (ih tail sortedRest sortedTail fun x => ?_)
        constructor
        · intro member
          rcases List.mem_cons.mp ((same x).mp (List.mem_cons_of_mem _ member)) with rfl | found
          · exact absurd (belowA x member) Std.lt_irrefl
          · exact found
        · intro member
          rcases List.mem_cons.mp ((same x).mpr (List.mem_cons_of_mem _ member)) with rfl | found
          · exact absurd (belowB x member) Std.lt_irrefl
          · exact found
  exact order s.toList t.toList s.ascending t.ascending same

end SortedSet

end TwoLevel
