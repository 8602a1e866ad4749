/-! Sets of indexes, one bit for each index of a natural number. Sets with the same
members are equal as numbers, so they can be compared and hashed exactly. -/

set_option autoImplicit false

namespace TwoLevel

/-- A finite set of indexes; bit `i` tells whether `i` is a member. -/
structure IndexSet where
  bits : Nat
  deriving DecidableEq, Repr

namespace IndexSet

/-- The largest prime below two to the power 63. Sets are hashed by the remainder, in which every bit
of a large number counts. -/
def hashModulus : Nat := 9223372036854775783

instance : Hashable IndexSet := ⟨fun s => mixHash 7 (hash (s.bits % hashModulus))⟩

instance : EmptyCollection IndexSet := ⟨⟨0⟩⟩

instance : Inhabited IndexSet := ⟨∅⟩

def contains (s : IndexSet) (i : Nat) : Bool := s.bits.testBit i

instance : Membership Nat IndexSet := ⟨fun s i => s.contains i = true⟩

instance (i : Nat) (s : IndexSet) : Decidable (i ∈ s) := inferInstanceAs (Decidable (s.contains i = true))

theorem mem_def {i : Nat} {s : IndexSet} : i ∈ s ↔ s.bits.testBit i = true := Iff.rfl

@[simp] theorem not_mem_empty (i : Nat) : i ∉ (∅ : IndexSet) := by
  rw [mem_def]
  show ¬ Nat.testBit 0 i = true
  simp

def insert (s : IndexSet) (i : Nat) : IndexSet := ⟨s.bits ||| 1 <<< i⟩

@[simp] theorem mem_insert {s : IndexSet} {i j : Nat} : j ∈ s.insert i ↔ j = i ∨ j ∈ s := by
  simp only [mem_def, insert, Nat.one_shiftLeft, Nat.testBit_or, Bool.or_eq_true, Nat.testBit_two_pow,
    decide_eq_true_eq]
  constructor
  · rintro (member | same)
    · exact .inr member
    · exact .inl same.symm
  · rintro (same | member)
    · exact .inr same.symm
    · exact .inl member

def ofList (indexes : List Nat) : IndexSet := indexes.foldl insert ∅

theorem mod_log2_lt {bits : Nat} (nonzero : bits ≠ 0) : bits % 1 <<< bits.log2 < bits := by
  rw [Nat.one_shiftLeft]
  exact Nat.lt_of_lt_of_le (Nat.mod_lt _ (Nat.two_pow_pos _)) (Nat.log2_self_le nonzero)

/-- The positions of the bits of a number in ascending order, before those of a list. The
highest bit is taken away first. -/
def bitsBefore (bits : Nat) (above : List Nat) : List Nat :=
  if bits = 0 then above else bitsBefore (bits % 1 <<< bits.log2) (bits.log2 :: above)
termination_by bits
decreasing_by exact mod_log2_lt ‹_›

theorem bitsBefore_eq {bits n : Nat} (above : List Nat) (small : bits < 1 <<< n) :
    bitsBefore bits above = (List.range n).filter bits.testBit ++ above := by
  induction n generalizing bits above with
  | zero =>
    have zero : bits = 0 := by simpa using small
    subst zero
    rw [bitsBefore, if_pos rfl]
    rfl
  | succ n ih =>
    rw [List.range_succ, List.filter_append, List.append_assoc]
    cases top : bits.testBit n with
    | false =>
      have lower : bits < 1 <<< n := by
        rw [Nat.one_shiftLeft] at small ⊢
        refine Nat.lt_pow_two_of_testBit bits fun i above => ?_
        rcases Nat.eq_or_lt_of_le above with rfl | higher
        · exact top
        · exact Nat.testBit_lt_two_pow (Nat.lt_of_lt_of_le small (Nat.pow_le_pow_right Nat.two_pos higher))
      rw [ih above lower]
      simp [top]
    | true =>
      have nonzero : bits ≠ 0 := fun zero => by simp [zero] at top
      have log : bits.log2 = n :=
        (Nat.log2_eq_iff nonzero).mpr ⟨Nat.ge_two_pow_of_testBit top, Nat.one_shiftLeft (n + 1) ▸ small⟩
      have lower : bits % 1 <<< n < 1 <<< n := by
        rw [Nat.one_shiftLeft]
        exact Nat.mod_lt _ (Nat.two_pow_pos n)
      have below : (List.range n).filter (bits % 1 <<< n).testBit = (List.range n).filter bits.testBit := by
        refine List.filter_congr fun i inRange => ?_
        rw [Nat.one_shiftLeft, Nat.testBit_mod_two_pow, decide_eq_true (List.mem_range.mp inRange), Bool.true_and]
      rw [bitsBefore, if_neg nonzero, log, ih _ lower]
      rw [below]
      simp [top]

def toList (s : IndexSet) : List Nat := bitsBefore s.bits []

theorem toList_eq (s : IndexSet) : s.toList = (List.range (s.bits.log2 + 1)).filter s.contains := by
  have small : s.bits < 1 <<< (s.bits.log2 + 1) := by
    rw [Nat.one_shiftLeft]
    exact Nat.lt_log2_self
  rw [toList, bitsBefore_eq [] small, List.append_nil]
  rfl

@[simp] theorem mem_toList {i : Nat} {s : IndexSet} : i ∈ s.toList ↔ i ∈ s := by
  rw [toList_eq, List.mem_filter, List.mem_range]
  refine ⟨And.right, fun member => ⟨?_, member⟩⟩
  rcases Nat.lt_or_ge i (s.bits.log2 + 1) with small | large
  · exact small
  · have high := Nat.lt_of_lt_of_le (Nat.lt_log2_self (n := s.bits)) (Nat.pow_le_pow_right Nat.two_pos large)
    rw [mem_def, Nat.testBit_lt_two_pow high] at member
    exact absurd member Bool.false_ne_true

def size (s : IndexSet) : Nat := s.toList.length

def isEmpty (s : IndexSet) : Bool := s.bits == 0

theorem ext_of_mem {s t : IndexSet} (same : ∀ i, i ∈ s ↔ i ∈ t) : s = t := by
  cases s with | mk a =>
    cases t with | mk b =>
      refine congrArg mk (Nat.eq_of_testBit_eq fun i => ?_)
      exact Bool.eq_iff_iff.mpr (same i)

end IndexSet

end TwoLevel
