import Mathlib.Data.List.Induction
import Mathlib.Data.Nat.Digits.Defs
import TwoLevel.Implicant.Basic
import TwoLevel.Proofs.Merging

/-! Row numbers as machine words. The digits of a word are found by shifting it, and no word is
shifted by its own width or more. A word is made of values by shifting them in at the end, and
those that were read first are lost when there are more than 64. Both come to what is done with
natural numbers, so a row number and an assignment stand for each other as far as 64 digits go. -/

set_option autoImplicit false

namespace TwoLevel

theorem Row.binaryValue_eq_ofDigits (values : List Bool) :
    binaryValue values = Nat.ofDigits 2 (values.reverse.map Bool.toNat) := by
  induction values using List.reverseRecOn with
  | nil => rfl
  | append_singleton values b ih =>
    rw [binaryValue_concat, List.reverse_concat, List.map_cons, Nat.ofDigits_cons, ih, Nat.add_comm]

/-- A machine word. -/
abbrev Word := BitVec 64

namespace Word

/-- Shift the bit to the end and take the others away. -/
def bit (word : Word) (i : Nat) : Bool := word >>> i &&& 1#64 == 1#64

theorem bit_eq (word : Word) (i : Nat) : word.bit i = word.toNat.testBit i := by
  have last : word >>> i &&& 1#64 = BitVec.setWidth 64 (BitVec.ofBool (word.getLsbD i)) := by
    rw [BitVec.and_one_eq_setWidth_ofBool_getLsbD, BitVec.getLsbD_ushiftRight, Nat.add_zero]
  rw [bit, last, BitVec.testBit_toNat]
  cases word.getLsbD i <;> rfl

/-- The digits of a word, most significant first. There are none beyond the last 64. -/
def assignment (width : Nat) (word : Word) : List Bool :=
  (List.range width).map fun position => decide (width - 1 - position < 64) && word.bit (width - 1 - position)

/-- The word that has the values as its digits. -/
def ofAssignment (values : List Bool) : Word :=
  values.foldl (fun word value => word <<< 1 ||| BitVec.ofNat 64 value.toNat) 0

/-- Where the test of the position fails, the bit is zero anyway. -/
theorem guarded_bit_eq (word : Word) (i : Nat) : (decide (i < 64) && word.bit i) = word.toNat.testBit i := by
  rw [bit_eq]
  rcases Nat.lt_or_ge i 64 with inside | beyond
  · rw [decide_eq_true inside, Bool.true_and]
  · rw [Nat.testBit_lt_two_pow (BitVec.toNat_lt_twoPow_of_le beyond), Bool.and_false]

theorem assignment_eq (width : Nat) (word : Word) : word.assignment width = Row.assignment width word.toNat := by
  simp only [assignment, guarded_bit_eq]
  induction width with
  | zero => rfl
  | succ width ih =>
    rw [Row.assignment, ← ih, List.range_succ_eq_map, List.map_cons, List.map_map]
    refine congrArg (_ :: ·) (List.map_congr_left fun position _ => ?_)
    rw [Function.comp_apply, Nat.add_sub_cancel, Nat.succ_eq_add_one, Nat.add_comm position, Nat.sub_sub]

theorem toNat_shiftLeft_or (word : Word) (value : Bool) :
    (word <<< 1 ||| BitVec.ofNat 64 value.toNat).toNat = (2 * word.toNat + value.toNat) % 2 ^ 64 := by
  have shifted : (word <<< 1).toNat = 2 ^ 1 * (word.toNat % 2 ^ 63) := by
    rw [BitVec.toNat_shiftLeft, Nat.shiftLeft_eq]
    omega
  have single : (BitVec.ofNat 64 value.toNat).toNat = value.toNat := by cases value <;> rfl
  have small : value.toNat < 2 ^ 1 := value.toNat_lt
  rw [BitVec.toNat_or, shifted, single, ← Nat.two_pow_add_eq_or_of_lt small]
  omega

/-- The digits that are shifted out of the word are those that the remainder leaves out. -/
theorem toNat_ofAssignment (values : List Bool) : (ofAssignment values).toNat = Row.ofAssignment values := by
  rw [Row.ofAssignment_eq]
  induction values using List.reverseRecOn with
  | nil => rfl
  | append_singleton values b ih =>
    rw [ofAssignment, List.foldl_append, List.foldl_cons, List.foldl_nil, ← ofAssignment, toNat_shiftLeft_or, ih,
      Row.binaryValue_concat]
    omega

/-- In a table over 64 variables or more every word is the number of a row. -/
theorem lt_count_iff (width : Nat) (word : Word) :
    word.toNat < Row.count width ↔ ¬(width < 64 ∧ word >>> width ≠ 0) := by
  rw [Row.count_eq]
  have shifted : word >>> width = 0 ↔ word.toNat < 2 ^ width := by
    rw [← BitVec.toNat_inj, BitVec.toNat_ushiftRight, Nat.shiftRight_eq_div_pow]
    exact Nat.div_eq_zero_iff_lt (Nat.two_pow_pos width)
  rw [not_and_or, not_ne_iff, shifted]
  refine ⟨.inr, fun either => either.elim (fun wide => ?_) id⟩
  exact BitVec.toNat_lt_twoPow_of_le (Nat.le_of_not_lt wide)

end Word

namespace Implicant

/-- The implicant of the row that a word numbers. Only a table with fewer rows than there are words can
miss it. -/
def ofWord (width : Nat) (dontCare : Bool) (word : Word) : Except MinimizeError Implicant :=
  if width < 1 then .error (.tooNarrow width)
  else if width < 64 ∧ word >>> width ≠ 0 then .error (.rowOutOfRange word.toNat width)
  else .ok ⟨.ofAssignment (word.assignment width), SortedSet.ofList [word.toNat], dontCare, false⟩

theorem ofWord_eq (width : Nat) (dontCare : Bool) (word : Word) :
    ofWord width dontCare word = ofRow width dontCare word.toNat := by
  rw [ofWord, ofRow, Word.assignment_eq]
  simp only [Word.lt_count_iff, ite_not]

end Implicant

/-- For a number of one word and any width, and for any list of values. The digits of a number are as
many as there are variables, and they give the number back as far as they and 64 bits go. The number
of an assignment is its big-endian value in 64 bits, and gives back the last 64 values, after as many
values false as are missing. So an implicant of one row exists exactly for the rows of the table, also
of one with more rows than there are words, and only the assignment of the row matches it. Shifting
words comes to the same in all three. -/
theorem Row.conversions_exact (word : Word) (width : Nat) (values : List Bool) (dontCare : Bool) :
    (assignment width word.toNat).length = width ∧
      ofAssignment (assignment width word.toNat) = word.toNat % 2 ^ min width 64 ∧
      ofAssignment values = Nat.ofDigits 2 (values.reverse.map Bool.toNat) % 2 ^ 64 ∧
      assignment values.length (ofAssignment values) =
        List.replicate (values.length - 64) false ++ values.drop (values.length - 64) ∧
      (values.length ≤ 64 → assignment values.length (ofAssignment values) = values) ∧
      ((∃ m, Implicant.ofRow width dontCare word.toNat = .ok m) ↔ 1 ≤ width ∧ word.toNat < 2 ^ width) ∧
      (∀ m, Implicant.ofRow width dontCare word.toNat = .ok m →
        ∀ given, m.pattern.admits given = true ↔ given = assignment width word.toNat) ∧
      word.assignment width = assignment width word.toNat ∧
      (Word.ofAssignment values).toNat = ofAssignment values ∧
      Implicant.ofWord width dontCare word = Implicant.ofRow width dontCare word.toNat := by
  refine ⟨length_assignment width word.toNat, ofAssignment_assignment_eq_mod width word.toNat, ?value,
    assignment_ofAssignment values, assignment_ofAssignment_of_le, ?made, ?matched,
    word.assignment_eq width, Word.toNat_ofAssignment values, Implicant.ofWord_eq width dontCare word⟩
  case value => rw [ofAssignment_eq, binaryValue_eq_ofDigits]
  case made =>
    rw [← count_eq]
    constructor
    · rintro ⟨m, made⟩
      obtain ⟨positive, small, _⟩ := Implicant.ofRow_eq_ok_iff.mp made
      exact ⟨positive, small⟩
    · rintro ⟨positive, small⟩
      exact ⟨_, Implicant.ofRow_eq_ok_iff.mpr ⟨positive, small, rfl⟩⟩
  case matched =>
    intro m made
    obtain ⟨_, _, rfl⟩ := Implicant.ofRow_eq_ok_iff.mp made
    exact fun given => Pattern.admits_ofAssignment

-- Of 65 values the first is lost.
example : Row.assignment 65 (Row.ofAssignment (List.replicate 65 true)) = false :: List.replicate 64 true := by decide

end TwoLevel
