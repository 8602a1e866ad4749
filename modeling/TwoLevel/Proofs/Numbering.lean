import Mathlib.Tactic.Ring
import TwoLevel.Row

/-! Row numbers and assignments stand for each other: the digits of a row number are the
assignment, and the binary value of an assignment is the row number. Numbers with more
digits than there are variables lose the digits in front. -/

set_option autoImplicit false

namespace TwoLevel.Row

theorem count_eq (width : Nat) : count width = 2 ^ width := Nat.one_shiftLeft width

theorem foldl_binaryValue (start : Nat) (values : List Bool) :
    values.foldl (fun value b => 2 * value + b.toNat) start =
      2 ^ values.length * start + binaryValue values := by
  unfold binaryValue
  -- Each step doubles what was read before, so the induction is for every `start`.
  induction values generalizing start with
  | nil => simp
  | cons b values ih =>
    rw [List.foldl_cons, List.foldl_cons, ih, ih (2 * 0 + b.toNat), List.length_cons, Nat.pow_succ]
    ring

@[simp] theorem binaryValue_nil : binaryValue [] = 0 := rfl

theorem binaryValue_cons (b : Bool) (values : List Bool) :
    binaryValue (b :: values) = 2 ^ values.length * b.toNat + binaryValue values := by
  rw [binaryValue, List.foldl_cons, foldl_binaryValue, Nat.mul_zero, Nat.zero_add]

theorem binaryValue_lt (values : List Bool) : binaryValue values < 2 ^ values.length := by
  induction values with
  | nil => simp
  | cons b values ih =>
    rw [binaryValue_cons, List.length_cons, Nat.pow_succ]
    cases b <;> simp only [Bool.toNat_false, Bool.toNat_true] <;> omega

theorem binaryValue_lt_count (values : List Bool) : binaryValue values < count values.length := by
  rw [count_eq]
  exact binaryValue_lt values

/-- Only the last `width` digits of a row number matter. -/
theorem assignment_congr {width : Nat} {first second : Row}
    (agree : ∀ i < width, first.testBit i = second.testBit i) :
    assignment width first = assignment width second := by
  induction width with
  | zero => rfl
  | succ width ih =>
    rw [assignment, assignment, agree width (Nat.lt_succ_self width),
      ih fun i below => agree i (Nat.lt_succ_of_lt below)]

@[simp] theorem assignment_binaryValue (values : List Bool) :
    assignment values.length (binaryValue values) = values := by
  induction values with
  | nil => rfl
  | cons b values ih =>
    rw [binaryValue_cons, List.length_cons, assignment]
    -- The first value is the digit in front; below it are the digits of the rest.
    have digits := Nat.testBit_two_pow_mul_add b.toNat (binaryValue_lt values)
    congr 1
    · rw [digits, if_neg (Nat.lt_irrefl _), Nat.sub_self]
      cases b <;> rfl
    · refine Eq.trans (assignment_congr fun i below => ?_) ih
      rw [digits, if_pos below]

theorem binaryValue_assignment (width : Nat) (row : Row) :
    binaryValue (assignment width row) = row % 2 ^ width := by
  induction width with
  | zero => simp [assignment, Nat.mod_one]
  | succ width ih =>
    rw [assignment, binaryValue_cons, length_assignment, ih, Nat.toNat_testBit, Nat.mod_pow_succ, Nat.add_comm]

theorem binaryValue_assignment_of_lt {width : Nat} {row : Row} (small : row < count width) :
    binaryValue (assignment width row) = row := by
  rw [count_eq] at small
  rw [binaryValue_assignment, Nat.mod_eq_of_lt small]

theorem eq_of_assignment_eq {width : Nat} {first second : Row} (firstSmall : first < count width)
    (secondSmall : second < count width) (same : assignment width first = assignment width second) :
    first = second := by
  rw [← binaryValue_assignment_of_lt firstSmall, same, binaryValue_assignment_of_lt secondSmall]

theorem binaryValue_append (front back : List Bool) :
    binaryValue (front ++ back) = 2 ^ back.length * binaryValue front + binaryValue back := by
  rw [binaryValue, List.foldl_append, foldl_binaryValue]
  rfl

theorem binaryValue_concat (values : List Bool) (b : Bool) :
    binaryValue (values ++ [b]) = 2 * binaryValue values + b.toNat := by
  rw [binaryValue, List.foldl_append]
  rfl

theorem binaryValue_replicate_false (n : Nat) : binaryValue (List.replicate n false) = 0 := by
  induction n with
  | zero => rfl
  | succ n ih => rw [List.replicate_succ, binaryValue_cons, ih, Bool.toNat_false, Nat.mul_zero]

theorem ofAssignment_eq (values : List Bool) : ofAssignment values = binaryValue values % 2 ^ 64 := rfl

/-- Of a row number as many digits come back as there are variables, and no more than 64. -/
theorem ofAssignment_assignment_eq_mod (width : Nat) (row : Row) :
    ofAssignment (assignment width row) = row % 2 ^ min width 64 := by
  rw [ofAssignment_eq, binaryValue_assignment]
  rcases Nat.le_total width 64 with narrow | wide
  · have small := Nat.mod_lt row (Nat.two_pow_pos width)
    rw [Nat.min_eq_left narrow, Nat.mod_eq_of_lt]
    exact Nat.lt_of_lt_of_le small (Nat.pow_le_pow_right Nat.two_pos narrow)
  · rw [Nat.min_eq_right wide, Nat.mod_mod_of_dvd row (Nat.pow_dvd_pow 2 wide)]

theorem ofAssignment_of_le {values : List Bool} (short : values.length ≤ 64) :
    ofAssignment values = binaryValue values := by
  rw [ofAssignment_eq, Nat.mod_eq_of_lt]
  exact Nat.lt_of_lt_of_le (binaryValue_lt values) (Nat.pow_le_pow_right Nat.two_pos short)

theorem ofAssignment_append {front back : List Bool} (length : back.length = 64) :
    ofAssignment (front ++ back) = ofAssignment back := by
  rw [ofAssignment_eq, binaryValue_append, length, Nat.mul_add_mod, ← ofAssignment_eq]

/-- The number of an assignment tells nothing about the values before the last 64. -/
theorem ofAssignment_eq_binaryValue (values : List Bool) :
    ofAssignment values =
      binaryValue (List.replicate (values.length - 64) false ++ values.drop (values.length - 64)) := by
  rw [binaryValue_append, binaryValue_replicate_false, Nat.mul_zero, Nat.zero_add]
  rcases Nat.le_total values.length 64 with short | long
  · rw [Nat.sub_eq_zero_of_le short, List.drop_zero, ofAssignment_of_le short]
  · have length : (values.drop (values.length - 64)).length = 64 := by
      rw [List.length_drop, Nat.sub_sub_self long]
    rw [← ofAssignment_of_le (Nat.le_of_eq length), ← ofAssignment_append length, List.take_append_drop]

theorem assignment_ofAssignment (values : List Bool) :
    assignment values.length (ofAssignment values) =
      List.replicate (values.length - 64) false ++ values.drop (values.length - 64) := by
  have same : (List.replicate (values.length - 64) false ++ values.drop (values.length - 64)).length =
      values.length := by
    rw [List.length_append, List.length_replicate, List.length_drop]
    omega
  have kept := assignment_binaryValue (List.replicate (values.length - 64) false ++ values.drop (values.length - 64))
  rwa [same, ← ofAssignment_eq_binaryValue] at kept

theorem assignment_ofAssignment_of_le {values : List Bool} (short : values.length ≤ 64) :
    assignment values.length (ofAssignment values) = values := by
  rw [ofAssignment_of_le short, assignment_binaryValue]

end TwoLevel.Row
