import TwoLevel.Text.Blank

/-! ASCII letters and digits by their character codes, and what folding to upper case does to
them. No letter or digit is white space. -/

set_option autoImplicit false

namespace TwoLevel.Text

variable {c : Char}

theorem isUpper_iff : c.isUpper = true ↔ 65 ≤ c.toNat ∧ c.toNat ≤ 90 := by
  show decide (c.val ≥ 'A'.val ∧ c.val ≤ 'Z'.val) = true ↔ _
  rw [decide_eq_true_eq]
  exact .rfl

theorem isLower_iff_val : c.isLower = true ↔ 'a'.val ≤ c.val ∧ c.val ≤ 'z'.val := by
  show (decide ('a'.val ≤ c.val) && decide (c.val ≤ 'z'.val)) = true ↔ _
  rw [Bool.and_eq_true, decide_eq_true_eq, decide_eq_true_eq]

theorem isLower_iff : c.isLower = true ↔ 97 ≤ c.toNat ∧ c.toNat ≤ 122 := isLower_iff_val

theorem isDigit_iff : c.isDigit = true ↔ 48 ≤ c.toNat ∧ c.toNat ≤ 57 := by
  show (decide ('0'.val ≤ c.val) && decide (c.val ≤ '9'.val)) = true ↔ _
  rw [Bool.and_eq_true, decide_eq_true_eq, decide_eq_true_eq]
  exact .rfl

theorem isAlpha_iff : c.isAlpha = true ↔ c.isUpper = true ∨ c.isLower = true := by
  show (c.isUpper || c.isLower) = true ↔ _
  rw [Bool.or_eq_true]

theorem isAlphanum_iff : c.isAlphanum = true ↔ c.isAlpha = true ∨ c.isDigit = true := by
  show (c.isAlpha || c.isDigit) = true ↔ _
  rw [Bool.or_eq_true]

theorem toUpper_of_not_isLower (other : ¬c.isLower = true) : c.toUpper = c := by
  unfold Char.toUpper
  exact dif_neg fun lower => other (isLower_iff_val.mpr lower)

theorem toNat_toUpper_of_isLower (lower : c.isLower = true) : c.toUpper.toNat = c.toNat - 32 := by
  have codes := isLower_iff.mp lower
  unfold Char.toUpper
  rw [dif_pos (isLower_iff_val.mp lower)]
  -- The distance to the upper case is added as a word, which wraps around.
  show (c.val + ('A'.val - 'a'.val)).toNat = _
  rw [UInt32.toNat_add]
  show (c.toNat + 4294967264) % 4294967296 = _
  omega

theorem toNat_toLower_of_isUpper (isUpper : c.isUpper = true) : c.toLower.toNat = c.toNat + 32 := by
  have codes := isUpper_iff.mp isUpper
  unfold Char.toLower
  rw [dif_pos (of_decide_eq_true isUpper)]
  show (c.val + ('a'.val - 'A'.val)).toNat = _
  rw [UInt32.toNat_add]
  show (c.toNat + 32) % 4294967296 = _
  omega

theorem isUpper_toUpper_of_isAlpha (letter : c.isAlpha = true) : c.toUpper.isUpper = true := by
  by_cases lower : c.isLower = true
  · have codes := isLower_iff.mp lower
    rw [isUpper_iff, toNat_toUpper_of_isLower lower]
    omega
  · rw [toUpper_of_not_isLower lower]
    exact (isAlpha_iff.mp letter).resolve_right lower

theorem isAlpha_toUpper (letter : c.isAlpha = true) : c.toUpper.isAlpha = true :=
  isAlpha_iff.mpr (.inl (isUpper_toUpper_of_isAlpha letter))

theorem toUpper_toUpper (c : Char) : c.toUpper.toUpper = c.toUpper := by
  by_cases lower : c.isLower = true
  · refine toUpper_of_not_isLower fun again => ?_
    have codes := isUpper_iff.mp (isUpper_toUpper_of_isAlpha (isAlpha_iff.mpr (.inr lower)))
    have codesAgain := isLower_iff.mp again
    omega
  · rw [toUpper_of_not_isLower lower, toUpper_of_not_isLower lower]

theorem isLower_toLower_of_isUpper (isUpper : c.isUpper = true) : c.toLower.isLower = true := by
  have codes := isUpper_iff.mp isUpper
  rw [isLower_iff, toNat_toLower_of_isUpper isUpper]
  omega

theorem toUpper_eq_iff {letter : Char} (isUpper : letter.isUpper = true) :
    c.toUpper = letter ↔ c = letter ∨ c = letter.toLower := by
  have codes := isUpper_iff.mp isUpper
  simp only [← Char.toNat_inj, toNat_toLower_of_isUpper isUpper]
  by_cases lower : c.isLower = true
  · have codesLower := isLower_iff.mp lower
    rw [toNat_toUpper_of_isLower lower]
    omega
  · rw [toUpper_of_not_isLower lower]
    rw [isLower_iff] at lower
    omega

theorem isBlank_of_isAlpha (letter : c.isAlpha = true) : isBlank c = false := by
  rw [isAlpha_iff, isUpper_iff, isLower_iff] at letter
  rw [Bool.eq_false_iff]
  intro blank
  simp only [isBlank, Bool.or_eq_true, Bool.and_eq_true, decide_eq_true_eq] at blank
  omega

theorem isBlank_of_isDigit (digit : c.isDigit = true) : isBlank c = false := by
  rw [isDigit_iff] at digit
  rw [Bool.eq_false_iff]
  intro blank
  simp only [isBlank, Bool.or_eq_true, Bool.and_eq_true, decide_eq_true_eq] at blank
  omega

theorem utf8Size_of_isAlpha (letter : c.isAlpha = true) : c.utf8Size = 1 := by
  rw [isAlpha_iff, isUpper_iff, isLower_iff] at letter
  have ascii : c.toNat ≤ 127 := by omega
  exact Char.utf8Size_eq_one_iff.mpr ascii

/-- A property that all letters share does not tell a character from its upper case. -/
theorem apply_toUpper {α : Type} {f : Char → α} {value : α} (letters : ∀ c, c.isAlpha = true → f c = value)
    (c : Char) : f c.toUpper = f c := by
  by_cases lower : c.isLower = true
  · have letter : c.isAlpha = true := isAlpha_iff.mpr (.inr lower)
    rw [letters c letter, letters c.toUpper (isAlpha_toUpper letter)]
  · rw [toUpper_of_not_isLower lower]

theorem isAlpha_toUpper_eq (c : Char) : c.toUpper.isAlpha = c.isAlpha := apply_toUpper (fun _ => id) c

theorem isAlphanum_toUpper (c : Char) : c.toUpper.isAlphanum = c.isAlphanum :=
  apply_toUpper (fun _ letter => isAlphanum_iff.mpr (.inl letter)) c

theorem isBlank_toUpper (c : Char) : isBlank c.toUpper = isBlank c := apply_toUpper (fun _ => isBlank_of_isAlpha) c

theorem utf8Size_toUpper (c : Char) : c.toUpper.utf8Size = c.utf8Size :=
  apply_toUpper (fun _ => utf8Size_of_isAlpha) c

theorem toUpper_eq_iff_of_not_isAlpha {other : Char} (notLetter : ¬other.isAlpha = true) :
    c.toUpper = other ↔ c = other := by
  have never : ∀ d : Char, d.isAlpha = true → (d = other) = False := by
    intro d letter
    rw [eq_iff_iff, iff_false]
    rintro rfl
    exact notLetter letter
  exact iff_of_eq (apply_toUpper never c)

end TwoLevel.Text
