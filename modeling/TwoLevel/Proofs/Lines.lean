import TwoLevel.Proofs.Cutting
import TwoLevel.Proofs.Decoding

/-! What the lines of an input say, the white space around each of them aside. It does not matter
for this whether a line is taken with its ending or without it. -/

set_option autoImplicit false

namespace TwoLevel.Text

/-- The text of a line without the white space around it, if the bytes are a text. -/
def words? (bytes : List UInt8) : Option (List Char) := (decode? bytes).map trim

theorem words?_concat {byte : UInt8} (ascii : byte < 128) (blank : isBlank (Char.ofUInt8 byte) = true)
    (bytes : List UInt8) : words? (bytes ++ [byte]) = words? bytes := by
  have pad (text : List Char) : trim (text ++ [Char.ofUInt8 byte]) = trim text := by
    simpa using trim_pad text [] [Char.ofUInt8 byte] nofun (by simpa using blank)
  unfold words?
  rw [decode?_concat ascii]
  cases decode? bytes <;> simp [pad]

theorem words?_lineFeed (bytes : List UInt8) : words? (bytes ++ [10]) = words? bytes :=
  words?_concat (by decide) (by decide) bytes

/-- A carriage return at the end of a line may be left out. -/
theorem words?_withoutReturn (before : List UInt8) :
    words? (if before.head? = some 13 then before.tail else before).reverse = words? before.reverse := by
  split
  · rename_i ends
    obtain ⟨rest, rfl⟩ := List.head?_eq_some_iff.mp ends
    rw [List.tail_cons, List.reverse_cons]
    exact (words?_concat (by decide) (by decide) rest.reverse).symm
  · rfl

section Splitting

theorem linesFrom_append (before first second : List UInt8) :
    linesFrom before (first ++ 10 :: second) = linesFrom before (first ++ [10]) ++ lines second := by
  induction first generalizing before with
  | nil => simp [linesFrom, lines]
  | cons byte first ih =>
    by_cases ends : byte = 10
    · simp [linesFrom, ends, ih]
    · simp [linesFrom, ends, ih]

theorem length_linesFrom_concat (before first : List UInt8) :
    (linesFrom before (first ++ [10])).length = first.count 10 + 1 := by
  induction first generalizing before with
  | nil => simp [linesFrom]
  | cons byte first ih =>
    by_cases ends : byte = 10
    · simp [linesFrom, ends, ih]
    · simp [linesFrom, ends, ih]

/-- Lines say the same whether they are taken with their endings or without them. -/
theorem map_words?_rawLinesFrom (before input : List UInt8) :
    (rawLinesFrom before input).map words? = (linesFrom before input).map words? := by
  induction input generalizing before with
  | nil => rfl
  | cons byte input ih =>
    by_cases ends : byte = 10
    · simp only [rawLinesFrom, linesFrom, ends, if_true, List.map_cons, ih, List.reverse_cons]
      rw [words?_lineFeed, words?_withoutReturn]
    · simp [rawLinesFrom, linesFrom, ends, ih]

theorem map_words?_rawLines (input : List UInt8) : (rawLines input).map words? = (lines input).map words? :=
  map_words?_rawLinesFrom [] input

end Splitting

end TwoLevel.Text
