import TwoLevel.Definition.Listing
import TwoLevel.Proofs.Lines

/-! Reading many definitions. A line is read without regard to the white space around it, its
ending included, so an input may be cut at any line feed: its entries are those of the two parts,
with the lines of the second part counted on. -/

set_option autoImplicit false

namespace TwoLevel.Definition

open Text

section Parsing

/-- The definition that the trimmed texts around the equals signs of a line are read as. -/
def ofSides : List (List Char) → Except DefinitionError Definition
  | [header, body] =>
    match readHeader header with
    | .error error => .error error
    | .ok (name, vars) =>
      (readParts vars ((pieces '|' body).map trim)).map fun (minterms, dontCares) =>
        ⟨name, vars, minterms, dontCares⟩
  | _ => .error .equalsSigns

theorem parse_eq_ofSides (line : List Char) : parse line = ofSides ((pieces '=' line).map trim) := by
  unfold parse
  rcases pieces '=' line with _ | ⟨header, _ | ⟨body, _ | ⟨other, more⟩⟩⟩
  · rfl
  · rfl
  · have sides : (pieces '|' (trim body)).map trim = (pieces '|' body).map trim :=
      map_trim_pieces_trim (by decide) body
    cases read : readHeader (trim header) with
    | error error => simp [ofSides, read]
    | ok found => simp [ofSides, read, sides]
  · rfl

/-- What a line is read as, an error with its text included, does not depend on white space around it. -/
theorem parse_trim (line : List Char) : parse (trim line) = parse line := by
  rw [parse_eq_ofSides, parse_eq_ofSides, map_trim_pieces_trim (by decide)]

end Parsing

section Numbering

/-- The entry for what the line of the given number says, if it says anything. -/
def entriesAt (number : Nat) (words : List Char) : List Entry :=
  if words.isEmpty then [] else [⟨number, parse words⟩]

/-- The entry with its line counted on. -/
def Entry.shift (count : Nat) (entry : Entry) : Entry := { entry with line := entry.line + count }

theorem entriesFrom_cons (number : Nat) (text : List Char) (rest : List (List Char)) :
    entriesFrom number (text :: rest) = entriesAt number (trim text) ++ entriesFrom (number + 1) rest := by
  rw [entriesFrom, entriesAt, parse_trim]
  split <;> rfl

theorem entriesFrom_add (number count : Nat) (texts : List (List Char)) :
    entriesFrom (number + count) texts = (entriesFrom number texts).map (Entry.shift count) := by
  induction texts generalizing number with
  | nil => rfl
  | cons text texts ih =>
    have later := ih (number + 1)
    rw [Nat.add_right_comm] at later
    rw [entriesFrom_cons, entriesFrom_cons, later, List.map_append]
    unfold entriesAt
    split <;> simp [Entry.shift]

end Numbering

section Reading

variable {number : Nat} {bytes : List UInt8} {rest first second : List (List UInt8)} {words : List Char}

theorem readTexts_eq_ok_iff {raw : List (List UInt8)} {texts : List (List Char)} :
    readTexts raw = .ok texts ↔ List.Forall₂ (fun bytes text => decode? bytes = some text) raw texts := by
  induction raw generalizing texts with
  | nil => simp [readTexts, eq_comm]
  | cons bytes raw ih =>
    rw [readTexts, List.forall₂_cons_left_iff]
    cases decoded : decode? bytes with
    | none => simp
    | some text =>
      simp only [← ih, Option.some.injEq]
      cases readTexts raw with
      | error error => simp [Except.map]
      | ok others => simp [Except.map, eq_comm]

/-- The lines of a text are texts. -/
theorem exists_readTexts_linesFrom {before input : List UInt8} {text : List Char}
    (decoded : decode? (before.reverse ++ input) = some text) :
    ∃ texts, readTexts (linesFrom before input) = .ok texts := by
  induction input generalizing before text with
  | nil =>
    rw [List.append_nil] at decoded
    cases before with
    | nil => exact ⟨[], rfl⟩
    | cons byte before => exact ⟨[text], readTexts_eq_ok_iff.mpr (.cons decoded .nil)⟩
  | cons byte input ih =>
    by_cases ends : byte = 10
    · obtain ⟨first, rest, _, decodedFirst, decodedRest⟩ := (decode?_append_cons (ends ▸ by decide)).mp decoded
      have later : decode? (([] : List UInt8).reverse ++ input) = some rest := decodedRest
      obtain ⟨texts, read⟩ := ih later
      -- The line itself is without a carriage return at its end, but it is a text if the bytes with it are.
      have said : words? before.reverse = some (trim first) := by rw [words?, decodedFirst, Option.map_some]
      rw [← words?_withoutReturn] at said
      obtain ⟨line, decodedLine, _⟩ := Option.map_eq_some_iff.mp said
      exact ⟨line :: texts, by simp [linesFrom, ends, readTexts, decodedLine, read, Except.map]⟩
    · have later : decode? ((byte :: before).reverse ++ input) = some text := by simpa using decoded
      obtain ⟨texts, read⟩ := ih later
      exact ⟨texts, by simpa [linesFrom, ends] using read⟩

/-- The entries of lines of bytes, of which the first has the given number. -/
def readLines (number : Nat) (lines : List (List UInt8)) : Except SourceError (List Entry) :=
  (readTexts lines).map (entriesFrom number)

theorem readLines_cons_of_some (said : words? bytes = some words) :
    readLines number (bytes :: rest) = (readLines (number + 1) rest).map (entriesAt number words ++ ·) := by
  obtain ⟨text, decoded, rfl⟩ := Option.map_eq_some_iff.mp said
  unfold readLines
  rw [readTexts, decoded]
  cases readTexts rest with
  | error error => rfl
  | ok texts => simp [Except.map, entriesFrom_cons]

theorem readLines_cons_of_none (unreadable : words? bytes = none) :
    readLines number (bytes :: rest) = .error .invalidText := by
  unfold readLines
  rw [readTexts, Option.map_eq_none_iff.mp unreadable]
  rfl

theorem readLines_append (number : Nat) (first second : List (List UInt8)) :
    readLines number (first ++ second) = (readLines number first).bind fun entries =>
      (readLines (number + first.length) second).map (entries ++ ·) := by
  induction first generalizing number with
  | nil =>
    show readLines number second = (readLines number second).map ([] ++ ·)
    cases readLines number second <;> simp [Except.map]
  | cons bytes first ih =>
    have numbers : number + 1 + first.length = number + (first.length + 1) := by omega
    rw [List.cons_append, List.length_cons]
    cases said : words? bytes with
    | none => rw [readLines_cons_of_none said, readLines_cons_of_none said]; rfl
    | some words =>
      rw [readLines_cons_of_some said, readLines_cons_of_some said, ih, numbers]
      cases readLines (number + 1) first with
      | error error => rfl
      | ok entries => cases readLines (number + (first.length + 1)) second <;> simp [Except.map, Except.bind]

theorem readLines_add (number count : Nat) (lines : List (List UInt8)) :
    readLines (number + count) lines = (readLines number lines).map (List.map (Entry.shift count)) := by
  unfold readLines
  cases readTexts lines with
  | error error => rfl
  | ok texts => simp [Except.map, entriesFrom_add]

/-- Only what the lines say is read. -/
theorem readLines_congr (same : first.map words? = second.map words?) (number : Nat) :
    readLines number first = readLines number second := by
  induction first generalizing number second with
  | nil =>
    rw [List.map_eq_nil_iff.mp same.symm]
  | cons bytes first ih =>
    cases second with
    | nil => cases same
    | cons other second =>
      obtain ⟨head, tail⟩ := List.cons.inj same
      cases said : words? bytes with
      | none => rw [readLines_cons_of_none said, readLines_cons_of_none (head ▸ said)]
      | some words => rw [readLines_cons_of_some said, readLines_cons_of_some (head ▸ said), ih tail]

/-- A line feed at the end of the input adds nothing that is read. -/
theorem readLines_linesFrom_concat (number : Nat) (before input : List UInt8) :
    readLines number (linesFrom before (input ++ [10])) = readLines number (linesFrom before input) := by
  induction input generalizing number before with
  | nil =>
    cases before with
    | nil => rfl
    | cons byte before =>
      refine readLines_congr ?_ number
      simpa [linesFrom] using words?_withoutReturn (byte :: before)
  | cons byte input ih =>
    by_cases ends : byte = 10
    · simp only [List.cons_append, linesFrom, ends, if_true]
      cases said : words? (if before.head? = some 13 then before.tail else before).reverse with
      | none => rw [readLines_cons_of_none said, readLines_cons_of_none said]
      | some words => rw [readLines_cons_of_some said, readLines_cons_of_some said, ih]
    · simpa [linesFrom, ends] using ih number (byte :: before)

end Reading

section Seams

variable {before line other after : List UInt8}

/-- An input is read part by part, wherever it is cut at a line feed. -/
theorem readAll_append_cons (first second : List UInt8) :
    readAll (first ++ 10 :: second) = (readAll first).bind fun entries =>
      (readAll second).map fun others => entries ++ others.map (Entry.shift (first.count 10 + 1)) := by
  show readLines 1 (lines (first ++ 10 :: second)) = (readLines 1 (lines first)).bind fun entries =>
    (readLines 1 (lines second)).map fun others => entries ++ others.map (Entry.shift (first.count 10 + 1))
  unfold lines
  rw [linesFrom_append, readLines_append, length_linesFrom_concat, readLines_linesFrom_concat, readLines_add]
  cases readLines 1 (linesFrom [] first) with
  | error error => rfl
  | ok entries =>
    show ((readLines 1 (lines second)).map _).map _ = (readLines 1 (lines second)).map _
    cases readLines 1 (lines second) <;> rfl

/-- The entries of all lines but the one of the given number. -/
def entriesBut (number : Nat) (entries : List Entry) : List Entry := entries.filter (·.line ≠ number)

theorem entriesBut_append (number : Nat) (first second : List Entry) :
    entriesBut number (first ++ second) = entriesBut number first ++ entriesBut number second :=
  List.filter_append _ _

theorem entriesBut_shift (number count : Nat) (entries : List Entry) :
    entriesBut (number + count) (entries.map (Entry.shift count)) =
      (entriesBut number entries).map (Entry.shift count) := by
  unfold entriesBut
  rw [List.filter_map]
  congr 1
  refine List.filter_congr fun entry _ => ?_
  simp [Entry.shift]

theorem linesFrom_of_not_mem (whole : 10 ∉ line) (sofar : List UInt8) :
    linesFrom sofar line = if (sofar.reverse ++ line).isEmpty then [] else [sofar.reverse ++ line] := by
  induction line generalizing sofar with
  | nil => simp [linesFrom]
  | cons byte line ih =>
    rw [List.mem_cons, not_or] at whole
    simp [linesFrom, Ne.symm whole.1, ih whole.2]

/-- A line of text by itself has no entry but for the first line. -/
theorem exists_readAll_of_line (whole : 10 ∉ line) (isText : ∃ text, decode? line = some text) :
    ∃ entries, readAll line = .ok entries ∧ entriesBut 1 entries = [] := by
  obtain ⟨text, decoded⟩ := isText
  have sole : lines line = if line.isEmpty then [] else [line] := linesFrom_of_not_mem whole []
  unfold readAll
  rw [sole]
  split
  · exact ⟨[], rfl, rfl⟩
  · refine ⟨entriesFrom 1 [text], by simp [readTexts, decoded, Except.map], ?_⟩
    rw [entriesFrom_cons, entriesAt]
    split <;> simp [entriesFrom, entriesBut]

theorem map_entriesBut_append_cons (number : Nat) (first second : List UInt8) :
    (readAll (first ++ 10 :: second)).map (entriesBut (number + (first.count 10 + 1))) =
      (readAll first).bind fun entries => ((readAll second).map (entriesBut number)).map fun others =>
        entriesBut (number + (first.count 10 + 1)) entries ++ others.map (Entry.shift (first.count 10 + 1)) := by
  rw [readAll_append_cons]
  cases readAll first with
  | error error => rfl
  | ok entries => cases readAll second <;> simp [Except.map, Except.bind, entriesBut_append, entriesBut_shift]

/-- Two lines of text in one place make no difference to the other entries. -/
theorem readAll_but_line (textLine : ∃ text, decode? line = some text) (textOther : ∃ text, decode? other = some text)
    (wholeLine : 10 ∉ line) (wholeOther : 10 ∉ other) (ended : after = [] ∨ after.head? = some 10) :
    (readAll (line ++ after)).map (entriesBut 1) = (readAll (other ++ after)).map (entriesBut 1) := by
  obtain ⟨entries, read, noneHere⟩ := exists_readAll_of_line wholeLine textLine
  obtain ⟨entriesOther, readOther, noneOther⟩ := exists_readAll_of_line wholeOther textOther
  rcases ended with rfl | ended
  · simp [read, readOther, Except.map, noneHere, noneOther]
  · obtain ⟨rest, rfl⟩ := List.head?_eq_some_iff.mp ended
    rw [readAll_append_cons, readAll_append_cons, read, readOther]
    have countLine : line.count 10 = 0 := List.count_eq_zero.mpr wholeLine
    have countOther : other.count 10 = 0 := List.count_eq_zero.mpr wholeOther
    cases readAll rest <;> simp [Except.map, Except.bind, entriesBut_append, noneHere, noneOther, countLine, countOther]

theorem readAll_but_inner_line (textLine : ∃ text, decode? line = some text)
    (textOther : ∃ text, decode? other = some text) (wholeLine : 10 ∉ line) (wholeOther : 10 ∉ other)
    (begun : before = [] ∨ before.getLast? = some 10) (ended : after = [] ∨ after.head? = some 10) :
    (readAll (before ++ line ++ after)).map (entriesBut (1 + before.count 10)) =
      (readAll (before ++ other ++ after)).map (entriesBut (1 + before.count 10)) := by
  have same := readAll_but_line textLine textOther wholeLine wholeOther ended
  rcases begun with rfl | begun
  · simpa using same
  · obtain ⟨lead, rfl⟩ := List.getLast?_eq_some_iff.mp begun
    have number : 1 + (lead ++ [10]).count 10 = 1 + (lead.count 10 + 1) := by simp
    have apart : ∀ middle : List UInt8, lead ++ [10] ++ middle ++ after = lead ++ 10 :: (middle ++ after) := by simp
    rw [number, apart, apart, map_entriesBut_append_cons, map_entriesBut_append_cons, same]

end Seams

/-- An input can be read if the parts before and after a line feed can be read, and then its entries are
those of the first part and those of the second part, counted on by the lines of the first. What one
line says, be it a definition or not, makes no difference to the entries of all other lines. -/
theorem readAll_compositional :
    (∀ first second : List UInt8,
      ((∃ entries, readAll (first ++ 10 :: second) = .ok entries) ↔
        (∃ entries, readAll first = .ok entries) ∧ ∃ entries, readAll second = .ok entries) ∧
      ∀ entries others, readAll first = .ok entries → readAll second = .ok others →
        readAll (first ++ 10 :: second) = .ok (entries ++ others.map (Entry.shift (1 + first.count 10)))) ∧
    ∀ before line other after : List UInt8,
      (before = [] ∨ before.getLast? = some 10) → (after = [] ∨ after.head? = some 10) →
      10 ∉ line → 10 ∉ other → (∃ text, decode? line = some text) → (∃ text, decode? other = some text) →
      (readAll (before ++ line ++ after)).map (entriesBut (1 + before.count 10)) =
        (readAll (before ++ other ++ after)).map (entriesBut (1 + before.count 10)) := by
  refine ⟨fun first second => ⟨?_, ?_⟩, ?_⟩
  · rw [readAll_append_cons]
    cases readAll first <;> cases readAll second <;> simp [Except.bind, Except.map]
  · intro entries others read readOthers
    rw [readAll_append_cons, read, readOthers, Nat.add_comm 1]
    rfl
  · intro before line other after begun ended wholeLine wholeOther textLine textOther
    exact readAll_but_inner_line textLine textOther wholeLine wholeOther begun ended

/-- A first part that ends in a carriage return and a second part that begins with an empty line. A line that
is no definition takes nothing from the line after it. -/
theorem readAll_compositional_seam :
    readAll "f(a) = [1]\r\n\ng(b) = [0]".toUTF8.data.toList =
        .ok [⟨1, .ok ⟨"f", ["A"], .ofList [1], ∅⟩⟩, ⟨3, .ok ⟨"g", ["B"], .ofList [0], ∅⟩⟩] ∧
      (readAll "f(a) = \ng(b) = [0]".toUTF8.data.toList).map (entriesBut 1) =
        .ok [⟨2, .ok ⟨"g", ["B"], .ofList [0], ∅⟩⟩] := by
  constructor
  · exact (readAll_compositional.1 "f(a) = [1]\r".toUTF8.data.toList "\ng(b) = [0]".toUTF8.data.toList).2
      [⟨1, .ok ⟨"f", ["A"], .ofList [1], ∅⟩⟩] [⟨2, .ok ⟨"g", ["B"], .ofList [0], ∅⟩⟩] rfl rfl
  · exact readAll_compositional.2 [] "f(a) = ".toUTF8.data.toList "f(a) = [1]".toUTF8.data.toList
      "\ng(b) = [0]".toUTF8.data.toList (.inl rfl) (.inr rfl) (by decide) (by decide)
      ⟨"f(a) = ".toList, rfl⟩ ⟨"f(a) = [1]".toList, rfl⟩

end TwoLevel.Definition
