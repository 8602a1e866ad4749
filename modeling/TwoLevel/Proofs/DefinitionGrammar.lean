import TwoLevel.Definition.Basic
import TwoLevel.Proofs.Cutting
import TwoLevel.Proofs.ExprMinimization

/-! The written form of definitions, stated without a reader, and what a line of that form means.
A line is read exactly if it is of that form, and then it is read as the function that it means. -/

set_option autoImplicit false

namespace TwoLevel.Definition

open Text

/-- What stands on one side of the bar: numbers of rows, or an expression. -/
inductive Part where
  | rows (numbers : List Row)
  | expression (e : Expr)

/-- The text is written for the part in a definition over the given variables. -/
inductive Part.Written (vars : List String) : List Char → Part → Prop where
  | blank (inner : List Char) (blank : ∀ c ∈ inner, isBlank c = true) :
    Written vars ('[' :: (inner ++ [']'])) (.rows [])
  | rows {inner : List Char} {fields words : List (List Char)} {numbers : List Row}
    (cut : Separated ',' fields inner) (trimmed : List.Forall₂ Trims fields words)
    (numerals : List.Forall₂ Numeral words numbers) : Written vars ('[' :: (inner ++ [']'])) (.rows numbers)
  | expression {text : List Char} {e : Expr} (other : text.head? ≠ some '[') (read : Expr.parse text = .ok e)
    (declared : ∀ name ∈ e.occurrences, name ∈ vars) (few : vars.length ≤ 24) : Written vars text (.expression e)

/-- The rows for which the part stands: those listed, or those of the assignments to the variables that
make the expression true. -/
def Part.Denotes (vars : List String) : Part → Row → Prop
  | .rows numbers, row => row ∈ numbers
  | .expression e, row => ∃ assign : String → Bool, Row.binaryValue (vars.map assign) = row ∧ e.value assign = true

/-- The name of the variable that is declared by a word. -/
def variableName (word : List Char) : String := String.ofList (upper word)

theorem nodup_map_variableName {words : List (List Char)} :
    (words.map variableName).Nodup ↔ (words.map upper).Nodup := by
  have folded : words.map variableName = (words.map upper).map String.ofList := List.map_map.symm
  rw [folded]
  exact List.nodup_map_iff fun _ _ => String.ofList_injective

/-- The text is a name and the names of one or more variables in parentheses. No two variables are the same up
to case. -/
structure IsHeader (text name : List Char) (words : List (List Char)) : Prop where
  written : ∃ before inner fields, text = before ++ '(' :: (inner ++ [')']) ∧ Trims before name ∧
    Separated ',' fields inner ∧ List.Forall₂ Trims fields words
  named : IsIdentifier name
  identifiers : ∀ word ∈ words, IsIdentifier word
  distinct : (words.map upper).Nodup

/-- A definition as it is written. -/
structure Source where
  name : List Char
  words : List (List Char)
  minterms : Part
  dontCares : Option Part

namespace Source

def vars (source : Source) : List String := source.words.map variableName

def parts (source : Source) : List Part := source.minterms :: source.dontCares.toList

/-- The line is a header and one or two parts, with an equals sign and a bar between them. -/
structure Written (source : Source) (line : List Char) : Prop where
  written : ∃ header headerText body fields texts, Separated '=' [header, body] line ∧
    Trims header headerText ∧ IsHeader headerText source.name source.words ∧
    Separated '|' fields body ∧ List.Forall₂ Trims fields texts ∧
    List.Forall₂ (Part.Written source.vars) texts source.parts

/-- The definition has the name as it is written, the variables in upper case, and the rows of the parts. -/
structure Denotes (source : Source) (d : Definition) : Prop where
  name : d.name = String.ofList source.name
  vars : d.vars = source.vars
  minterms : ∀ row, row ∈ d.minterms ↔ source.minterms.Denotes source.vars row
  dontCares : ∀ row, row ∈ d.dontCares ↔ ∃ part ∈ source.dontCares, part.Denotes source.vars row

end Source

theorem map_eq_ok_iff {ε α β : Type} {outcome : Except ε α} {f : α → β} {b : β} :
    outcome.map f = .ok b ↔ ∃ a, outcome = .ok a ∧ f a = b := by
  cases outcome with
  | error error => exact iff_of_false nofun nofun
  | ok a => simp [Except.map]

section Header

variable {text : List Char} {words : List (List Char)} {declared vars : List String}

theorem declare_eq_ok_iff (distinct : declared.Nodup) :
    declare declared words = .ok vars ↔ (∀ word ∈ words, IsIdentifier word) ∧
      (declared.reverse ++ words.map variableName).Nodup ∧
      vars = declared.reverse ++ words.map variableName := by
  induction words generalizing declared with
  | nil =>
    rw [declare, List.map_nil, List.append_nil]
    constructor
    · intro done
      exact ⟨nofun, List.nodup_reverse.mpr distinct, (Except.ok.inj done).symm⟩
    · rintro ⟨_, _, rfl⟩
      rfl
  | cons word words ih =>
    rw [declare, List.forall_mem_cons, ← isName_iff, List.map_cons]
    by_cases isIdentifier : isName word = true
    · rw [if_pos isIdentifier]
      show (if declared.contains (variableName word) = true then Except.error (DefinitionError.duplicateVariable _)
        else declare (variableName word :: declared) words) = _ ↔ _
      -- What has been declared is kept in reverse, which does not matter for repetitions.
      by_cases known : variableName word ∈ declared
      · rw [if_pos (List.contains_iff_mem.mpr known)]
        refine iff_of_false nofun fun accepted => ?_
        exact (List.nodup_append.mp accepted.2.1).2.2 _ (List.mem_reverse.mpr known) _ List.mem_cons_self rfl
      · rw [if_neg (mt List.contains_iff_mem.mp known), ih (List.nodup_cons.mpr ⟨known, distinct⟩), List.reverse_cons,
          List.append_assoc, List.singleton_append, and_iff_right isIdentifier]
    · rw [if_neg isIdentifier]
      exact iff_of_false nofun fun accepted => isIdentifier accepted.1.1

/-- What stands before a closing sign at the end, and contains neither that sign nor the opening one. -/
theorem enclosed_eq_some_iff {α : Type} {opening closing : Char} {f : List Char → α} {a : α} :
    (match dropLast? closing text with
      | none => none
      | some inner => if inner.contains opening || inner.contains closing then none else some (f inner)) = some a ↔
      ∃ inner, text = inner ++ [closing] ∧ opening ∉ inner ∧ closing ∉ inner ∧ f inner = a := by
  constructor
  · intro found
    split at found
    · cases found
    · rename_i inner inside
      split at found
      · cases found
      · rename_i plain
        rw [Bool.or_eq_true, List.contains_iff_mem, List.contains_iff_mem, not_or] at plain
        exact ⟨inner, dropLast?_eq_some_iff.mp inside, plain.1, plain.2, Option.some.inj found⟩
  · rintro ⟨inner, rfl, noOpening, noClosing, rfl⟩
    simp [dropLast?_eq_some_iff.mpr rfl, noOpening, noClosing]

theorem splitHeader?_eq_some_iff {before inner : List Char} :
    splitHeader? text = some (before, inner) ↔
      text = before ++ '(' :: (inner ++ [')']) ∧ '(' ∉ before ∧ '(' ∉ inner ∧ ')' ∉ inner := by
  unfold splitHeader?
  constructor
  · intro found
    cases rest : text.dropWhile (· ≠ '(') with
    | nil =>
      rw [rest] at found
      cases found
    | cons c following =>
      have opening : c = '(' := by
        have stopped := List.head?_dropWhile_not (· ≠ '(') text
        rw [rest] at stopped
        simpa using stopped
      cases opening
      rw [rest] at found
      obtain ⟨within, whole, noOpening, noClosing, same⟩ := enclosed_eq_some_iff.mp found
      cases same
      refine ⟨?_, ?_, noOpening, noClosing⟩
      · rw [← whole, ← rest, List.takeWhile_append_dropWhile]
      · intro member
        exact absurd (List.mem_takeWhile_imp member) (by decide)
  · rintro ⟨rfl, outside, noOpening, noClosing⟩
    have passed : ∀ c ∈ before, decide (c ≠ '(') = true := by
      intro c member
      exact decide_eq_true fun same => outside (same ▸ member)
    rw [List.dropWhile_append_of_pos passed, List.takeWhile_append_of_pos passed,
      List.takeWhile_cons_of_neg (by decide), List.append_nil]
    exact enclosed_eq_some_iff.mpr ⟨inner, rfl, noOpening, noClosing, rfl⟩

theorem readHeader_eq_ok_iff {name : String} :
    readHeader text = .ok (name, vars) ↔ ∃ word words, IsHeader text word words ∧ name = String.ofList word ∧
      vars = words.map variableName := by
  unfold readHeader
  constructor
  · intro done
    split at done
    · cases done
    · rename_i before inner found
      obtain ⟨whole, -, -, -⟩ := splitHeader?_eq_some_iff.mp found
      split at done
      · rename_i isIdentifier
        obtain ⟨names, declares, same⟩ := map_eq_ok_iff.mp done
        cases same
        obtain ⟨identifiers, distinct, rfl⟩ := (declare_eq_ok_iff .nil).mp declares
        exact ⟨trim before, (pieces ',' inner).map trim,
          ⟨⟨before, inner, pieces ',' inner, whole, trims_trim before, pieces_eq_iff.mp rfl, map_trim_eq_iff.mp rfl⟩,
            isName_iff.mp isIdentifier, identifiers, nodup_map_variableName.mp distinct⟩, rfl, rfl⟩
      · cases done
  · rintro ⟨word, words, ⟨written, isIdentifier, identifiers, distinct⟩, rfl, rfl⟩
    obtain ⟨before, inner, fields, rfl, trims, cut, trimmed⟩ := written
    -- Names are made of letters and digits, so the parentheses around them are the only ones.
    have inside : ∀ c : Char, c ≠ ',' → isBlank c = false → c.isAlphanum = false → c ∉ inner :=
      fun c different visible other => cut.not_mem trimmed different visible fun word member =>
        (identifiers word member).not_mem other
    have outside : '(' ∉ before := trims.not_mem (by decide) (isIdentifier.not_mem (by decide))
    have split : splitHeader? (before ++ '(' :: (inner ++ [')'])) = some (before, inner) :=
      splitHeader?_eq_some_iff.mpr ⟨rfl, outside, inside '(' (by decide) (by decide) (by decide),
        inside ')' (by decide) (by decide) (by decide)⟩
    have declares : declare [] words = .ok (words.map variableName) :=
      (declare_eq_ok_iff .nil).mpr ⟨identifiers, nodup_map_variableName.mpr distinct, rfl⟩
    rw [split]
    dsimp only
    rw [trim_of_trims trims, if_pos (isName_iff.mpr isIdentifier), pieces_eq_iff.mpr cut, map_trim_eq_iff.mpr trimmed,
      declares]
    rfl

end Header

section Parts

variable {vars : List String} {text : List Char} {part : Part} {rows : RowSet}

theorem readNumbers_eq_ok_iff {words : List (List Char)} {numbers : List Row} :
    readNumbers words = .ok numbers ↔ List.Forall₂ Numeral words numbers := by
  induction words generalizing numbers with
  | nil =>
    rw [readNumbers, List.forall₂_nil_left_iff]
    exact ⟨fun done => (Except.ok.inj done).symm, fun same => congrArg Except.ok same.symm⟩
  | cons word words ih =>
    rw [readNumbers]
    constructor
    · intro done
      split at done
      · cases done
      · rename_i row found
        obtain ⟨rest, others, rfl⟩ := map_eq_ok_iff.mp done
        exact .cons (readNumber?_eq_some_iff.mp found) (ih.mp others)
    · rintro (_ | ⟨numeral, numerals⟩)
      rw [readNumber?_eq_some_iff.mpr numeral, ih.mpr numerals]
      rfl

theorem insideBrackets?_eq_some_iff {inner : List Char} :
    insideBrackets? text = some inner ↔ text = '[' :: (inner ++ [']']) ∧ '[' ∉ inner ∧ ']' ∉ inner := by
  unfold insideBrackets?
  constructor
  · intro found
    split at found
    · obtain ⟨_, rfl, noOpening, noClosing, rfl⟩ := (enclosed_eq_some_iff (f := id)).mp found
      exact ⟨rfl, noOpening, noClosing⟩
    · cases found
  · rintro ⟨rfl, noOpening, noClosing⟩
    exact (enclosed_eq_some_iff (f := id)).mpr ⟨inner, rfl, noOpening, noClosing, rfl⟩

/-- A list with numbers is not blank, or else there would be one empty word. -/
theorem not_blank_of_numerals {inner : List Char} {fields words : List (List Char)} {numbers : List Row}
    (cut : Separated ',' fields inner) (trimmed : List.Forall₂ Trims fields words)
    (numerals : List.Forall₂ Numeral words numbers) : trim inner ≠ [] := by
  intro blank
  have absent : ',' ∉ inner := fun member => absurd (trim_eq_nil_iff.mp blank ',' member) (by decide)
  have sole : [trim inner] = words := by
    rw [← map_trim_eq_iff.mpr trimmed, ← pieces_eq_iff.mpr cut, pieces_of_not_mem absent]
    rfl
  rw [← sole, blank] at numerals
  cases numerals with
  | cons numeral _ => exact numeral.ne_nil rfl

/-- The numbers of a list are those that its words stand for. -/
theorem readList_eq_ok_iff :
    readList text = .ok rows ↔ ∃ numbers, Part.Written vars text (.rows numbers) ∧ rows = .ofList numbers := by
  unfold readList
  constructor
  · intro done
    split at done
    · cases done
    · rename_i inner found
      obtain ⟨rfl, _, _⟩ := insideBrackets?_eq_some_iff.mp found
      split at done
      · rename_i blank
        cases done
        exact ⟨[], .blank inner (trim_eq_nil_iff.mp (List.isEmpty_iff.mp blank)), rfl⟩
      · obtain ⟨numbers, read, rfl⟩ := map_eq_ok_iff.mp done
        exact ⟨numbers, .rows (pieces_eq_iff.mp rfl) (map_trim_eq_iff.mp rfl) (readNumbers_eq_ok_iff.mp read), rfl⟩
  · rintro ⟨numbers, written, rfl⟩
    cases written with
    | blank inner blank =>
      have visible : ∀ c : Char, isBlank c = false → c ∉ inner := fun c other member =>
        Bool.eq_false_iff.mp other (blank c member)
      rw [insideBrackets?_eq_some_iff.mpr ⟨rfl, visible '[' (by decide), visible ']' (by decide)⟩]
      exact if_pos (List.isEmpty_iff.mpr (trim_eq_nil_iff.mpr blank))
    | @rows inner fields words _ cut trimmed numerals =>
      -- No numeral contains a bracket, so the two at the ends are the only ones.
      have inside : ∀ c : Char, c ≠ ',' → isBlank c = false → c ≠ '+' → c.isDigit = false → c ∉ inner := by
        intro c different visible notPlus notDigit
        refine cut.not_mem trimmed different visible fun word member => ?_
        obtain ⟨_, _, numeral⟩ := exists_of_forall₂ numerals word member
        exact numeral.not_mem notPlus notDigit
      rw [insideBrackets?_eq_some_iff.mpr ⟨rfl, inside '[' (by decide) (by decide) (by decide) (by decide),
        inside ']' (by decide) (by decide) (by decide) (by decide)⟩]
      dsimp only
      rw [if_neg (mt List.isEmpty_iff.mp (not_blank_of_numerals cut trimmed numerals)), pieces_eq_iff.mpr cut,
        map_trim_eq_iff.mpr trimmed, readNumbers_eq_ok_iff.mpr numerals]
      rfl

theorem mem_undeclared {e : Expr} {name : String} :
    name ∈ e.vars.filter (fun name => !vars.contains name) ↔ name ∈ e.occurrences ∧ name ∉ vars := by
  rw [List.mem_filter, Expr.mem_vars, Bool.not_eq_true', ← Bool.not_eq_true, List.contains_iff_mem]

theorem isEmpty_undeclared {e : Expr} :
    (e.vars.filter fun name => !vars.contains name).isEmpty = true ↔ ∀ name ∈ e.occurrences, name ∈ vars := by
  rw [List.isEmpty_iff, List.eq_nil_iff_forall_not_mem]
  simp only [mem_undeclared, not_and, not_not]

theorem rowsOf_eq_ok_iff {e : Expr} :
    rowsOf vars e = .ok rows ↔
      (∀ name ∈ e.occurrences, name ∈ vars) ∧ vars.length ≤ 24 ∧ rows = Table.trueRows vars e := by
  unfold rowsOf
  dsimp only
  by_cases declared : ∀ name ∈ e.occurrences, name ∈ vars
  · rw [if_pos (isEmpty_undeclared.mpr declared), and_iff_right declared]
    rcases Nat.lt_or_ge Table.limit vars.length with many | few
    · rw [Table.minterms_eq_error many]
      exact iff_of_false nofun fun accepted => Nat.not_le.mpr many accepted.1
    · rw [Table.minterms_eq_ok few declared, and_iff_right (show vars.length ≤ 24 from few)]
      exact ⟨fun done => (Except.ok.inj done).symm, fun same => congrArg Except.ok same.symm⟩
  · rw [if_neg (mt isEmpty_undeclared.mp declared)]
    exact iff_of_false nofun fun accepted => declared accepted.1

/-- A row is in the table of an expression if it is the row of an assignment that makes it true. -/
theorem mem_trueRows_iff_denotes {e : Expr} (distinct : vars.Nodup) (declared : ∀ name ∈ e.occurrences, name ∈ vars)
    (row : Row) : row ∈ Table.trueRows vars e ↔ (Part.expression e).Denotes vars row := by
  constructor
  · intro member
    obtain ⟨small, isTrue⟩ := Table.mem_trueRows.mp member
    refine ⟨Expr.assignedBy vars (row.assignment vars.length), ?_, isTrue⟩
    rw [Expr.map_assignedBy distinct (Row.length_assignment _ _), Row.binaryValue_assignment_of_lt small]
  · rintro ⟨assign, rfl, isTrue⟩
    exact (Table.binaryValue_mem_trueRows declared).mpr isTrue

theorem exists_written_of_readPart (distinct : vars.Nodup) (done : readPart vars text = .ok rows) :
    ∃ part, Part.Written vars text part ∧ ∀ row, row ∈ rows ↔ part.Denotes vars row := by
  unfold readPart at done
  by_cases bracket : text.head? = some '['
  · rw [if_pos bracket] at done
    obtain ⟨numbers, written, rfl⟩ : ∃ numbers, Part.Written vars text (.rows numbers) ∧ rows = .ofList numbers :=
      readList_eq_ok_iff.mp done
    exact ⟨.rows numbers, written, fun row => SortedSet.mem_ofList⟩
  · rw [if_neg bracket] at done
    split at done
    · cases done
    · rename_i e read
      obtain ⟨declared, few, rfl⟩ := rowsOf_eq_ok_iff.mp done
      exact ⟨.expression e, .expression bracket read declared few, mem_trueRows_iff_denotes distinct declared⟩

theorem readPart_of_written (distinct : vars.Nodup) (written : Part.Written vars text part) :
    ∃ rows, readPart vars text = .ok rows ∧ ∀ row, row ∈ rows ↔ part.Denotes vars row := by
  have list : ∀ numbers inner, Part.Written vars ('[' :: inner) (.rows numbers) →
      ∃ rows, readPart vars ('[' :: inner) = .ok rows ∧ ∀ row, row ∈ rows ↔ (Part.rows numbers).Denotes vars row :=
    fun numbers inner written =>
      ⟨.ofList numbers, readList_eq_ok_iff.mpr ⟨numbers, written, rfl⟩, fun row => SortedSet.mem_ofList⟩
  cases written with
  | blank inner blank => exact list [] _ (.blank inner blank)
  | rows cut trimmed numerals => exact list _ _ (.rows cut trimmed numerals)
  | @expression text e other read declared few =>
    refine ⟨Table.trueRows vars e, ?_, mem_trueRows_iff_denotes distinct declared⟩
    unfold readPart
    rw [if_neg other, read]
    exact rowsOf_eq_ok_iff.mpr ⟨declared, few, rfl⟩

variable {texts : List (List Char)} {minterms dontCares : RowSet}

theorem exists_written_of_readParts (distinct : vars.Nodup) (done : readParts vars texts = .ok (minterms, dontCares)) :
    ∃ first second, List.Forall₂ (Part.Written vars) texts (first :: Option.toList second) ∧
      (∀ row, row ∈ minterms ↔ first.Denotes vars row) ∧
      ∀ row, row ∈ dontCares ↔ ∃ part ∈ second, part.Denotes vars row := by
  unfold readParts at done
  split at done
  · rename_i text
    obtain ⟨rows, read, same⟩ := map_eq_ok_iff.mp done
    cases same
    obtain ⟨first, written, denotes⟩ := exists_written_of_readPart distinct read
    exact ⟨first, none, .cons written .nil, denotes, fun row => iff_of_false List.not_mem_nil (by simp)⟩
  · rename_i text other
    split at done
    · cases done
    · rename_i rows read
      obtain ⟨otherRows, readOther, same⟩ := map_eq_ok_iff.mp done
      cases same
      obtain ⟨first, written, denotes⟩ := exists_written_of_readPart distinct read
      obtain ⟨second, writtenOther, denotesOther⟩ := exists_written_of_readPart distinct readOther
      exact ⟨first, some second, .cons written (.cons writtenOther .nil), denotes, fun row => by simp [denotesOther]⟩
  · cases done

theorem readParts_of_written (distinct : vars.Nodup) {first : Part} {second : Option Part}
    (written : List.Forall₂ (Part.Written vars) texts (first :: second.toList)) :
    ∃ minterms dontCares, readParts vars texts = .ok (minterms, dontCares) ∧
      (∀ row, row ∈ minterms ↔ first.Denotes vars row) ∧
      ∀ row, row ∈ dontCares ↔ ∃ part ∈ second, part.Denotes vars row := by
  obtain _ | ⟨writtenFirst, writtenRest⟩ := written
  obtain ⟨rows, read, denotes⟩ := readPart_of_written distinct writtenFirst
  cases second with
  | none =>
    cases writtenRest
    refine ⟨rows, ∅, ?_, denotes, fun row => iff_of_false List.not_mem_nil (by simp)⟩
    unfold readParts
    simp [read, Except.map]
  | some second =>
    obtain _ | ⟨writtenSecond, ⟨⟩⟩ := writtenRest
    obtain ⟨otherRows, readOther, denotesOther⟩ := readPart_of_written distinct writtenSecond
    refine ⟨rows, otherRows, ?_, denotes, fun row => by simp [denotesOther]⟩
    unfold readParts
    simp [read, readOther, Except.map]

end Parts

section Lines

variable {source : Source} {line : List Char} {d d' : Definition}

theorem exists_written_of_parse (done : parse line = .ok d) :
    ∃ source : Source, source.Written line ∧ source.Denotes d := by
  unfold parse at done
  split at done
  · rename_i header body cut
    split at done
    · cases done
    · rename_i name vars readHead
      obtain ⟨word, words, isHeader, rfl, rfl⟩ := readHeader_eq_ok_iff.mp readHead
      have distinct := nodup_map_variableName.mpr isHeader.distinct
      obtain ⟨⟨minterms, dontCares⟩, readRest, rfl⟩ := map_eq_ok_iff.mp done
      obtain ⟨first, second, written, denotes, denotesSecond⟩ := exists_written_of_readParts distinct readRest
      exact ⟨⟨word, words, first, second⟩,
        ⟨header, trim header, body, pieces '|' body, _, pieces_eq_iff.mp cut, trims_trim header, isHeader,
          pieces_eq_iff.mp rfl, map_trim_eq_iff.mp rfl, written⟩,
        ⟨rfl, rfl, denotes, denotesSecond⟩⟩
  · cases done

theorem parse_of_written (written : source.Written line) : ∃ d, parse line = .ok d ∧ source.Denotes d := by
  obtain ⟨header, headerText, body, fields, texts, cut, trims, isHeader, cutBody, trimmed, parts⟩ := written
  have distinct : source.vars.Nodup := nodup_map_variableName.mpr isHeader.distinct
  obtain ⟨minterms, dontCares, readRest, denotes, denotesSecond⟩ := readParts_of_written distinct parts
  have readHead : readHeader headerText = .ok (String.ofList source.name, source.vars) :=
    readHeader_eq_ok_iff.mpr ⟨source.name, source.words, isHeader, rfl, rfl⟩
  refine ⟨⟨String.ofList source.name, source.vars, minterms, dontCares⟩, ?_, rfl, rfl, denotes, denotesSecond⟩
  unfold parse
  rw [pieces_eq_iff.mpr cut]
  dsimp only
  rw [trim_of_trims trims, readHead]
  dsimp only
  rw [pieces_eq_iff.mpr cutBody, map_trim_eq_iff.mpr trimmed, readRest]
  rfl

/-- A written definition denotes only one function. -/
theorem Source.Denotes.unique (denotes : source.Denotes d) (denotes' : source.Denotes d') : d = d' := by
  obtain ⟨name, vars, minterms, dontCares⟩ := d
  obtain ⟨name', vars', minterms', dontCares'⟩ := d'
  obtain ⟨rfl, rfl, rows, others⟩ := denotes
  obtain ⟨rfl, rfl, rows', others'⟩ := denotes'
  congr 1
  · exact SortedSet.ext_of_mem fun row => (rows row).trans (rows' row).symm
  · exact SortedSet.ext_of_mem fun row => (others row).trans (others' row).symm

/-- Reading accepts exactly the lines that are written as definitions, and what it yields is the function
that the line denotes. -/
theorem ofString_exact (line : String) :
    ((∃ d, ofString line = .ok d) ↔ ∃ source : Source, source.Written line.toList) ∧
      ∀ d, ofString line = .ok d ↔ ∃ source : Source, source.Written line.toList ∧ source.Denotes d := by
  have reads : ∀ d, ofString line = .ok d ↔ ∃ source : Source, source.Written line.toList ∧ source.Denotes d := by
    intro d
    constructor
    · exact exists_written_of_parse
    · rintro ⟨source, written, denotes⟩
      obtain ⟨found, done, denotesFound⟩ := parse_of_written written
      exact denotesFound.unique denotes ▸ done
  refine ⟨?_, reads⟩
  constructor
  · rintro ⟨d, done⟩
    obtain ⟨source, written, _⟩ := (reads d).mp done
    exact ⟨source, written⟩
  · rintro ⟨source, written⟩
    obtain ⟨d, done, _⟩ := parse_of_written written
    exact ⟨d, done⟩

example : ofString "maj(a, b, c) = [3, 5, 6, 7] | [0]" =
    .ok ⟨"maj", ["A", "B", "C"], .ofList [3, 5, 6, 7], .ofList [0]⟩ := by decide

end Lines

end TwoLevel.Definition
