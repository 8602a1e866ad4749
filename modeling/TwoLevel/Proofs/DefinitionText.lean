import TwoLevel.Proofs.DefinitionGrammar

/-! The text of a definition. A definition that has been read has names and rows that can be
written, and its text is of the written form of definitions and denotes it. So the text is read as
the definition again. -/

set_option autoImplicit false

namespace TwoLevel.Definition

open Text

/-- The function and its variables have names, no two variables have the same one, and the variables are in
upper case. Every row is a number of 64 bits. -/
structure WellFormed (d : Definition) : Prop where
  named : IsIdentifier d.name.toList
  vars_ne_nil : d.vars ≠ []
  identifiers : ∀ name ∈ d.vars, IsIdentifier name.toList
  folded : ∀ name ∈ d.vars, upper name.toList = name.toList
  distinct : d.vars.Nodup
  minterms : ∀ row ∈ d.minterms, row < 2 ^ 64
  dontCares : ∀ row ∈ d.dontCares, row < 2 ^ 64

section Reading

variable {vars : List String} {text word : List Char} {part : Part} {row : Row} {line : List Char} {d : Definition}

/-- The rows of an expression have as many digits as there are variables, and a table has at most 24. -/
theorem lt_of_denotes (written : Part.Written vars text part) (denotes : part.Denotes vars row) : row < 2 ^ 64 := by
  cases written with
  | blank inner blank => cases denotes
  | rows cut trimmed numerals =>
    obtain ⟨word, _, numeral⟩ := exists_of_forall₂ numerals.flip row denotes
    exact numeral.fits
  | expression other read declared few =>
    obtain ⟨assign, rfl, _⟩ := denotes
    have small := Row.binaryValue_lt (vars.map assign)
    rw [List.length_map] at small
    exact Nat.lt_of_lt_of_le small (Nat.pow_le_pow_right Nat.two_pos (by omega))

theorem wellFormed_of_parse (done : parse line = .ok d) : d.WellFormed := by
  obtain ⟨source, written, denotes⟩ := exists_written_of_parse done
  obtain ⟨_, _, _, _, _, _, _, isHeader, _, _, parts⟩ := written
  obtain ⟨_, _, fields, _, _, cut, trimmed⟩ := isHeader.written
  have bound : ∀ part ∈ source.parts, ∀ row, part.Denotes source.vars row → row < 2 ^ 64 := by
    intro part listed row denotes
    obtain ⟨text, _, written⟩ := exists_of_forall₂ parts.flip part listed
    exact lt_of_denotes written denotes
  refine ⟨?named, ?vars_ne_nil, ?identifiers, ?folded, ?distinct, ?minterms, ?dontCares⟩
  case named =>
    rw [denotes.name, String.toList_ofList]
    exact isHeader.named
  case vars_ne_nil =>
    rw [denotes.vars]
    intro empty
    rw [List.map_eq_nil_iff.mp empty] at trimmed
    exact cut.ne_nil (List.forall₂_nil_right_iff.mp trimmed)
  case identifiers =>
    rw [denotes.vars]
    refine List.forall_mem_map.mpr fun word member => ?_
    rw [variableName, String.toList_ofList]
    exact (isHeader.identifiers word member).upper
  case folded =>
    rw [denotes.vars]
    refine List.forall_mem_map.mpr fun word _ => ?_
    rw [variableName, String.toList_ofList, upper_upper]
  case distinct =>
    rw [denotes.vars]
    exact nodup_map_variableName.mpr isHeader.distinct
  case minterms =>
    exact fun row member => bound _ List.mem_cons_self row ((denotes.minterms row).mp member)
  case dontCares =>
    intro row member
    obtain ⟨part, given, denotesRow⟩ := (denotes.dontCares row).mp member
    exact bound part (List.mem_cons_of_mem _ (Option.mem_toList.mpr given)) row denotesRow

end Reading

section Writing

variable {d : Definition} {word : List Char}

theorem toList_commaSeparated (items : List String) :
    (commaSeparated items).toList = [',', ' '].intercalate (items.map String.toList) := String.toList_intercalate

/-- A character that is no part of the items is in their list only if it stands between them. -/
theorem not_mem_commaSeparated {c : Char} {items : List String} (comma : c ≠ ',') (space : c ≠ ' ')
    (absent : ∀ item ∈ items, c ∉ item.toList) : c ∉ (commaSeparated items).toList := by
  rw [toList_commaSeparated]
  intro member
  rcases mem_of_mem_intercalate member with between | ⟨_, listed, inItem⟩
  · simp [comma, space] at between
  · obtain ⟨item, given, rfl⟩ := List.mem_map.mp listed
    exact absent item given inItem

/-- The text between the brackets of a list of numbers. -/
def listed (numbers : List Nat) : List Char := (commaSeparated (numbers.map toString)).toList

theorem toList_bracketedNumbers (numbers : List Nat) :
    (bracketedNumbers numbers).toList = '[' :: (listed numbers ++ [']']) := by
  simp [bracketedNumbers, bracketed, listed]

theorem not_mem_listed {c : Char} {numbers : List Nat} (comma : c ≠ ',') (space : c ≠ ' ')
    (notDigit : c.isDigit = false) : c ∉ listed numbers := by
  refine not_mem_commaSeparated comma space (List.forall_mem_map.mpr fun n _ member => ?_)
  exact Bool.eq_false_iff.mp notDigit (isDigit_of_mem_toString member)

theorem not_mem_bracketedNumbers {c : Char} {numbers : List Nat} (comma : c ≠ ',') (space : c ≠ ' ')
    (notDigit : c.isDigit = false) (opening : c ≠ '[') (closing : c ≠ ']') :
    c ∉ (bracketedNumbers numbers).toList := by
  rw [toList_bracketedNumbers]
  simp [opening, closing, not_mem_listed comma space notDigit]

/-- A list of numbers is written as a part of a definition, empty or not. -/
theorem written_bracketedNumbers (vars : List String) {numbers : List Nat} (fits : ∀ n ∈ numbers, n < 2 ^ 64) :
    Part.Written vars (bracketedNumbers numbers).toList (.rows numbers) := by
  rw [toList_bracketedNumbers]
  cases numbers with
  | nil => exact .blank [] nofun
  | cons n rest =>
    have each : ∀ m ∈ n :: rest, Numeral (toString m).toList m := fun m member => numeral_toString (fits m member)
    have numerals : List.Forall₂ Numeral (((n :: rest).map toString).map String.toList) (n :: rest) := by
      rw [List.map_map]
      exact List.forall₂_map_left_iff.mpr (List.forall₂_same.mpr each)
    have plain : ∀ word ∈ ((n :: rest).map toString).map String.toList, ',' ∉ word ∧ Trims word word := by
      rw [List.map_map]
      refine List.forall_mem_map.mpr fun m member => ⟨(each m member).not_mem (by decide) (by decide), ?_⟩
      exact trims_self_of_visible fun c digit => isBlank_of_isDigit (isDigit_of_mem_toString digit)
    obtain ⟨fields, cut, trimmed⟩ := exists_separated_spaced ',' (by simp) (by decide)
      (fun word member => (plain word member).1) fun word member => (plain word member).2
    rw [← toList_commaSeparated] at cut
    exact .rows cut trimmed numerals

theorem trims_bracketedNumbers (numbers : List Nat) :
    Trims (bracketedNumbers numbers).toList (bracketedNumbers numbers).toList := by
  rw [toList_bracketedNumbers]
  exact trims_self_of_ends _ (by decide) (by decide)

/-- The name of a definition and its variables in parentheses. -/
def headerText (d : Definition) : List Char := d.name.toList ++ '(' :: ((commaSeparated d.vars).toList ++ [')'])

theorem isHeader_headerText (wellFormed : d.WellFormed) :
    IsHeader d.headerText d.name.toList (d.vars.map String.toList) := by
  have identifiers : ∀ word ∈ d.vars.map String.toList, IsIdentifier word :=
    List.forall_mem_map.mpr wellFormed.identifiers
  obtain ⟨fields, cut, trimmed⟩ := exists_separated_spaced ',' (by simpa using wellFormed.vars_ne_nil) (by decide)
    (fun word member => (identifiers word member).not_mem (by decide))
    fun word member => (identifiers word member).trims
  rw [← toList_commaSeparated] at cut
  refine ⟨⟨_, _, fields, rfl, wellFormed.named.trims, cut, trimmed⟩, wellFormed.named, identifiers, ?_⟩
  have same : (d.vars.map String.toList).map upper = d.vars.map String.toList := by
    rw [List.map_map]
    exact List.map_congr_left wellFormed.folded
  rw [same]
  exact wellFormed.distinct.map fun _ _ => String.toList_injective

theorem trims_enclosed {inner : List Char} (isIdentifier : IsIdentifier word) :
    Trims (word ++ '(' :: (inner ++ [')'])) (word ++ '(' :: (inner ++ [')'])) := by
  obtain ⟨c, rest, letter, _⟩ := isIdentifier
  have closing : isBlank ')' = false := by decide
  simpa using trims_self_of_ends (rest ++ '(' :: inner) (isBlank_of_isAlpha letter) closing

theorem trims_headerText (wellFormed : d.WellFormed) : Trims d.headerText d.headerText :=
  trims_enclosed wellFormed.named

theorem not_mem_headerText (wellFormed : d.WellFormed) : '=' ∉ d.headerText := by
  have inName : '=' ∉ d.name.toList := wellFormed.named.not_mem (by decide)
  have inVars : '=' ∉ (commaSeparated d.vars).toList := not_mem_commaSeparated (by decide) (by decide)
    fun name member => (wellFormed.identifiers name member).not_mem (by decide)
  simp [headerText, inName, inVars]

/-- The definition as it is written in its text: with lists of rows, and a list of the rows of no interest only
if there are any. -/
def source (d : Definition) : Source where
  name := d.name.toList
  words := d.vars.map String.toList
  minterms := .rows d.minterms.toList
  dontCares := if d.dontCares.isEmpty then none else some (.rows d.dontCares.toList)

theorem vars_source (wellFormed : d.WellFormed) : d.source.vars = d.vars := by
  have same : ∀ name ∈ d.vars, variableName name.toList = name := fun name member => by
    rw [variableName, wellFormed.folded name member, String.ofList_toList]
  unfold Source.vars source
  rw [List.map_map]
  exact (List.map_congr_left same).trans (List.map_id _)

/-- The text after the equals sign is one list, or two lists with a bar between them. -/
theorem exists_body (wellFormed : d.WellFormed) (vars : List String) :
    ∃ body fields texts, d.text.toList = d.headerText ++ ' ' :: '=' :: body ∧ '=' ∉ body ∧
      Separated '|' fields body ∧ List.Forall₂ Trims fields texts ∧
      List.Forall₂ (Part.Written vars) texts d.source.parts := by
  have noSign : ∀ numbers, '=' ∉ (bracketedNumbers numbers).toList := fun numbers =>
    not_mem_bracketedNumbers (by decide) (by decide) (by decide) (by decide) (by decide)
  have noBar : ∀ numbers, '|' ∉ (bracketedNumbers numbers).toList := fun numbers =>
    not_mem_bracketedNumbers (by decide) (by decide) (by decide) (by decide) (by decide)
  have spaced : ∀ numbers after, (∀ c ∈ after, isBlank c = true) →
      Trims (' ' :: ((bracketedNumbers numbers).toList ++ after)) (bracketedNumbers numbers).toList := by
    intro numbers after blank
    simpa using (trims_bracketedNumbers numbers).pad [' '] after blank_space blank
  have writtenMinterms := written_bracketedNumbers vars wellFormed.minterms
  by_cases noDontCares : d.dontCares.isEmpty = true
  · refine ⟨_, [' ' :: (bracketedNumbers d.minterms.toList).toList], [_], ?_, ?_, ⟨by simp, ?_, rfl⟩,
      .cons (by simpa using spaced d.minterms.toList [] nofun) .nil, ?_⟩
    · simp [text, noDontCares, headerText]
    · simp [noSign]
    · simp [noBar]
    · simpa [Source.parts, source, noDontCares] using writtenMinterms
  · have writtenDontCares := written_bracketedNumbers vars wellFormed.dontCares
    refine ⟨_, [' ' :: ((bracketedNumbers d.minterms.toList).toList ++ [' ']),
        ' ' :: (bracketedNumbers d.dontCares.toList).toList], [_, _], ?_, ?_, ⟨by simp, ?_, rfl⟩,
      .cons (spaced d.minterms.toList [' '] blank_space)
        (.cons (by simpa using spaced d.dontCares.toList [] nofun) .nil), ?_⟩
    · simp [text, noDontCares, headerText, List.intercalate_cons_cons]
    · simp [noSign, List.intercalate_cons_cons]
    · simp [noBar]
    · simpa [Source.parts, source, noDontCares] using And.intro writtenMinterms writtenDontCares

theorem written_text (wellFormed : d.WellFormed) : d.source.Written d.text.toList := by
  obtain ⟨body, fields, texts, whole, noSign, cut, trimmed, parts⟩ := exists_body wellFormed d.source.vars
  refine ⟨d.headerText ++ [' '], d.headerText, body, fields, texts, ⟨by simp, ?_, ?_⟩, ?_,
    isHeader_headerText wellFormed, cut, trimmed, parts⟩
  · simp [not_mem_headerText wellFormed, noSign]
  · simp [whole, List.intercalate_cons_cons]
  · simpa using (trims_headerText wellFormed).pad [] [' '] nofun blank_space

theorem denotes_source (wellFormed : d.WellFormed) : d.source.Denotes d := by
  refine ⟨String.ofList_toList.symm, (vars_source wellFormed).symm, fun row => Iff.rfl, fun row => ?_⟩
  by_cases noDontCares : d.dontCares.isEmpty = true
  · have empty : d.dontCares.toList = [] := List.isEmpty_iff.mp noDontCares
    simp [source, noDontCares, SortedSet.mem_def, empty]
  · simp [source, noDontCares, Part.Denotes, SortedSet.mem_def]

end Writing

/-- The text of a definition that has been read is read as the definition again, whatever the line was. -/
theorem text_reads_back (line : String) (d : Definition) (accepted : ofString line = .ok d) :
    ofString d.text = .ok d := by
  have wellFormed := wellFormed_of_parse accepted
  obtain ⟨again, done, denotes⟩ := parse_of_written (written_text wellFormed)
  rw [denotes.unique (denotes_source wellFormed)] at done
  exact done

/-- A line with an expression and a list, spread out and in no order, and the text of what it defines. -/
theorem text_reads_back_spread :
    ofString "  g ( a,b ) = not a |[ 7,+18446744073709551615, 07]" =
        .ok ⟨"g", ["A", "B"], .ofList [0, 1], .ofList [7, 18446744073709551615]⟩ ∧
      text ⟨"g", ["A", "B"], .ofList [0, 1], .ofList [7, 18446744073709551615]⟩ =
        "g(A, B) = [0, 1] | [7, 18446744073709551615]" ∧
      ofString (text ⟨"g", ["A", "B"], .ofList [0, 1], .ofList [7, 18446744073709551615]⟩) =
        .ok ⟨"g", ["A", "B"], .ofList [0, 1], .ofList [7, 18446744073709551615]⟩ := by
  have read : ofString "  g ( a,b ) = not a |[ 7,+18446744073709551615, 07]" =
      .ok ⟨"g", ["A", "B"], .ofList [0, 1], .ofList [7, 18446744073709551615]⟩ := by decide
  exact ⟨read, by decide, text_reads_back _ _ read⟩

end TwoLevel.Definition
