import Mathlib.Data.List.Forall2
import Mathlib.Data.List.Induction
import Mathlib.Data.List.TakeWhile
import Mathlib.Data.Nat.Digits.Defs
import TwoLevel.Proofs.Letters
import TwoLevel.Text.Number
import TwoLevel.Text.Pieces
import TwoLevel.Text.Word

/-! What it means to cut a text at a separator, to trim it, and to write a name or a number,
stated without a scan. Each scan succeeds on exactly the texts that are of that form. -/

set_option autoImplicit false

namespace TwoLevel.Text

/-- The text is the parts one after the other with the separator between them, which no part contains. -/
structure Separated (sep : Char) (parts : List (List Char)) (text : List Char) : Prop where
  ne_nil : parts ≠ []
  apart : ∀ part ∈ parts, sep ∉ part
  joined : [sep].intercalate parts = text

/-- The core has no white space at either end, and the text has nothing but white space around it. -/
structure Trims (text core : List Char) : Prop where
  around : ∃ before after, (∀ c ∈ before, isBlank c = true) ∧ (∀ c ∈ after, isBlank c = true) ∧
    text = before ++ core ++ after
  starts : ∀ c, core.head? = some c → isBlank c = false
  ends : ∀ c, core.getLast? = some c → isBlank c = false

/-- An ASCII letter followed by ASCII letters and digits. -/
inductive IsIdentifier : List Char → Prop where
  | intro (c : Char) (rest : List Char) (letter : c.isAlpha = true) (others : ∀ d ∈ rest, d.isAlphanum = true) :
    IsIdentifier (c :: rest)

/-- The word is an optional plus sign and decimal digits, at least one, with the given value of at most 64 bits. -/
structure Numeral (word : List Char) (n : Nat) : Prop where
  digits : ∃ sign digits, word = sign ++ digits ∧ (sign = [] ∨ sign = ['+']) ∧ digits ≠ [] ∧
    (∀ c ∈ digits, c.isDigit = true) ∧ n = Nat.ofDigits 10 (digits.reverse.map fun c => c.toNat - 48)
  fits : n < 2 ^ 64

theorem exists_of_forall₂ {α β : Type} {R : α → β → Prop} {first : List α} {second : List β}
    (each : List.Forall₂ R first second) : ∀ a ∈ first, ∃ b ∈ second, R a b := by
  induction each with
  | nil => exact fun a member => absurd member List.not_mem_nil
  | @cons a b first second here _ ih =>
    refine List.forall_mem_cons.mpr ⟨⟨b, List.mem_cons_self, here⟩, fun later member => ?_⟩
    obtain ⟨other, listed, holds⟩ := ih later member
    exact ⟨other, List.mem_cons_of_mem b listed, holds⟩

theorem mem_of_mem_intercalate {α : Type} {sep : List α} {parts : List (List α)} {a : α}
    (member : a ∈ sep.intercalate parts) : a ∈ sep ∨ ∃ part ∈ parts, a ∈ part := by
  induction parts with
  | nil => exact absurd member List.not_mem_nil
  | cons part parts ih =>
    cases parts with
    | nil =>
      rw [List.intercalate_singleton] at member
      exact .inr ⟨part, List.mem_singleton_self part, member⟩
    | cons next parts =>
      rw [List.intercalate_cons_cons, List.mem_append, List.mem_append] at member
      rcases member with (here | inSep) | later
      · exact .inr ⟨part, List.mem_cons_self, here⟩
      · exact .inl inSep
      · exact (ih later).imp_right fun ⟨other, listed, found⟩ => ⟨other, List.mem_cons_of_mem part listed, found⟩

theorem mem_intercalate_of_mem {α : Type} {sep part : List α} {parts : List (List α)} {a : α} (listed : part ∈ parts)
    (member : a ∈ part) : a ∈ sep.intercalate parts := by
  induction parts with
  | nil => cases listed
  | cons first parts ih =>
    cases parts with
    | nil =>
      rw [List.intercalate_singleton, ← List.mem_singleton.mp listed]
      exact member
    | cons next parts =>
      rw [List.intercalate_cons_cons, List.mem_append, List.mem_append]
      rcases List.mem_cons.mp listed with rfl | later
      · exact .inl (.inl member)
      · exact .inr (ih later)

section Pieces

variable {sep : Char} {text : List Char} {parts : List (List Char)}

theorem pieces_eq_splitOn (sep : Char) (text : List Char) : pieces sep text = text.splitOn sep := by
  induction text with
  | nil => rfl
  | cons c rest ih =>
    rw [List.splitOn_eq_splitOnP] at ih ⊢
    rw [pieces, List.splitOnP_cons_eq_if_modifyHead, ih]
    by_cases same : c = sep
    · rw [if_pos same, if_pos (beq_iff_eq.mpr same)]
    · rw [if_neg same, if_neg (mt beq_iff_eq.mp same)]
      cases found : List.splitOnP (· == sep) rest with
      | nil => exact absurd found (List.splitOnP_ne_nil _ _)
      | cons piece more => rfl

theorem pieces_ne_nil (sep : Char) (text : List Char) : pieces sep text ≠ [] := by
  rw [pieces_eq_splitOn]
  exact List.splitOn_ne_nil _ _

theorem not_mem_of_mem_pieces : ∀ piece ∈ pieces sep text, sep ∉ piece := by
  induction text with
  | nil => exact List.forall_mem_singleton.mpr List.not_mem_nil
  | cons c rest ih =>
    rw [pieces]
    by_cases same : c = sep
    · rw [if_pos same]
      exact List.forall_mem_cons.mpr ⟨List.not_mem_nil, ih⟩
    · rw [if_neg same]
      cases found : pieces sep rest with
      | nil => exact List.forall_mem_singleton.mpr fun member => same (List.mem_singleton.mp member).symm
      | cons piece more =>
        obtain ⟨first, others⟩ := List.forall_mem_cons.mp (found ▸ ih)
        exact List.forall_mem_cons.mpr ⟨List.not_mem_cons_of_ne_of_not_mem (Ne.symm same) first, others⟩

/-- The pieces are the only parts into which the separator cuts the text. -/
theorem pieces_eq_iff : pieces sep text = parts ↔ Separated sep parts text := by
  constructor
  · rintro rfl
    refine ⟨pieces_ne_nil sep text, not_mem_of_mem_pieces, ?_⟩
    rw [pieces_eq_splitOn]
    exact List.intercalate_splitOn _
  · rintro ⟨nonempty, apart, rfl⟩
    rw [pieces_eq_splitOn]
    exact List.splitOn_intercalate _ apart nonempty

theorem pieces_of_not_mem (absent : sep ∉ text) : pieces sep text = [text] :=
  pieces_eq_iff.mpr ⟨List.cons_ne_nil _ _, List.forall_mem_singleton.mpr absent, List.intercalate_singleton⟩

theorem dropLast?_eq_some_iff {last : Char} {inner : List Char} :
    dropLast? last text = some inner ↔ text = inner ++ [last] := by
  unfold dropLast?
  constructor
  · intro found
    by_cases ends : text.getLast? = some last
    · rw [if_pos ends] at found
      cases found
      exact (List.dropLast_append_getLast? last ends).symm
    · rw [if_neg ends] at found
      cases found
  · rintro rfl
    rw [if_pos List.getLast?_concat, List.dropLast_concat]

end Pieces

section Trimming

variable {text core : List Char}

theorem isBlank_of_head?_dropWhile {c : Char} (head : (text.dropWhile isBlank).head? = some c) : isBlank c = false := by
  have stopped := List.head?_dropWhile_not isBlank text
  rw [head] at stopped
  exact stopped

theorem dropWhile_isBlank_append {blanks rest : List Char} (blank : ∀ c ∈ blanks, isBlank c = true)
    (starts : ∀ c, rest.head? = some c → isBlank c = false) : (blanks ++ rest).dropWhile isBlank = rest := by
  rw [List.dropWhile_append_of_pos blank]
  cases rest with
  | nil => rfl
  | cons c rest => exact List.dropWhile_cons_of_neg (Bool.eq_false_iff.mp (starts c rfl))

theorem trimEnd_append {blanks : List Char} (blank : ∀ c ∈ blanks, isBlank c = true)
    (ends : ∀ c, core.getLast? = some c → isBlank c = false) : trimEnd (core ++ blanks) = core := by
  unfold trimEnd
  rw [List.reverse_append, dropWhile_isBlank_append, List.reverse_reverse]
  · exact fun c member => blank c (List.mem_reverse.mp member)
  · intro c head
    rw [List.head?_reverse] at head
    exact ends c head

theorem trim_of_trims (trims : Trims text core) : trim text = core := by
  obtain ⟨⟨before, after, blankBefore, blankAfter, rfl⟩, starts, ends⟩ := trims
  unfold trim
  rw [List.append_assoc, List.dropWhile_append_of_pos blankBefore]
  cases core with
  | nil =>
    rw [List.nil_append, List.dropWhile_eq_nil_iff.mpr blankAfter]
    rfl
  | cons c core =>
    rw [List.cons_append, List.dropWhile_cons_of_neg (Bool.eq_false_iff.mp (starts c rfl)), ← List.cons_append]
    exact trimEnd_append blankAfter ends

theorem exists_trimEnd_append (text : List Char) :
    ∃ blanks, (∀ c ∈ blanks, isBlank c = true) ∧ text = trimEnd text ++ blanks := by
  refine ⟨(text.reverse.takeWhile isBlank).reverse, ?_, ?_⟩
  · intro c member
    exact List.mem_takeWhile_imp (List.mem_reverse.mp member)
  · unfold trimEnd
    rw [← List.reverse_append, List.takeWhile_append_dropWhile, List.reverse_reverse]

theorem trims_trim (text : List Char) : Trims text (trim text) := by
  obtain ⟨after, blankAfter, rest⟩ := exists_trimEnd_append (text.dropWhile isBlank)
  refine ⟨⟨text.takeWhile isBlank, after, fun c => List.mem_takeWhile_imp, blankAfter, ?_⟩, ?_, ?_⟩
  · unfold trim
    rw [List.append_assoc, ← rest, List.takeWhile_append_dropWhile]
  · -- The trimmed text begins as the text without the white space in front of it.
    intro c head
    have whole : trim text ++ after = text.dropWhile isBlank := rest.symm
    have leads : (text.dropWhile isBlank).head? = some c := by
      rw [← whole, List.head?_append, head]
      rfl
    exact isBlank_of_head?_dropWhile leads
  · intro c last
    unfold trim trimEnd at last
    rw [List.getLast?_reverse] at last
    exact isBlank_of_head?_dropWhile last

theorem trim_eq_iff : trim text = core ↔ Trims text core := by
  constructor
  · rintro rfl
    exact trims_trim text
  · exact trim_of_trims

theorem trim_eq_nil_iff : trim text = [] ↔ ∀ c ∈ text, isBlank c = true := by
  rw [trim_eq_iff]
  constructor
  · rintro ⟨⟨before, after, blankBefore, blankAfter, rfl⟩, _, _⟩
    rw [List.append_nil]
    exact List.forall_mem_append.mpr ⟨blankBefore, blankAfter⟩
  · intro blank
    exact ⟨⟨text, [], blank, nofun, by rw [List.append_nil, List.append_nil]⟩, nofun, nofun⟩

/-- White space around a text does not change what it is trimmed to. -/
theorem Trims.pad (trims : Trims text core) (before after : List Char) (blankBefore : ∀ c ∈ before, isBlank c = true)
    (blankAfter : ∀ c ∈ after, isBlank c = true) : Trims (before ++ text ++ after) core := by
  obtain ⟨⟨first, last, blankFirst, blankLast, rfl⟩, starts, ends⟩ := trims
  refine ⟨⟨before ++ first, last ++ after, ?_, ?_, by simp⟩, starts, ends⟩
  · exact List.forall_mem_append.mpr ⟨blankBefore, blankFirst⟩
  · exact List.forall_mem_append.mpr ⟨blankLast, blankAfter⟩

theorem trims_self (starts : ∀ c, core.head? = some c → isBlank c = false)
    (ends : ∀ c, core.getLast? = some c → isBlank c = false) : Trims core core :=
  ⟨⟨[], [], nofun, nofun, by simp⟩, starts, ends⟩

theorem trim_pad (text before after : List Char) (blankBefore : ∀ c ∈ before, isBlank c = true)
    (blankAfter : ∀ c ∈ after, isBlank c = true) : trim (before ++ text ++ after) = trim text :=
  trim_of_trims ((trims_trim text).pad before after blankBefore blankAfter)

theorem map_trim_eq_iff {texts cores : List (List Char)} : texts.map trim = cores ↔ List.Forall₂ Trims texts cores := by
  rw [← List.forall₂_eq_eq_eq, List.forall₂_map_left_iff]
  simp only [trim_eq_iff]

theorem trims_self_of_visible (visible : ∀ c ∈ core, isBlank c = false) : Trims core core :=
  trims_self (fun c head => visible c (List.mem_of_head? head)) fun c last => visible c (List.mem_of_getLast? last)

theorem trims_self_of_ends {first last : Char} (inner : List Char) (firstVisible : isBlank first = false)
    (lastVisible : isBlank last = false) : Trims (first :: (inner ++ [last])) (first :: (inner ++ [last])) := by
  apply trims_self
  · intro c head
    simpa [← Option.some.inj head] using firstVisible
  · intro c ends
    rw [← List.cons_append, List.getLast?_concat] at ends
    simpa [← Option.some.inj ends] using lastVisible

theorem Trims.not_mem {c : Char} (trims : Trims text core) (visible : isBlank c = false) (absent : c ∉ core) :
    c ∉ text := by
  obtain ⟨⟨before, after, blankBefore, blankAfter, rfl⟩, _, _⟩ := trims
  have notBlank : ¬isBlank c = true := Bool.eq_false_iff.mp visible
  rw [List.mem_append, List.mem_append]
  rintro ((inBefore | inCore) | inAfter)
  · exact notBlank (blankBefore c inBefore)
  · exact absent inCore
  · exact notBlank (blankAfter c inAfter)

/-- A visible character that is in none of the trimmed fields is nowhere in the text. -/
theorem Separated.not_mem {sep c : Char} {fields words : List (List Char)} (cut : Separated sep fields text)
    (trimmed : List.Forall₂ Trims fields words) (different : c ≠ sep) (visible : isBlank c = false)
    (absent : ∀ word ∈ words, c ∉ word) : c ∉ text := by
  intro member
  rw [← cut.joined] at member
  obtain ⟨field, listed, found⟩ := (mem_of_mem_intercalate member).resolve_left (mt List.mem_singleton.mp different)
  obtain ⟨word, kept, trims⟩ := exists_of_forall₂ trimmed field listed
  exact trims.not_mem visible (absent word kept) found

theorem exists_pieces_prepend {sep : Char} {before : List Char} (absent : sep ∉ before) (text : List Char) :
    ∃ first rest, pieces sep text = first :: rest ∧ pieces sep (before ++ text) = (before ++ first) :: rest := by
  induction before with
  | nil =>
    obtain ⟨first, rest, cut⟩ := List.exists_cons_of_ne_nil (pieces_ne_nil sep text)
    exact ⟨first, rest, cut, cut⟩
  | cons c before ih =>
    rw [List.mem_cons, not_or] at absent
    obtain ⟨first, rest, cut, whole⟩ := ih absent.2
    refine ⟨first, rest, cut, ?_⟩
    simp [pieces, whole, Ne.symm absent.1]

theorem exists_pieces_append {sep : Char} {after : List Char} (absent : sep ∉ after) (text : List Char) :
    ∃ front last, pieces sep text = front ++ [last] ∧ pieces sep (text ++ after) = front ++ [last ++ after] := by
  induction text with
  | nil => exact ⟨[], [], rfl, pieces_of_not_mem absent⟩
  | cons c text ih =>
    obtain ⟨front, last, cut, whole⟩ := ih
    by_cases same : c = sep
    · exact ⟨[] :: front, last, by simp [pieces, same, cut], by simp [pieces, same, whole]⟩
    · cases front with
      | nil => exact ⟨[], c :: last, by simp [pieces, same, cut], by simp [pieces, same, whole]⟩
      | cons piece front =>
        exact ⟨(c :: piece) :: front, last, by simp [pieces, same, cut], by simp [pieces, same, whole]⟩

/-- White space around a text reaches only its first piece and its last one, where it is trimmed away. -/
theorem map_trim_pieces_trim {sep : Char} (visible : isBlank sep = false) (text : List Char) :
    (pieces sep (trim text)).map trim = (pieces sep text).map trim := by
  obtain ⟨⟨before, after, blankBefore, blankAfter, whole⟩, _, _⟩ := trims_trim text
  have apart : ∀ blanks : List Char, (∀ c ∈ blanks, isBlank c = true) → sep ∉ blanks := fun blanks blank member =>
    Bool.eq_false_iff.mp visible (blank sep member)
  obtain ⟨front, last, cut, cutAfter⟩ := exists_pieces_append (apart after blankAfter) (before ++ trim text)
  obtain ⟨first, rest, cutCore, cutBefore⟩ := exists_pieces_prepend (apart before blankBefore) (trim text)
  have trimBefore : trim (before ++ first) = trim first := by
    simpa using trim_pad first before [] blankBefore nofun
  have trimAfter : trim (last ++ after) = trim last := by
    simpa using trim_pad last [] after nofun blankAfter
  calc (pieces sep (trim text)).map trim
    _ = (pieces sep (before ++ trim text)).map trim := by simp [cutCore, cutBefore, trimBefore]
    _ = (pieces sep (before ++ trim text ++ after)).map trim := by rw [cut, cutAfter]; simp [trimAfter]
    _ = (pieces sep text).map trim := by rw [← whole]

theorem blank_space : ∀ c ∈ [' '], isBlank c = true := List.forall_mem_singleton.mpr (by decide)

theorem intercalate_map_space (sep : Char) (word : List Char) (words : List (List Char)) :
    [sep].intercalate (word :: words.map (' ' :: ·)) = [sep, ' '].intercalate (word :: words) := by
  induction words generalizing word with
  | nil => rfl
  | cons next words ih =>
    have head : [sep].intercalate ((' ' :: next) :: words.map (' ' :: ·)) =
        ' ' :: [sep].intercalate (next :: words.map (' ' :: ·)) := by
      cases words <;> rfl
    simp [List.intercalate_cons_cons, head, ih]

/-- Words with the separator and a space between them are the fields that the separator cuts, but for the spaces. -/
theorem exists_separated_spaced (sep : Char) {words : List (List Char)} (nonempty : words ≠ [])
    (visible : isBlank sep = false) (apart : ∀ word ∈ words, sep ∉ word) (bare : ∀ word ∈ words, Trims word word) :
    ∃ fields, Separated sep fields ([sep, ' '].intercalate words) ∧ List.Forall₂ Trims fields words := by
  obtain ⟨word, words, rfl⟩ := List.exists_cons_of_ne_nil nonempty
  have space : sep ≠ ' ' := by
    rintro rfl
    exact absurd visible (by decide)
  refine ⟨word :: words.map (' ' :: ·), ⟨List.cons_ne_nil _ _, ?_, intercalate_map_space sep word words⟩, ?_⟩
  · obtain ⟨first, others⟩ := List.forall_mem_cons.mp apart
    refine List.forall_mem_cons.mpr ⟨first, List.forall_mem_map.mpr fun next member => ?_⟩
    simp [space, others next member]
  · obtain ⟨first, others⟩ := List.forall_mem_cons.mp bare
    refine .cons first (List.forall₂_map_left_iff.mpr (List.forall₂_same.mpr fun next member => ?_))
    simpa using (others next member).pad [' '] [] blank_space nofun

end Trimming

theorem isName_iff {word : List Char} : isName word = true ↔ IsIdentifier word := by
  cases word with
  | nil => exact iff_of_false Bool.false_ne_true nofun
  | cons c rest =>
    rw [isName, Bool.and_eq_true, List.all_eq_true]
    constructor
    · rintro ⟨letter, others⟩
      exact .intro c rest letter others
    · rintro ⟨_, _, letter, others⟩
      exact ⟨letter, others⟩

theorem IsIdentifier.not_mem {word : List Char} (isIdentifier : IsIdentifier word) {c : Char}
    (other : c.isAlphanum = false) : c ∉ word := by
  have notAlphanum : ¬c.isAlphanum = true := Bool.eq_false_iff.mp other
  obtain ⟨first, rest, letter, others⟩ := isIdentifier
  intro member
  rcases List.mem_cons.mp member with rfl | later
  · exact notAlphanum (isAlphanum_iff.mpr (.inl letter))
  · exact notAlphanum (others c later)

theorem IsIdentifier.trims {word : List Char} (isIdentifier : IsIdentifier word) : Trims word word := by
  obtain ⟨c, rest, letter, others⟩ := isIdentifier
  refine trims_self_of_visible (List.forall_mem_cons.mpr ⟨isBlank_of_isAlpha letter, fun d member => ?_⟩)
  exact (isAlphanum_iff.mp (others d member)).elim isBlank_of_isAlpha isBlank_of_isDigit

theorem IsIdentifier.upper {word : List Char} (isIdentifier : IsIdentifier word) : IsIdentifier (upper word) := by
  obtain ⟨c, rest, letter, others⟩ := isIdentifier
  refine .intro _ _ (isAlpha_toUpper letter) (List.forall_mem_map.mpr fun d member => ?_)
  exact (isAlphanum_toUpper d).trans (others d member)

theorem upper_upper (word : List Char) : upper (upper word) = upper word := by
  unfold upper
  rw [List.map_map]
  exact List.map_congr_left fun c _ => toUpper_toUpper c

section Numbers

variable {word digits : List Char} {n : Nat}

theorem digitsValue_eq (digits : List Char) :
    digitsValue digits = Nat.ofDigits 10 (digits.reverse.map fun c => c.toNat - 48) := by
  -- The last digit is the first of the reversed list.
  induction digits using List.reverseRecOn with
  | nil => rfl
  | append_singleton digits c ih =>
    rw [List.reverse_concat, List.map_cons, Nat.ofDigits_cons, ← ih, digitsValue, List.foldl_concat]
    exact Nat.add_comm _ _

theorem dropPlus_of_digits (nonempty : digits ≠ []) (each : ∀ c ∈ digits, c.isDigit = true) :
    dropPlus digits = digits := by
  cases digits with
  | nil => exact absurd rfl nonempty
  | cons c rest =>
    unfold dropPlus
    split
    · rename_i plus
      cases plus
      exact absurd (each '+' List.mem_cons_self) (by decide)
    · rfl

theorem exists_dropPlus (word : List Char) : ∃ sign, word = sign ++ dropPlus word ∧ (sign = [] ∨ sign = ['+']) := by
  unfold dropPlus
  split
  · exact ⟨['+'], rfl, .inr rfl⟩
  · exact ⟨[], rfl, .inl rfl⟩

theorem readNumber?_eq_some_iff : readNumber? word = some n ↔ Numeral word n := by
  unfold readNumber?
  dsimp only
  constructor
  · intro found
    split at found
    · rename_i good
      obtain ⟨nonempty, each, fits⟩ := good
      cases found
      obtain ⟨sign, whole, signs⟩ := exists_dropPlus word
      exact ⟨⟨sign, dropPlus word, whole, signs, nonempty, List.all_eq_true.mp each, digitsValue_eq _⟩, fits⟩
    · cases found
  · rintro ⟨⟨sign, digits, rfl, signs, nonempty, each, rfl⟩, fits⟩
    have taken : dropPlus (sign ++ digits) = digits := by
      rcases signs with rfl | rfl
      · exact dropPlus_of_digits nonempty each
      · rfl
    rw [← digitsValue_eq] at fits ⊢
    rw [taken]
    exact if_pos ⟨nonempty, List.all_eq_true.mpr each, fits⟩

theorem isDigit_of_mem_toString {c : Char} (member : c ∈ (toString n).toList) : c.isDigit = true := by
  rw [Nat.toString_eq_repr, Nat.toList_repr] at member
  exact Nat.isDigit_of_mem_toDigits (by decide) (by decide) member

/-- A number below the limit is written with its decimal digits. -/
theorem numeral_toString (fits : n < 2 ^ 64) : Numeral (toString n).toList n := by
  have read : digitsValue (Nat.toDigits 10 n) = n := Nat.ofDigitChars_toDigits (by decide) (by decide)
  rw [digitsValue_eq] at read
  have digits : (toString n).toList = Nat.toDigits 10 n := by
    rw [Nat.toString_eq_repr, Nat.toList_repr]
  refine ⟨⟨[], Nat.toDigits 10 n, digits, .inl rfl, Nat.toDigits_ne_nil, fun c member => ?_, read.symm⟩, fits⟩
  exact isDigit_of_mem_toString (digits ▸ member)

theorem Numeral.not_mem (numeral : Numeral word n) {c : Char} (notPlus : c ≠ '+')
    (notDigit : c.isDigit = false) : c ∉ word := by
  obtain ⟨⟨sign, digits, rfl, signs, _, each, _⟩, _⟩ := numeral
  rw [List.mem_append]
  rintro (inSign | inDigits)
  · rcases signs with rfl | rfl
    · exact List.not_mem_nil inSign
    · exact notPlus (List.mem_singleton.mp inSign)
  · exact Bool.eq_false_iff.mp notDigit (each c inDigits)

theorem Numeral.ne_nil (numeral : Numeral word n) : word ≠ [] := by
  obtain ⟨⟨sign, digits, rfl, _, nonempty, _, _⟩, _⟩ := numeral
  exact fun empty => nonempty (List.append_eq_nil_iff.mp empty).2

end Numbers

end TwoLevel.Text
