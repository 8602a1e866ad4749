import Mathlib.Data.List.Forall2
import TwoLevel.Proofs.Letters
import TwoLevel.Expr.Token

/-! The token rule of the language, stated without a scanner. A text splits into tokens by
taking the longest word that stands for a token at each place, where white space may be passed
over. Cutting a text into lexemes succeeds exactly when it splits, and gives the same tokens. -/

set_option autoImplicit false

namespace TwoLevel.Expr

open Text

namespace Token

/-- The character may be written for a letter of a keyword: in either case, and the long s for an S. -/
def StandsFor (c letter : Char) : Prop := c = letter ∨ c = letter.toLower ∨ letter = 'S' ∧ c = '\u017f'

inductive IsSign : List Char → Token → Prop where
  | opening : IsSign ['('] .opening
  | closing : IsSign [')'] .closing
  | not : IsSign ['!'] .not
  | and : IsSign ['*'] (.op .and)
  | or : IsSign ['+'] (.op .or)
  | xor : IsSign [':', '+', ':'] (.op .xor)
  | zero : IsSign ['0'] (.const false)
  | one : IsSign ['1'] (.const true)

inductive IsKeyword : List Char → Token → Prop where
  | and : IsKeyword ['A', 'N', 'D'] (.op .and)
  | or : IsKeyword ['O', 'R'] (.op .or)
  | xor : IsKeyword ['X', 'O', 'R'] (.op .xor)
  | not : IsKeyword ['N', 'O', 'T'] .not
  | isTrue : IsKeyword ['T', 'R', 'U', 'E'] (.const true)
  | isFalse : IsKeyword ['F', 'A', 'L', 'S', 'E'] (.const false)

/-- A word with a meaning of its own: a sign, or a keyword in any case. -/
inductive IsFixed (word : List Char) (token : Token) : Prop where
  | sign (sign : IsSign word token)
  | keyword (letters : List Char) (keyword : IsKeyword letters token)
    (spelled : List.Forall₂ StandsFor word letters)

/-- A letter followed by letters, digits and underscores. -/
inductive IsName : List Char → Prop where
  | intro (c : Char) (rest : List Char) (letter : c.isAlpha = true)
    (others : ∀ d ∈ rest, d.isAlphanum = true ∨ d = '_') : IsName (c :: rest)

/-- The word stands for the token. A name that is also a keyword is the keyword. -/
inductive Spells (word : List Char) : Token → Prop where
  | fixed {token : Token} (fixed : IsFixed word token) : Spells word token
  | name (name : IsName word) (free : ∀ token, ¬IsFixed word token) :
    Spells word (.name (String.ofList (upper word)))

/-- The longest word at the start of the text that stands for a token, and the token. -/
structure Leads (text word : List Char) (token : Token) : Prop where
  begins : word <+: text
  spells : Spells word token
  longest : ∀ other token, other <+: text → Spells other token → other.length ≤ word.length

end Token

open Token

/-- The text splits into the tokens. -/
inductive Splits : List Char → List Token → Prop where
  | done : Splits [] []
  | blank {c : Char} {rest : List Char} {tokens : List Token} (blank : isBlank c = true)
    (splits : Splits rest tokens) : Splits (c :: rest) tokens
  | token {word rest : List Char} {token : Token} {tokens : List Token}
    (leads : Leads (word ++ rest) word token) (splits : Splits rest tokens) :
    Splits (word ++ rest) (token :: tokens)

namespace Token

section Letters

variable {c letter : Char}

theorem standsFor_iff (isUpper : letter.isUpper = true) : StandsFor c letter ↔ letter = foldLetter c := by
  have codes := isUpper_iff.mp isUpper
  unfold StandsFor foldLetter
  by_cases long : c = '\u017f'
  · subst long
    have notUpper : '\u017f' ≠ letter := by
      rintro rfl
      exact absurd isUpper (by decide)
    have notLower : '\u017f' ≠ letter.toLower := by
      intro same
      have code := toNat_toLower_of_isUpper isUpper
      rw [← same] at code
      have : '\u017f'.toNat = 383 := rfl
      omega
    simp [notUpper, notLower]
  · have asciiOnly := toUpper_eq_iff (c := c) isUpper
    rw [if_neg long, eq_comm (b := c.toUpper), asciiOnly]
    simp [long]

theorem StandsFor.isAlpha (stands : StandsFor c letter) (isUpper : letter.isUpper = true)
    (notS : letter ≠ 'S') : c.isAlpha = true := by
  rw [isAlpha_iff]
  rcases stands with rfl | rfl | ⟨isS, _⟩
  · exact .inl isUpper
  · exact .inr (isLower_toLower_of_isUpper isUpper)
  · exact absurd isS notS

end Letters

section Tables

variable {word letters : List Char} {token : Token}

theorem mem_signs : (word, token) ∈ signs ↔ IsSign word token := by
  constructor
  · intro member
    simp only [signs, List.mem_cons, List.not_mem_nil, or_false, Prod.mk.injEq] at member
    rcases member with ⟨rfl, rfl⟩ | ⟨rfl, rfl⟩ | ⟨rfl, rfl⟩ | ⟨rfl, rfl⟩ | ⟨rfl, rfl⟩ | ⟨rfl, rfl⟩ |
      ⟨rfl, rfl⟩ | ⟨rfl, rfl⟩ <;> constructor
  · intro sign
    cases sign <;> decide

theorem mem_keywords : (letters, token) ∈ keywords ↔ IsKeyword letters token := by
  constructor
  · intro member
    simp only [keywords, List.mem_cons, List.not_mem_nil, or_false, Prod.mk.injEq] at member
    rcases member with ⟨rfl, rfl⟩ | ⟨rfl, rfl⟩ | ⟨rfl, rfl⟩ | ⟨rfl, rfl⟩ | ⟨rfl, rfl⟩ | ⟨rfl, rfl⟩ <;>
      constructor
  · intro keyword
    cases keyword <;> decide

/-- A sign is told by its first character, and so is a keyword. -/
theorem signs_eq_of_head : ∀ first ∈ signs, ∀ second ∈ signs,
    first.1.head? = second.1.head? → first = second := by decide

theorem keywords_eq_of_head : ∀ first ∈ keywords, ∀ second ∈ keywords,
    first.1.head? = second.1.head? → first = second := by decide

theorem isUpper_of_mem_keywords : ∀ keyword ∈ keywords, keyword.1.all Char.isUpper = true := by decide

theorem IsSign.exists_cons (sign : IsSign word token) :
    ∃ c rest, word = c :: rest ∧ ¬c.isAlpha = true ∧ isBlank c = false := by
  cases sign <;> exact ⟨_, _, rfl, by decide, by decide⟩

theorem IsKeyword.exists_cons (keyword : IsKeyword letters token) :
    ∃ c rest, letters = c :: rest ∧ c ≠ 'S' := by
  cases keyword <;> exact ⟨_, _, rfl, by decide⟩

theorem IsKeyword.isUpper (keyword : IsKeyword letters token) : ∀ c ∈ letters, c.isUpper = true :=
  List.all_eq_true.mp (isUpper_of_mem_keywords _ (mem_keywords.mpr keyword))

/-- However a keyword is written, it begins with an ASCII letter. -/
theorem IsKeyword.exists_cons_of_spelled (keyword : IsKeyword letters token)
    (spelled : List.Forall₂ StandsFor word letters) :
    ∃ c rest, word = c :: rest ∧ c.isAlpha = true ∧ letters.head? = some (foldLetter c) := by
  obtain ⟨first, others, rfl, notS⟩ := keyword.exists_cons
  have isUpper := keyword.isUpper first List.mem_cons_self
  cases spelled with
  | cons stands _ =>
    exact ⟨_, _, rfl, stands.isAlpha isUpper notS, congrArg some ((standsFor_iff isUpper).mp stands)⟩

end Tables

section Words

variable {text word word' : List Char} {token token' : Token}

theorem eq_of_begins_of_length_eq (begins : word <+: text) (begins' : word' <+: text)
    (sameLength : word.length = word'.length) : word = word' :=
  (List.prefix_of_prefix_length_le begins begins' (Nat.le_of_eq sameLength)).eq_of_length sameLength

theorem Spells.exists_cons (spells : Spells word token) : ∃ c rest, word = c :: rest ∧ isBlank c = false := by
  cases spells with
  | fixed fixed =>
    cases fixed with
    | sign sign =>
      obtain ⟨c, rest, same, _, notBlank⟩ := sign.exists_cons
      exact ⟨c, rest, same, notBlank⟩
    | keyword _ keyword spelled =>
      obtain ⟨c, rest, same, letter, _⟩ := keyword.exists_cons_of_spelled spelled
      exact ⟨c, rest, same, isBlank_of_isAlpha letter⟩
  | name name _ =>
    cases name with
    | intro c rest letter _ => exact ⟨c, rest, rfl, isBlank_of_isAlpha letter⟩

/-- At most one word with a fixed meaning begins a text. -/
theorem IsFixed.eq_of_begins (first : IsFixed word token) (second : IsFixed word' token')
    (begins : word <+: text) (begins' : word' <+: text) : word = word' ∧ token = token' := by
  -- Two such words begin with the same character, which tells signs from keywords and which one it is.
  obtain ⟨tail, rfl⟩ := begins
  cases first with
  | sign sign =>
    obtain ⟨c, rest, rfl, notLetter, _⟩ := sign.exists_cons
    cases second with
    | sign sign' =>
      obtain ⟨c', rest', rfl, _⟩ := sign'.exists_cons
      obtain ⟨rfl, _⟩ := List.cons_prefix_cons.mp begins'
      have same := signs_eq_of_head _ (mem_signs.mpr sign) _ (mem_signs.mpr sign') rfl
      exact Prod.mk.inj same
    | keyword _ keyword spelled =>
      obtain ⟨c', rest', rfl, letter, _⟩ := keyword.exists_cons_of_spelled spelled
      obtain ⟨rfl, _⟩ := List.cons_prefix_cons.mp begins'
      exact absurd letter notLetter
  | keyword letters keyword spelled =>
    obtain ⟨c, rest, rfl, letter, head⟩ := keyword.exists_cons_of_spelled spelled
    cases second with
    | sign sign' =>
      obtain ⟨c', rest', rfl, notLetter, _⟩ := sign'.exists_cons
      obtain ⟨rfl, _⟩ := List.cons_prefix_cons.mp begins'
      exact absurd letter notLetter
    | keyword letters' keyword' spelled' =>
      obtain ⟨c', rest', rfl, _, head'⟩ := keyword'.exists_cons_of_spelled spelled'
      have sameHead := (List.cons_prefix_cons.mp begins').1
      have same := keywords_eq_of_head _ (mem_keywords.mpr keyword) _ (mem_keywords.mpr keyword')
        (by rw [head, head', sameHead])
      obtain ⟨rfl, rfl⟩ := Prod.mk.inj same
      have sameLength := spelled.length_eq.trans spelled'.length_eq.symm
      exact ⟨eq_of_begins_of_length_eq (List.prefix_append _ tail) begins' sameLength, rfl⟩

theorem Spells.unique (first : Spells word token) (second : Spells word token') : token = token' := by
  cases first with
  | fixed fixed =>
    cases second with
    | fixed fixed' => exact (fixed.eq_of_begins fixed' List.prefix_rfl List.prefix_rfl).2
    | name _ free => exact absurd fixed (free _)
  | name _ free =>
    cases second with
    | fixed fixed' => exact absurd fixed' (free _)
    | name _ _ => rfl

theorem Leads.unique (first : Leads text word token) (second : Leads text word' token') :
    word = word' ∧ token = token' := by
  have sameLength := Nat.le_antisymm (second.longest _ _ first.begins first.spells)
    (first.longest _ _ second.begins second.spells)
  obtain rfl := eq_of_begins_of_length_eq first.begins second.begins sameLength
  exact ⟨rfl, first.spells.unique second.spells⟩

end Words

section Scanning

variable {text word letters : List Char} {token : Token}

theorem isNameChar_iff {c : Char} : isNameChar c = true ↔ c.isAlphanum = true ∨ c = '_' := by
  simp [isNameChar]

theorem leadingName_of_letter {c : Char} (letter : c.isAlpha = true) (rest : List Char) :
    leadingName (c :: rest) = c :: rest.takeWhile isNameChar := if_pos letter

theorem leadingName_of_not_letter {c : Char} (other : ¬c.isAlpha = true) (rest : List Char) :
    leadingName (c :: rest) = [] := if_neg other

theorem leadingName_begins : leadingName text <+: text := by
  cases text with
  | nil => exact List.nil_prefix
  | cons c rest =>
    by_cases letter : c.isAlpha = true
    · rw [leadingName_of_letter letter, List.prefix_cons_inj]
      exact List.takeWhile_prefix _
    · rw [leadingName_of_not_letter letter]
      exact List.nil_prefix

theorem isName_leadingName (nonempty : leadingName text ≠ []) : IsName (leadingName text) := by
  cases text with
  | nil => exact absurd rfl nonempty
  | cons c rest =>
    by_cases letter : c.isAlpha = true
    · rw [leadingName_of_letter letter]
      have all := List.all_eq_true.mp (List.all_takeWhile (l := rest) (p := isNameChar))
      exact .intro c _ letter fun d member => isNameChar_iff.mp (all d member)
    · exact absurd (leadingName_of_not_letter letter rest) nonempty

theorem IsName.length_le_leadingName (name : IsName word) (begins : word <+: text) :
    word.length ≤ (leadingName text).length := by
  obtain ⟨tail, rfl⟩ := begins
  cases name with
  | intro c rest letter others =>
    have all : ∀ d ∈ rest, isNameChar d = true := fun d member => isNameChar_iff.mpr (others d member)
    rw [List.cons_append, leadingName_of_letter letter, List.takeWhile_append_of_pos all]
    simp

theorem leadingName_eq_nil_of_sign (sign : IsSign word token) (begins : word <+: text) :
    leadingName text = [] := by
  obtain ⟨tail, rfl⟩ := begins
  obtain ⟨c, rest, rfl, notLetter, _⟩ := sign.exists_cons
  exact leadingName_of_not_letter notLetter _

/-- The comparison finds a word that begins the text and spells the keyword. -/
theorem startsWith_iff (isUpper : ∀ letter ∈ letters, letter.isUpper = true) :
    startsWith letters text = true ↔ ∃ word, word <+: text ∧ List.Forall₂ StandsFor word letters := by
  induction letters generalizing text with
  | nil => exact ⟨fun _ => ⟨[], List.nil_prefix, .nil⟩, fun _ => rfl⟩
  | cons letter letters ih =>
    obtain ⟨upperLetter, upperRest⟩ := List.forall_mem_cons.mp isUpper
    cases text with
    | nil =>
      refine ⟨nofun, ?_⟩
      rintro ⟨word, begins, spelled⟩
      rw [List.prefix_nil.mp begins] at spelled
      cases spelled
    | cons c text =>
      rw [startsWith, Bool.and_eq_true, beq_iff_eq, ← standsFor_iff upperLetter, ih upperRest]
      constructor
      · rintro ⟨stands, word, begins, spelled⟩
        exact ⟨c :: word, (List.prefix_cons_inj c).mpr begins, .cons stands spelled⟩
      · rintro ⟨word, begins, spelled⟩
        cases spelled with
        | cons stands spelled =>
          obtain ⟨rfl, beginsRest⟩ := List.cons_prefix_cons.mp begins
          exact ⟨stands, _, beginsRest, spelled⟩

theorem sign_of_find (found : (signs.find? fun sign => sign.1.isPrefixOf text) = some (word, token)) :
    IsSign word token ∧ word <+: text := by
  have begins := List.find?_some found
  exact ⟨mem_signs.mp (List.mem_of_find?_eq_some found), List.isPrefixOf_iff_prefix.mp begins⟩

theorem not_begins_of_find (notFound : (signs.find? fun sign => sign.1.isPrefixOf text) = none)
    (sign : IsSign word token) : ¬word <+: text := by
  intro begins
  have other := List.find?_eq_none.mp notFound _ (mem_signs.mpr sign)
  exact other (List.isPrefixOf_iff_prefix.mpr begins)

theorem keyword_of_find (found : (keywords.find? fun keyword => startsWith keyword.1 text) = some (letters, token)) :
    ∃ word, word.length = letters.length ∧ IsFixed word token ∧ word <+: text := by
  have keyword := mem_keywords.mp (List.mem_of_find?_eq_some found)
  have starts := List.find?_some found
  obtain ⟨word, begins, spelled⟩ := (startsWith_iff keyword.isUpper).mp starts
  exact ⟨word, spelled.length_eq, .keyword letters keyword spelled, begins⟩

/-- Where neither a sign nor a keyword is found, no word with a fixed meaning begins. -/
theorem not_fixed_of_find (noSign : (signs.find? fun sign => sign.1.isPrefixOf text) = none)
    (noKeyword : (keywords.find? fun keyword => startsWith keyword.1 text) = none) (fixed : IsFixed word token) :
    ¬word <+: text := by
  intro begins
  cases fixed with
  | sign sign => exact not_begins_of_find noSign sign begins
  | keyword letters keyword spelled =>
    have other := List.find?_eq_none.mp noKeyword _ (mem_keywords.mpr keyword)
    exact other ((startsWith_iff keyword.isUpper).mpr ⟨word, begins, spelled⟩)

theorem leads_of_fixed (fixed : IsFixed word token) (begins : word <+: text)
    (longest : (leadingName text).length ≤ word.length) : Leads text word token where
  begins := begins
  spells := .fixed fixed
  longest := by
    intro other token' begins' spells
    cases spells with
    | fixed fixed' =>
      have same := (fixed'.eq_of_begins fixed begins' begins).1
      exact Nat.le_of_eq (congrArg List.length same)
    | name name _ => exact Nat.le_trans (name.length_le_leadingName begins') longest

/-- A name leads where it is longer than any word with a fixed meaning. -/
theorem leads_of_name (nonempty : leadingName text ≠ [])
    (longer : ∀ word token, IsFixed word token → word <+: text → word.length < (leadingName text).length) :
    Leads text (leadingName text) (.name (String.ofList (upper (leadingName text)))) where
  begins := leadingName_begins
  spells := .name (isName_leadingName nonempty) fun token fixed =>
    Nat.lt_irrefl _ (longer _ token fixed leadingName_begins)
  longest := by
    intro other token begins spells
    cases spells with
    | fixed fixed => exact Nat.le_of_lt (longer _ _ fixed begins)
    | name name _ => exact name.length_le_leadingName begins

theorem leads_of_longer_name (fixed : IsFixed word token) (begins : word <+: text)
    (longer : word.length < (leadingName text).length) :
    Leads text (leadingName text) (.name (String.ofList (upper (leadingName text)))) := by
  refine leads_of_name (List.ne_nil_of_length_pos (Nat.zero_lt_of_lt longer)) fun other token' fixed' begins' => ?_
  rw [(fixed'.eq_of_begins fixed begins' begins).1]
  exact longer

theorem not_begins_of_no_name (noName : leadingName text = [])
    (noFixed : ∀ word token, IsFixed word token → ¬word <+: text) (spells : Spells word token) : ¬word <+: text := by
  intro begins
  cases spells with
  | fixed fixed => exact noFixed _ _ fixed begins
  | name name _ =>
    have bound := name.length_le_leadingName begins
    rw [noName] at bound
    cases name
    exact absurd bound (Nat.not_succ_le_zero _)

theorem leading?_spec (text : List Char) :
    (∃ word token, leading? text = some (token, word.length) ∧ Leads text word token) ∨
      (leading? text = none ∧ ∀ word token, Spells word token → ¬word <+: text) := by
  unfold leading?
  split
  next sign token isFound =>
    obtain ⟨isSign, begins⟩ := sign_of_find isFound
    refine .inl ⟨sign, token, rfl, leads_of_fixed (.sign isSign) begins ?_⟩
    rw [leadingName_eq_nil_of_sign isSign begins]
    exact Nat.zero_le _
  next noSign =>
    split
    next letters token isFound =>
      -- The keyword is written with as many characters as it has letters, and loses only to a longer name.
      obtain ⟨word, sameLength, fixed, begins⟩ := keyword_of_find isFound
      by_cases long : (leadingName text).length ≤ letters.length
      · rw [if_pos long]
        rw [← sameLength] at long ⊢
        exact .inl ⟨word, token, rfl, leads_of_fixed fixed begins long⟩
      · rw [if_neg long]
        rw [← sameLength] at long
        exact .inl ⟨_, _, rfl, leads_of_longer_name fixed begins (Nat.lt_of_not_le long)⟩
    next noKeyword =>
      have noFixed : ∀ word token, IsFixed word token → ¬word <+: text :=
        fun _ _ => not_fixed_of_find noSign noKeyword
      by_cases noName : leadingName text = []
      · rw [noName]
        exact .inr ⟨rfl, fun _ _ => not_begins_of_no_name noName noFixed⟩
      · rw [if_neg (mt List.isEmpty_iff.mp noName)]
        exact .inl ⟨_, _, rfl, leads_of_name noName fun _ _ fixed begins => absurd begins (noFixed _ _ fixed)⟩

theorem leading?_eq_some_iff {size : Nat} :
    leading? text = some (token, size) ↔ ∃ word, word.length = size ∧ Leads text word token := by
  obtain ⟨word, known, found, leads⟩ | ⟨unread, no⟩ := leading?_spec text
  · rw [found, Option.some.injEq, Prod.mk.injEq]
    constructor
    · rintro ⟨rfl, rfl⟩
      exact ⟨word, rfl, leads⟩
    · rintro ⟨word', rfl, leads'⟩
      obtain ⟨rfl, rfl⟩ := leads.unique leads'
      exact ⟨rfl, rfl⟩
  · rw [unread]
    refine ⟨nofun, ?_⟩
    rintro ⟨word, rfl, leads⟩
    exact absurd leads.begins (no _ _ leads.spells)

end Scanning

end Token

section Cutting

variable {text word rest : List Char} {token : Token} {tokens : List Token} {position : Nat}

theorem lexFrom_skip (word rest : List Char) (position : Nat) :
    lexFrom position word.length (word ++ rest) = lexFrom (position + byteLength word) 0 rest := by
  induction word generalizing position with
  | nil => rfl
  | cons c word ih => rw [List.cons_append, List.length_cons, lexFrom, ih, byteLength, Nat.add_assoc]

theorem lexFrom_blank {c : Char} (blank : isBlank c = true) :
    lexFrom position 0 (c :: rest) = lexFrom (position + c.utf8Size) 0 rest := by
  rw [lexFrom, if_pos blank]

theorem lexFrom_invalid {c : Char} (notBlank : isBlank c = false) (unread : leading? (c :: rest) = none) :
    lexFrom position 0 (c :: rest) = ⟨[], some position⟩ := by
  simp [lexFrom, notBlank, unread]

theorem lexFrom_token {c : Char} (notBlank : isBlank c = false)
    (leads : Leads (c :: (word ++ rest)) (c :: word) token) :
    lexFrom position 0 (c :: (word ++ rest)) =
      let following := lexFrom (position + c.utf8Size) word.length (word ++ rest)
      ⟨⟨token, c :: word, position⟩ :: following.lexemes, following.invalid?⟩ := by
  have found := leading?_eq_some_iff.mpr ⟨c :: word, rfl, leads⟩
  simp [lexFrom, notBlank, found]

/-- A text that is cut to its end splits into the tokens of the lexemes. -/
theorem splits_of_lexFrom {skip : Nat} (complete : (lexFrom position skip text).invalid? = none) :
    Splits (text.drop skip) ((lexFrom position skip text).lexemes.map Lexeme.token) := by
  induction text generalizing position skip with
  | nil =>
    rw [List.drop_nil]
    exact .done
  | cons c rest ih =>
    cases skip with
    | succ skip => exact ih complete
    | zero =>
      by_cases blank : isBlank c = true
      · rw [lexFrom_blank blank] at complete ⊢
        exact .blank blank (ih complete)
      · rw [Bool.not_eq_true] at blank
        obtain ⟨word, token, found, leads⟩ | ⟨unread, _⟩ := leading?_spec (c :: rest)
        · obtain ⟨first, word, rfl, _⟩ := leads.spells.exists_cons
          obtain ⟨rfl, begins⟩ := List.cons_prefix_cons.mp leads.begins
          obtain ⟨rest, rfl⟩ := begins
          rw [lexFrom_token blank leads] at complete ⊢
          have following := ih complete
          rw [List.drop_left] at following
          rw [← List.cons_append] at leads ⊢
          exact .token leads following
        · rw [lexFrom_invalid blank unread] at complete
          cases complete

theorem lexFrom_of_splits (splits : Splits text tokens) (position : Nat) :
    (lexFrom position 0 text).invalid? = none ∧
      (lexFrom position 0 text).lexemes.map Lexeme.token = tokens := by
  induction splits generalizing position with
  | done => exact ⟨rfl, rfl⟩
  | blank blank _ ih =>
    rw [lexFrom_blank blank]
    exact ih _
  | token leads _ ih =>
    obtain ⟨c, word, rfl, notBlank⟩ := leads.spells.exists_cons
    rw [List.cons_append, lexFrom_token notBlank leads, lexFrom_skip]
    obtain ⟨complete, same⟩ := ih (position + c.utf8Size + byteLength word)
    exact ⟨complete, congrArg _ same⟩

theorem splits_iff_lex :
    Splits text tokens ↔ (lex text).invalid? = none ∧ (lex text).lexemes.map Lexeme.token = tokens := by
  constructor
  · intro splits
    exact lexFrom_of_splits splits 0
  · rintro ⟨complete, rfl⟩
    exact splits_of_lexFrom complete

end Cutting

end TwoLevel.Expr
