import TwoLevel.Proofs.Lexing
import TwoLevel.Expr.Printer

/-! How a printed text is cut into tokens. Each piece of it gives its own tokens as long as
something follows that belongs to no word, as a blank or a parenthesis does, or nothing. -/

set_option autoImplicit false

namespace TwoLevel.Expr

open Text Token

/-- A character of a name, or one that can stand for a letter of a keyword. -/
def isWordChar (c : Char) : Bool := isNameChar c || c = '\u017f'

/-- No word goes on at the start of the text. -/
def Boundary (rest : List Char) : Prop := ∀ c ∈ rest.head?, isWordChar c = false

/-- At a boundary after the text, the text itself has been cut into the tokens. -/
def ReadsAs (text : List Char) (tokens : List Token) : Prop :=
  ∀ (rest : List Char) (following : List Token), Boundary rest → Splits rest following →
    Splits (text ++ rest) (tokens ++ following)

variable {text text' word rest letters : List Char} {tokens tokens' : List Token} {token : Token}

theorem boundary_nil : Boundary [] := nofun

theorem boundary_cons {c : Char} (other : isWordChar c = false) : Boundary (c :: rest) := by
  intro d head
  cases head
  exact other

theorem ReadsAs.splits (reads : ReadsAs text tokens) : Splits text tokens := by
  have whole := reads [] [] boundary_nil .done
  rwa [List.append_nil, List.append_nil] at whole

namespace Token

theorem isWordChar_of_isAlpha {c : Char} (letter : c.isAlpha = true) : isWordChar c = true := by
  simp [isWordChar, isNameChar, isAlphanum_iff.mpr (.inl letter)]

theorem StandsFor.isWordChar {c letter : Char} (stands : StandsFor c letter) (isUpper : letter.isUpper = true) :
    isWordChar c = true := by
  rcases stands with rfl | rfl | ⟨_, rfl⟩
  · exact isWordChar_of_isAlpha (isAlpha_iff.mpr (.inl isUpper))
  · exact isWordChar_of_isAlpha (isAlpha_iff.mpr (.inr (isLower_toLower_of_isUpper isUpper)))
  · decide

theorem isWordChar_of_spelled (spelled : List.Forall₂ StandsFor word letters)
    (isUpper : ∀ letter ∈ letters, letter.isUpper = true) : ∀ c ∈ word, isWordChar c = true := by
  induction spelled with
  | nil => exact fun c member => absurd member List.not_mem_nil
  | cons stands _ ih =>
    obtain ⟨head, tail⟩ := List.forall_mem_cons.mp isUpper
    exact List.forall_mem_cons.mpr ⟨stands.isWordChar head, ih tail⟩

/-- A word that begins with a letter has no other characters than words have. -/
theorem Spells.isWordChar {c : Char} (spells : Spells (c :: word) token) (letter : c.isAlpha = true) :
    ∀ d ∈ c :: word, isWordChar d = true := by
  cases spells with
  | fixed fixed =>
    cases fixed with
    | sign sign =>
      obtain ⟨_, _, same, notLetter, _⟩ := sign.exists_cons
      cases same
      exact absurd letter notLetter
    | keyword letters keyword spelled => exact isWordChar_of_spelled spelled keyword.isUpper
  | name name _ =>
    cases name with
    | intro _ _ _ others =>
      refine List.forall_mem_cons.mpr ⟨isWordChar_of_isAlpha letter, fun d member => ?_⟩
      simp [Expr.isWordChar, isNameChar_iff.mpr (others d member)]

/-- Characters of a kind that begin a text do not reach past the place where none of the kind follows. -/
theorem length_le_of_begins {other : List Char} {p : Char → Bool} (all : ∀ c ∈ other, p c = true)
    (begins : other <+: word ++ rest) (stop : ∀ c ∈ rest.head?, p c = false) : other.length ≤ word.length := by
  induction word generalizing other with
  | nil =>
    cases other with
    | nil => exact Nat.le_refl _
    | cons c other =>
      obtain ⟨tail, rfl⟩ := begins
      exact absurd (all c List.mem_cons_self) (Bool.eq_false_iff.mp (stop c rfl))
  | cons first word ih =>
    cases other with
    | nil => exact Nat.zero_le _
    | cons c other =>
      have beginsRest := (List.cons_prefix_cons.mp begins).2
      exact Nat.succ_le_succ (ih (List.forall_mem_cons.mp all).2 beginsRest)

theorem leads_of_boundary {c : Char} (spells : Spells (c :: word) token) (letter : c.isAlpha = true)
    (boundary : Boundary rest) : Leads (c :: word ++ rest) (c :: word) token where
  begins := List.prefix_append _ _
  spells := spells
  longest := by
    intro other token' begins spells'
    obtain ⟨d, other, rfl, _⟩ := spells'.exists_cons
    obtain ⟨rfl, _⟩ := List.cons_prefix_cons.mp begins
    exact length_le_of_begins (spells'.isWordChar letter) begins boundary

theorem leads_of_sign (sign : IsSign word token) (rest : List Char) : Leads (word ++ rest) word token := by
  refine leads_of_fixed (.sign sign) (List.prefix_append _ _) ?_
  rw [leadingName_eq_nil_of_sign sign (List.prefix_append _ _)]
  exact Nat.zero_le _

end Token

theorem readsAs_word {c : Char} (spells : Spells (c :: word) token) (letter : c.isAlpha = true) :
    ReadsAs (c :: word) [token] :=
  fun _ _ boundary splits => .token (leads_of_boundary spells letter boundary) splits

theorem readsAs_keyword (keyword : IsKeyword letters token) (spelled : List.Forall₂ StandsFor word letters) :
    ReadsAs word [token] := by
  obtain ⟨c, word, rfl, letter, _⟩ := keyword.exists_cons_of_spelled spelled
  exact readsAs_word (.fixed (.keyword letters keyword spelled)) letter

theorem readsAs_upper (keyword : IsKeyword letters token) : ReadsAs letters [token] :=
  readsAs_keyword keyword (List.forall₂_same.mpr fun _ _ => .inl rfl)

theorem readsAs_lower (keyword : IsKeyword letters token) : ReadsAs (letters.map Char.toLower) [token] :=
  readsAs_keyword keyword (List.forall₂_map_left_iff.mpr (List.forall₂_same.mpr fun _ _ => .inr (.inl rfl)))

theorem readsAs_not : ReadsAs notSymbol.toList [.not] := readsAs_upper .not

theorem readsAs_symbol (op : Op) : ReadsAs op.symbol.toList [.op op] := by
  cases op with
  | and => exact readsAs_upper .and
  | or => exact readsAs_upper .or
  | xor => exact readsAs_upper .xor

theorem readsAs_const (value : Bool) : ReadsAs (printConst value) [.const value] := by
  cases value with
  | false => exact readsAs_lower .isFalse
  | true => exact readsAs_lower .isTrue

theorem ReadsAs.spaced (first : ReadsAs text tokens) (second : ReadsAs text' tokens') :
    ReadsAs (text ++ [' '] ++ text') (tokens ++ tokens') := by
  intro rest following boundary splits
  rw [List.append_assoc, List.append_assoc, List.append_assoc]
  exact first _ _ (boundary_cons (by decide)) (.blank (by decide) (second rest following boundary splits))

theorem ReadsAs.joined {op : Op} (first : ReadsAs text tokens) (second : ReadsAs text' tokens') :
    ReadsAs (text ++ separator op ++ text') (tokens ++ .op op :: tokens') := by
  have spaced := first.spaced ((readsAs_symbol op).spaced second)
  simpa [separator] using spaced

theorem ReadsAs.parens (reads : ReadsAs text tokens) :
    ReadsAs (['('] ++ text ++ [')']) (.opening :: tokens ++ [.closing]) := by
  intro rest following _ splits
  have closed : Splits (')' :: rest) (.closing :: following) := .token (leads_of_sign .closing rest) splits
  have inner := reads _ _ (boundary_cons (by decide)) closed
  rw [List.append_assoc, List.append_assoc, List.append_assoc]
  exact .token (leads_of_sign .opening _) inner

/-- A character of a name that folding to upper case keeps. -/
def IsPlain (c : Char) : Prop := c.isUpper = true ∨ c.isDigit = true ∨ c = '_'

/-- Upper-case letters, digits and underscores, with a letter first. -/
def IsUpperName (name : String) : Prop := ∃ c rest, name.toList = c :: rest ∧ c.isUpper = true ∧ ∀ d ∈ rest, IsPlain d

/-- The keywords as names in upper case. -/
def keywordNames : List String := ["AND", "OR", "XOR", "NOT", "TRUE", "FALSE"]

/-- An upper-case name that is no keyword. -/
structure PlainName (name : String) : Prop where
  shape : IsUpperName name
  notKeyword : name ∉ keywordNames

section Plain

variable {c letter : Char} {name : String}

theorem IsPlain.not_isLower (plain : IsPlain c) : ¬c.isLower = true := by
  intro lower
  have codes := isLower_iff.mp lower
  rcases plain with isUpper | digit | rfl
  · have codes' := isUpper_iff.mp isUpper
    omega
  · have codes' := isDigit_iff.mp digit
    omega
  · exact absurd lower (by decide)

theorem IsPlain.isAlphanum_or (plain : IsPlain c) : c.isAlphanum = true ∨ c = '_' := by
  rcases plain with isUpper | digit | underscore
  · exact .inl (isAlphanum_iff.mpr (.inl (isAlpha_iff.mpr (.inl isUpper))))
  · exact .inl (isAlphanum_iff.mpr (.inr digit))
  · exact .inr underscore

theorem IsPlain.eq_of_standsFor (plain : IsPlain c) (stands : StandsFor c letter)
    (isUpper : letter.isUpper = true) : c = letter := by
  rcases stands with same | rfl | ⟨_, rfl⟩
  · exact same
  · exact absurd (isLower_toLower_of_isUpper isUpper) plain.not_isLower
  · rcases plain with isUpper | digit | underscore
    · exact absurd isUpper (by decide)
    · exact absurd digit (by decide)
    · exact absurd underscore (by decide)

theorem eq_of_spelled (plain : ∀ c ∈ word, IsPlain c) (spelled : List.Forall₂ StandsFor word letters)
    (isUpper : ∀ letter ∈ letters, letter.isUpper = true) : word = letters := by
  induction spelled with
  | nil => rfl
  | cons stands _ ih =>
    obtain ⟨plainHead, plainTail⟩ := List.forall_mem_cons.mp plain
    obtain ⟨upperHead, upperTail⟩ := List.forall_mem_cons.mp isUpper
    rw [plainHead.eq_of_standsFor stands upperHead, ih plainTail upperTail]

theorem IsUpperName.isPlain (isUpperName : IsUpperName name) : ∀ c ∈ name.toList, IsPlain c := by
  obtain ⟨c, rest, same, isUpper, others⟩ := isUpperName
  rw [same]
  exact List.forall_mem_cons.mpr ⟨.inl isUpper, others⟩

theorem PlainName.isPlain (plain : PlainName name) : ∀ c ∈ name.toList, IsPlain c := plain.shape.isPlain

theorem PlainName.not_isFixed (plain : PlainName name) : ¬IsFixed name.toList token := by
  intro fixed
  cases fixed with
  | sign sign =>
    obtain ⟨c, rest, same, isUpper, _⟩ := plain.shape
    obtain ⟨c', rest', same', notLetter, _⟩ := sign.exists_cons
    cases same.symm.trans same'
    exact notLetter (isAlpha_iff.mpr (.inl isUpper))
  | keyword letters keyword spelled =>
    have same := eq_of_spelled plain.isPlain spelled keyword.isUpper
    apply plain.notKeyword
    rw [← String.ofList_toList (s := name), same]
    cases keyword <;> decide

theorem PlainName.upper_eq (plain : PlainName name) : upper name.toList = name.toList := by
  refine (List.map_congr_left fun c member => ?_).trans (List.map_id _)
  exact toUpper_of_not_isLower (plain.isPlain c member).not_isLower

theorem PlainName.readsAs (plain : PlainName name) : ReadsAs name.toList [.name name] := by
  obtain ⟨c, rest, same, isUpper, others⟩ := plain.shape
  have letter := isAlpha_iff.mpr (.inl isUpper)
  have isName : IsName name.toList := by
    rw [same]
    exact .intro c rest letter fun d member => (others d member).isAlphanum_or
  have spells : Spells name.toList (.name name) := by
    have named := Spells.name isName fun token => plain.not_isFixed
    rwa [plain.upper_eq, String.ofList_toList] at named
  rw [same] at spells ⊢
  exact readsAs_word spells letter

end Plain

end TwoLevel.Expr
