import Mathlib.Data.List.Forall2
import TwoLevel.Proofs.Cutting
import TwoLevel.Expr.Parser

/-! The case of ASCII letters makes no difference to the reader. Folding a text to upper case
before it is read moves no token, and changes none of them but for the text it stands for. -/

set_option autoImplicit false

namespace TwoLevel.Text

/-- The characters are the same, or one ASCII letter in its two cases. -/
def SameLetter (c d : Char) : Prop :=
  c = d ∨ c.isUpper = true ∧ d = c.toLower ∨ c.isLower = true ∧ d = c.toUpper

theorem sameLetter_iff {c d : Char} : SameLetter c d ↔ c.toUpper = d.toUpper := by
  constructor
  · rintro (rfl | ⟨isUpper, rfl⟩ | ⟨_, rfl⟩)
    · rfl
    · rw [(toUpper_eq_iff isUpper).mpr (.inr rfl)]
      exact (toUpper_eq_iff isUpper).mpr (.inl rfl)
    · exact (toUpper_toUpper c).symm
  · intro same
    by_cases lower : c.isLower = true
    · by_cases other : d.isLower = true
      · refine .inl (Char.toNat_inj.mp ?_)
        have codes := isLower_iff.mp lower
        have codesOther := isLower_iff.mp other
        have folded := congrArg Char.toNat same
        rw [toNat_toUpper_of_isLower lower, toNat_toUpper_of_isLower other] at folded
        omega
      · exact .inr (.inr ⟨lower, (same.trans (toUpper_of_not_isLower other)).symm⟩)
    · rw [toUpper_of_not_isLower lower] at same
      by_cases other : d.isLower = true
      · have isUpper : c.isUpper = true := same ▸ isUpper_toUpper_of_isAlpha (isAlpha_iff.mpr (.inr other))
        exact ((toUpper_eq_iff isUpper).mp same.symm).imp Eq.symm fun lowered => .inl ⟨isUpper, lowered⟩
      · exact .inl (same.trans (toUpper_of_not_isLower other))

theorem upper_eq_upper_iff {first second : List Char} :
    upper first = upper second ↔ List.Forall₂ SameLetter first second := by
  have letters : SameLetter = fun c d => c.toUpper = d.toUpper := funext₂ fun _ _ => propext sameLetter_iff
  rw [upper, upper, ← List.forall₂_eq_eq_eq, List.forall₂_map_left_iff, List.forall₂_map_right_iff, letters]

theorem sameWord_iff {first second : List Char} :
    sameWord first second = true ↔ List.Forall₂ SameLetter first second := by
  rw [sameWord, beq_iff_eq, upper_eq_upper_iff]

end TwoLevel.Text

namespace TwoLevel.Expr

open Text

namespace Token

theorem foldLetter_toUpper (c : Char) : foldLetter c.toUpper = foldLetter c := by
  have long : c.toUpper = '\u017f' ↔ c = '\u017f' := toUpper_eq_iff_of_not_isAlpha (by decide)
  simp only [foldLetter, long, toUpper_toUpper]

theorem isNameChar_toUpper (c : Char) : isNameChar c.toUpper = isNameChar c := by
  have underscore : c.toUpper = '_' ↔ c = '_' := toUpper_eq_iff_of_not_isAlpha (by decide)
  simp only [isNameChar, isAlphanum_toUpper, underscore]

theorem startsWith_upper (spelling text : List Char) : startsWith spelling (upper text) = startsWith spelling text := by
  induction spelling generalizing text with
  | nil => rw [startsWith, startsWith]
  | cons k spelling ih =>
    cases text with
    | nil => rfl
    | cons c text => rw [upper_cons, startsWith, startsWith, foldLetter_toUpper, ih]

/-- No letter is written in a sign. -/
theorem any_isAlpha_of_mem_signs : ∀ sign ∈ signs, sign.1.any Char.isAlpha = false := by decide

theorem isPrefixOf_upper {sign : List Char} (noLetter : sign.any Char.isAlpha = false) (text : List Char) :
    sign.isPrefixOf (upper text) = sign.isPrefixOf text := by
  induction sign generalizing text with
  | nil => rfl
  | cons s sign ih =>
    obtain ⟨head, tail⟩ := Bool.or_eq_false_iff.mp noLetter
    cases text with
    | nil => rfl
    | cons c text =>
      have same : s = c.toUpper ↔ s = c := by
        rw [eq_comm, toUpper_eq_iff_of_not_isAlpha (Bool.eq_false_iff.mp head), eq_comm]
      have begins : (s == c.toUpper) = (s == c) := by
        rw [Bool.eq_iff_iff, beq_iff_eq, beq_iff_eq, same]
      rw [upper_cons, List.isPrefixOf_cons_cons, List.isPrefixOf_cons_cons, begins, ih tail]

theorem leadingName_upper (text : List Char) : leadingName (upper text) = upper (leadingName text) := by
  cases text with
  | nil => rfl
  | cons c text =>
    have nameChars : isNameChar ∘ Char.toUpper = isNameChar := funext isNameChar_toUpper
    have tail : (upper text).takeWhile isNameChar = upper (text.takeWhile isNameChar) := by
      rw [upper, List.takeWhile_map, nameChars, upper]
    rw [upper_cons, leadingName, leadingName, isAlpha_toUpper_eq, tail]
    split <;> rfl

/-- The same token, of the same length, leads a text and the text in upper case. -/
theorem leading?_upper (text : List Char) : leading? (upper text) = leading? text := by
  have sign : signs.find? (fun sign => sign.1.isPrefixOf (upper text)) =
      signs.find? (fun sign => sign.1.isPrefixOf text) := by
    rw [← List.head?_filter, ← List.head?_filter]
    exact congrArg List.head? (List.filter_congr fun sign member =>
      isPrefixOf_upper (any_isAlpha_of_mem_signs sign member) text)
  have length : (upper (leadingName text)).length = (leadingName text).length := List.length_map _
  have isEmpty : (upper (leadingName text)).isEmpty = (leadingName text).isEmpty := List.isEmpty_map
  simp only [leading?, sign, startsWith_upper, leadingName_upper, upper_upper, length, isEmpty]

end Token

/-- The lexeme in upper case, where it stands. -/
def Lexeme.folded (lexeme : Lexeme) : Lexeme := { lexeme with text := upper lexeme.text }

def Lexing.folded (lexing : Lexing) : Lexing := { lexing with lexemes := lexing.lexemes.map Lexeme.folded }

def Problem.folded : Problem → Problem
  | invalidToken position => .invalidToken position
  | unexpectedToken lexeme expected => .unexpectedToken lexeme.folded expected
  | unexpectedEnd position expected => .unexpectedEnd position expected

def SyntaxError.folded (error : SyntaxError) : SyntaxError := ⟨upper error.input, error.problem.folded⟩

theorem byteLength_upper (text : List Char) : byteLength (upper text) = byteLength text := by
  induction text with
  | nil => rfl
  | cons c text ih => rw [upper_cons, byteLength, byteLength, utf8Size_toUpper, ih]

@[simp] theorem Lexeme.token_folded (lexeme : Lexeme) : lexeme.folded.token = lexeme.token := rfl

@[simp] theorem Lexeme.stop_folded (lexeme : Lexeme) : lexeme.folded.stop = lexeme.stop := by
  rw [stop, stop, folded, byteLength_upper]

@[simp] theorem Problem.position_folded (problem : Problem) : problem.folded.position = problem.position := by
  cases problem <;> rfl

theorem SyntaxError.position_folded (error : SyntaxError) : error.folded.position = error.position :=
  error.problem.position_folded

/-- The tokens of a text in upper case are the tokens of the text, in the same places. -/
theorem lexFrom_upper (position skip : Nat) (text : List Char) :
    lexFrom position skip (upper text) = (lexFrom position skip text).folded := by
  induction text generalizing position skip with
  | nil => rfl
  | cons c rest ih =>
    rw [upper_cons]
    cases skip with
    | succ skip =>
      rw [lexFrom, lexFrom, utf8Size_toUpper]
      exact ih _ skip
    | zero =>
      -- A letter has one byte in either case, so that what follows starts at the same position.
      rw [lexFrom, lexFrom, utf8Size_toUpper, isBlank_toUpper, ← upper_cons, Token.leading?_upper]
      by_cases blank : isBlank c = true
      · rw [if_pos blank, if_pos blank]
        exact ih _ 0
      · rw [if_neg blank, if_neg blank]
        cases Token.leading? (c :: rest) with
        | none => rfl
        | some found =>
          obtain ⟨token, size⟩ := found
          have taken : (upper (c :: rest)).take size = upper ((c :: rest).take size) := List.map_take.symm
          simp only [ih, taken, Lexing.folded, Lexeme.folded, List.map_cons]

theorem readFrom_folded (state : ReadState) (stop : Nat) (lexemes : List Lexeme) :
    readFrom state stop (lexemes.map Lexeme.folded) = (readFrom state stop lexemes).mapError Problem.folded := by
  induction lexemes generalizing state stop with
  | nil => rfl
  | cons lexeme rest ih =>
    -- The reader looks at the token and where it ends, which folding keeps.
    rw [List.map_cons, readFrom, readFrom, Lexeme.token_folded, Lexeme.stop_folded]
    cases state.step lexeme.token with
    | error expected => rfl
    | ok next => exact ih next lexeme.stop

theorem ofLexing_folded (lexing : Lexing) : ofLexing lexing.folded = (ofLexing lexing).mapError Problem.folded := by
  rw [ofLexing, ofLexing, Lexing.folded, readFrom_folded]
  cases readFrom .initial 0 lexing.lexemes with
  | error problem => rfl
  | ok reached =>
    obtain ⟨state, stop⟩ := reached
    cases invalid : lexing.invalid? with
    | some position => rfl
    | none => cases result : state.result <;> simp [Except.mapError, result, Problem.folded]

/-- A text in upper case is read as the text is, and where it is refused the error is the same in upper case. -/
theorem parse_upper (text : List Char) : parse (upper text) = (parse text).mapError SyntaxError.folded := by
  rw [parse, parse, lex, lex, lexFrom_upper, ofLexing_folded]
  cases ofLexing (lexFrom 0 0 text) <;> rfl

theorem cases_of_mapError_eq {α ε ε' : Type} {f : ε → ε'} {first second : Except ε α}
    (same : first.mapError f = second.mapError f) :
    (∃ a, first = .ok a ∧ second = .ok a) ∨ ∃ e e', first = .error e ∧ second = .error e' ∧ f e = f e' := by
  cases first with
  | ok a =>
    cases second with
    | ok b => exact .inl ⟨a, rfl, congrArg Except.ok (Except.ok.inj same).symm⟩
    | error e => cases same
  | error e =>
    cases second with
    | ok b => cases same
    | error e' => exact .inr ⟨e, e', rfl, rfl, Except.error.inj same⟩

/-- Texts that differ only in the case of ASCII letters are the same expression, or are both refused at the
same position. -/
theorem ofString_ignores_case {first second : String} (same : List.Forall₂ SameLetter first.toList second.toList) :
    (∃ e, ofString first = .ok e ∧ ofString second = .ok e) ∨
      ∃ error other, ofString first = .error error ∧ ofString second = .error other ∧
        error.position = other.position := by
  have read : (ofString first).mapError SyntaxError.folded = (ofString second).mapError SyntaxError.folded := by
    rw [ofString, ofString, ← parse_upper, ← parse_upper, upper_eq_upper_iff.mpr same]
  refine (cases_of_mapError_eq read).imp_right fun ⟨error, other, readFirst, readSecond, folded⟩ => ?_
  refine ⟨error, other, readFirst, readSecond, ?_⟩
  rw [← error.position_folded, folded, other.position_folded]

/-- A name that begins with a keyword, and a keyword with a long s in it. -/
theorem ofString_ignores_case_long_s :
    List.Forall₂ SameLetter "nOtable xoR Fal\u017fe".toList "NOTable XOr fAl\u017fe".toList ∧
      ((∃ e, ofString "nOtable xoR Fal\u017fe" = .ok e ∧ ofString "NOTable XOr fAl\u017fe" = .ok e) ∨
        ∃ error other, ofString "nOtable xoR Fal\u017fe" = .error error ∧
          ofString "NOTable XOr fAl\u017fe" = .error other ∧ error.position = other.position) := by
  have same : List.Forall₂ SameLetter "nOtable xoR Fal\u017fe".toList "NOTable XOr fAl\u017fe".toList :=
    sameWord_iff.mp (by decide)
  exact ⟨same, ofString_ignores_case same⟩

end TwoLevel.Expr
