import TwoLevel.Proofs.Parsing
import TwoLevel.Proofs.Positions

/-! A text that is no expression goes wrong at the position that is reported. The tokens in front
of it can be continued to an expression, and with what stands there they cannot. -/

set_option autoImplicit false

namespace TwoLevel.Expr

open Text Token

/-- The tokens can be continued to an expression. -/
def Viable (tokens : List Token) : Prop := ∃ more e, Derives (.chain .or) (tokens ++ more) e

/-- How a text goes wrong at a byte position, when it has been cut into lexemes and `rest` is left. -/
inductive GoesWrong (text : List Char) (lexemes : List Lexeme) (rest : List Char) (position : Nat) : Prop where
  /-- The token there does not go on from those before it. -/
  | refused (lexeme : Lexeme) (member : lexeme ∈ lexemes) (starts : lexeme.start = position)
    (notViable : ¬Viable (upTo position lexemes ++ [lexeme.token]))
  /-- The text goes on there, but no token starts. -/
  | invalid (before : List Char) (whole : text = before ++ rest) (starts : byteLength before = position)
    (visible : ∃ c more, rest = c :: more ∧ isBlank c = false)
    (unspelled : ∀ word token, Spells word token → ¬word <+: rest)
  /-- The last token ends there, and it does not complete an expression. -/
  | ending (nothing : rest = []) (ends : lastStop 0 lexemes = position)
    (all : upTo position lexemes = lexemes.map Lexeme.token)
    (incomplete : ∀ e, ¬Derives (.chain .or) (lexemes.map Lexeme.token) e)

variable {tokens : List Token} {lexemes : List Lexeme} {state final : ReadState} {stop stop' : Nat}

namespace ReadState

/-- After an operand it is enough to close what is open. -/
theorem exists_run_after (outer : List Level) (level : Level) (last : Expr) :
    ∃ more final e, (after level outer last).run more = .ok final ∧ final.result = .ok e := by
  induction outer generalizing level last with
  | nil => exact ⟨[], _, _, rfl, rfl⟩
  | cons around outer ih =>
    obtain ⟨more, final, e, read, result⟩ := ih around (around.operand (level.finish last))
    exact ⟨.closing :: more, final, e, read, result⟩

/-- Every state can be read on to an expression. -/
theorem exists_run_result (state : ReadState) :
    ∃ more final e, state.run more = .ok final ∧ final.result = .ok e := by
  cases state with
  | before level outer =>
    obtain ⟨more, final, e, read, result⟩ := exists_run_after outer level (level.operand (.const true))
    exact ⟨.const true :: more, final, e, read, result⟩
  | after level outer last => exact exists_run_after outer level last

end ReadState

/-- The reader goes on exactly as long as the tokens can be continued to an expression. -/
theorem viable_iff : Viable tokens ↔ ∃ state, ReadState.initial.run tokens = .ok state := by
  constructor
  · rintro ⟨more, e, derives⟩
    obtain ⟨final, read, _⟩ := run_eq_ok_iff_derives.mpr derives
    rw [ReadState.run_append] at read
    cases first : ReadState.initial.run tokens with
    | error expected => simp [first, Except.bind] at read
    | ok state => exact ⟨state, rfl⟩
  · rintro ⟨state, read⟩
    obtain ⟨more, final, e, readMore, result⟩ := state.exists_run_result
    refine ⟨more, e, run_eq_ok_iff_derives.mp ⟨final, ?_, result⟩⟩
    exact (ReadState.run_append_of_run read).trans readMore

theorem not_viable_of_step {token : Token} {expected : Expected} (read : ReadState.initial.run tokens = .ok state)
    (refused : state.step token = .error expected) : ¬Viable (tokens ++ [token]) := by
  intro viable
  obtain ⟨next, readNext⟩ := viable_iff.mp viable
  rw [ReadState.run_append_of_run read, ReadState.run, List.foldlM_cons, refused] at readNext
  cases readNext

/-- A failure of the reader is a token that the state before it refuses. -/
theorem refused_of_readFrom {problem : Problem} (failed : readFrom state stop lexemes = .error problem) :
    ∃ front lexeme back reached expected, lexemes = front ++ lexeme :: back ∧
      state.run (front.map Lexeme.token) = .ok reached ∧ reached.step lexeme.token = .error expected ∧
      problem = .unexpectedToken lexeme expected := by
  induction lexemes generalizing state stop with
  | nil => cases failed
  | cons lexeme rest ih =>
    rw [readFrom] at failed
    cases read : state.step lexeme.token with
    | error expected =>
      rw [read] at failed
      exact ⟨[], lexeme, rest, state, expected, rfl, rfl, read, (Except.error.inj failed).symm⟩
    | ok next =>
      rw [read] at failed
      obtain ⟨front, other, back, reached, expected, rfl, readFront, refused, same⟩ := ih failed
      refine ⟨lexeme :: front, other, back, reached, expected, rfl, ?_, refused, same⟩
      exact (ReadState.run_cons_of_step read).trans readFront

theorem stop_of_readFrom (read : readFrom state stop lexemes = .ok (final, stop')) : stop' = lastStop stop lexemes := by
  induction lexemes generalizing state stop with
  | nil =>
    cases read
    rfl
  | cons lexeme rest ih =>
    rw [readFrom] at read
    rw [lastStop_cons]
    cases first : state.step lexeme.token with
    | error expected => simp [first] at read
    | ok next =>
      rw [first] at read
      exact ih read

section Kinds

variable {text before rest : List Char}

theorem goesWrong_of_readFrom {problem : Problem} (cuts : Cuts 0 text lexemes rest)
    (failed : readFrom .initial 0 lexemes = .error problem) :
    Viable (upTo problem.position lexemes) ∧ GoesWrong text lexemes rest problem.position := by
  obtain ⟨front, lexeme, back, reached, expected, rfl, read, refused, rfl⟩ := refused_of_readFrom failed
  rw [Problem.position, cuts.upTo_start]
  refine ⟨viable_iff.mpr ⟨reached, read⟩, .refused lexeme (by simp) rfl ?_⟩
  rw [cuts.upTo_start]
  exact not_viable_of_step read refused

theorem goesWrong_of_rest (cuts : Cuts 0 (before ++ rest) lexemes rest) (left : rest ≠ [])
    (ends : ∀ lexeme ∈ lexemes, lexeme.stop ≤ byteLength before)
    (read : ReadState.initial.run (lexemes.map Lexeme.token) = .ok state) :
    Viable (upTo (byteLength before) lexemes) ∧ GoesWrong (before ++ rest) lexemes rest (byteLength before) := by
  obtain ⟨visible, unspelled⟩ := cuts.rest_cases.resolve_left left
  rw [upTo_of_all ends]
  exact ⟨viable_iff.mpr ⟨state, read⟩, .invalid before rfl rfl visible unspelled⟩

theorem goesWrong_of_result {expected : Expected} (cuts : Cuts 0 text lexemes rest) (nothing : rest = [])
    (read : ReadState.initial.run (lexemes.map Lexeme.token) = .ok state) (missing : state.result = .error expected) :
    Viable (upTo (lastStop 0 lexemes) lexemes) ∧ GoesWrong text lexemes rest (lastStop 0 lexemes) := by
  have all := upTo_of_all (cuts.stop_le_lastStop (Nat.le_refl 0)).2
  rw [all]
  refine ⟨viable_iff.mpr ⟨state, read⟩, .ending nothing rfl all fun e derives => ?_⟩
  -- An expression would be read to a state with a result, but only one state is reached.
  obtain ⟨final, readFinal, result⟩ := run_eq_ok_iff_derives.mpr derives
  obtain rfl := Except.ok.inj (read.symm.trans readFinal)
  cases missing.symm.trans result

/-- A text that cannot be read goes wrong where the problem is. -/
theorem goesWrong_of_ofLexing {problem : Problem} (cuts : Cuts 0 text lexemes rest)
    (failed : ofLexing (lex text) = .error problem) :
    Viable (upTo problem.position lexemes) ∧ GoesWrong text lexemes rest problem.position := by
  obtain ⟨before, rfl, ends⟩ := cuts.exists_before
  rw [Nat.zero_add] at ends
  rw [lex, cuts.lexFrom_eq, Nat.zero_add, ofLexing] at failed
  cases read : readFrom .initial 0 lexemes with
  | error other =>
    simp only [read] at failed
    cases failed
    exact goesWrong_of_readFrom cuts read
  | ok reached =>
    obtain ⟨state, stop⟩ := reached
    have readAll : ReadState.initial.run (lexemes.map Lexeme.token) = .ok state :=
      (readFrom_eq_ok_iff 0).mp ⟨stop, read⟩
    simp only [read] at failed
    by_cases nothing : rest = []
    · simp only [if_pos nothing] at failed
      cases result : state.result with
      | ok e => simp [result] at failed
      | error expected =>
        simp only [result] at failed
        cases failed
        rw [Problem.position, stop_of_readFrom read]
        exact goesWrong_of_result cuts nothing readAll result
    · simp only [if_neg nothing] at failed
      cases failed
      exact goesWrong_of_rest cuts nothing ends readAll

end Kinds

/-- Where a text is no expression, the tokens that end at or before the reported position can be continued to
an expression. What is wrong there is a token that does not go on from them, or text where no token starts,
or that the text ends. -/
theorem ofString_error_leftmost {text : String} {error : SyntaxError} (rejected : ofString text = .error error) :
    (∃ lexemes rest, Cuts 0 text.toList lexemes rest) ∧
      ∀ lexemes rest, Cuts 0 text.toList lexemes rest →
        Viable (upTo error.position lexemes) ∧ GoesWrong text.toList lexemes rest error.position := by
  refine ⟨exists_cuts_drop 0 0 text.toList, fun lexemes rest cuts => ?_⟩
  rw [ofString, parse] at rejected
  cases failed : ofLexing (lex text.toList) with
  | ok e => simp [failed, Except.mapError] at rejected
  | error problem =>
    simp only [failed, Except.mapError] at rejected
    cases rejected
    exact goesWrong_of_ofLexing cuts failed

/-- The parenthesis stands behind two blanks of two bytes each, and in front of a place where no token starts. -/
theorem ofString_error_leftmost_no_break_space :
    ∃ error, ofString "a\u00a0or\u00a0) :" = .error error ∧ error.position = 7 ∧
      (∃ lexemes rest, Cuts 0 "a\u00a0or\u00a0) :".toList lexemes rest) ∧
      ∀ lexemes rest, Cuts 0 "a\u00a0or\u00a0) :".toList lexemes rest →
        Viable (upTo error.position lexemes) ∧ GoesWrong "a\u00a0or\u00a0) :".toList lexemes rest error.position := by
  have rejected : ofString "a\u00a0or\u00a0) :" =
      .error ⟨"a\u00a0or\u00a0) :".toList, .unexpectedToken ⟨.closing, [')'], 7⟩ .operand⟩ := by decide
  exact ⟨_, rejected, rfl, ofString_error_leftmost rejected⟩

end TwoLevel.Expr
