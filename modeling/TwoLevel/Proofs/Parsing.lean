import TwoLevel.Proofs.Grammar
import TwoLevel.Proofs.Lexing
import TwoLevel.Expr.Parser

/-! The reader accepts exactly the grammar. The tokens read so far fall apart into the chains
that are open at each level, which gives a derivation of what is read. Conversely the reader
follows any derivation, so no tokens have two. -/

set_option autoImplicit false

namespace TwoLevel.Expr

variable {op : Op} {tokens tokens' : List Token} {es : List Expr} {e last : Expr} {level : Level} {outer : List Level}

namespace Level

theorem chain_eq : chain op es e = ofOperands op (es.reverse ++ [e]) := by
  cases es with
  | nil => rfl
  | cons first rest =>
    rw [chain, if_neg (by simp)]
    cases reversed : (first :: rest).reverse with
    | nil => simp at reversed
    | cons head tail => cases tail <;> rfl

end Level

theorem Derives.negate (operand : Derives .negation tokens e) (n : Nat) :
    Derives .negation (List.replicate n .not ++ tokens) (Level.negate n e) := by
  induction n with
  | zero => exact operand
  | succ n ih => exact .not ih

/-! ## What has been read -/

/-- The tokens of an open chain: its operands so far, the latest first, with an operator after
each of them. -/
inductive Waiting (op : Op) : List Token → List Expr → Prop where
  | fresh : Waiting op [] []
  | begun {tokens : List Token} {es : List Expr} (operands : Operands op tokens es.reverse) :
    Waiting op (tokens ++ [.op op]) es

theorem Waiting.operands (waiting : Waiting op tokens es) (operand : Derives (.operand op) tokens' e) :
    Operands op (tokens ++ tokens') (es.reverse ++ [e]) := by
  cases waiting with
  | fresh => exact .single operand
  | begun operands =>
    rw [List.append_assoc]
    exact operands.append (.single operand)

theorem Waiting.push (waiting : Waiting op tokens es) (operand : Derives (.operand op) tokens' e) :
    Waiting op (tokens ++ tokens' ++ [.op op]) (e :: es) := by
  refine .begun ?_
  rw [List.reverse_cons]
  exact waiting.operands operand

theorem Waiting.derives (waiting : Waiting op tokens es) (operand : Derives (.operand op) tokens' e) :
    Derives (.chain op) (tokens ++ tokens') (Level.chain op es e) := by
  rw [Level.chain_eq]
  exact (waiting.operands operand).derives

namespace Level

/-- The tokens of a level that waits for an operand: its open chains and its negations. -/
inductive Reads (level : Level) : List Token → Prop where
  | intro {ors xors ands : List Token} (waitingOr : Waiting .or ors level.ors)
    (waitingXor : Waiting .xor xors level.xors) (waitingAnd : Waiting .and ands level.ands) :
    level.Reads (ors ++ (xors ++ (ands ++ List.replicate level.negations .not)))

/-- The tokens of a level that ends with an operand. -/
inductive ReadsTo (level : Level) (last : Expr) : List Token → Prop where
  | intro {ors xors ands operand : List Token} (waitingOr : Waiting .or ors level.ors)
    (waitingXor : Waiting .xor xors level.xors) (waitingAnd : Waiting .and ands level.ands)
    (derives : Derives .negation operand last) : level.ReadsTo last (ors ++ (xors ++ (ands ++ operand)))

theorem reads_of_waiting {orTokens xorTokens andTokens : List Token} {ors xors ands : List Expr}
    (waitingOr : Waiting .or orTokens ors) (waitingXor : Waiting .xor xorTokens xors)
    (waitingAnd : Waiting .and andTokens ands) :
    (Level.mk ors xors ands 0).Reads (orTokens ++ (xorTokens ++ andTokens)) := by
  rw [← List.append_nil andTokens]
  exact .intro waitingOr waitingXor waitingAnd

theorem reads_empty : empty.Reads [] := reads_of_waiting .fresh .fresh .fresh

theorem Reads.negate (reads : level.Reads tokens) :
    Level.Reads { level with negations := level.negations + 1 } (tokens ++ [Token.not]) := by
  obtain ⟨waitingOr, waitingXor, waitingAnd⟩ := reads
  simp only [List.append_assoc, ← List.replicate_succ']
  exact .intro waitingOr waitingXor waitingAnd

theorem Reads.operand (reads : level.Reads tokens) (term : Derives .term tokens' e) :
    level.ReadsTo (level.operand e) (tokens ++ tokens') := by
  obtain ⟨waitingOr, waitingXor, waitingAnd⟩ := reads
  simp only [List.append_assoc]
  exact .intro waitingOr waitingXor waitingAnd ((Derives.positive term).negate _)

theorem ReadsTo.finish (reads : level.ReadsTo last tokens) :
    Derives (.chain .or) tokens (level.finish last) := by
  obtain ⟨waitingOr, waitingXor, waitingAnd, derives⟩ := reads
  exact waitingOr.derives (waitingXor.derives (waitingAnd.derives derives))

theorem ReadsTo.extend (reads : level.ReadsTo last tokens) (op : Op) :
    (level.extend last op).Reads (tokens ++ [.op op]) := by
  obtain ⟨waitingOr, waitingXor, waitingAnd, derives⟩ := reads
  cases op with
  | and =>
    have reads := reads_of_waiting waitingOr waitingXor (waitingAnd.push derives)
    simpa [extend] using reads
  | xor =>
    have reads := reads_of_waiting waitingOr (waitingXor.push (waitingAnd.derives derives)) .fresh
    simpa [extend, andChain] using reads
  | or =>
    have reads := reads_of_waiting (waitingOr.push (waitingXor.derives (waitingAnd.derives derives))) .fresh .fresh
    simpa [extend, andChain, xorChain] using reads

end Level

/-- The tokens of the levels around the innermost one, each up to the parenthesis that opens the next. -/
inductive Enclosing : List Level → List Token → Prop where
  | outermost : Enclosing [] []
  | opened {level : Level} {outer : List Level} {tokens tokens' : List Token} (enclosing : Enclosing outer tokens)
    (reads : level.Reads tokens') : Enclosing (level :: outer) (tokens ++ (tokens' ++ [.opening]))

namespace ReadState

variable {state next : ReadState} {token : Token}

/-- The state after the tokens. -/
inductive Reads : ReadState → List Token → Prop where
  | before {level : Level} {outer : List Level} {tokens tokens' : List Token}
    (enclosing : Enclosing outer tokens) (reads : level.Reads tokens') :
    Reads (before level outer) (tokens ++ tokens')
  | after {level : Level} {outer : List Level} {last : Expr} {tokens tokens' : List Token}
    (enclosing : Enclosing outer tokens) (reads : level.ReadsTo last tokens') :
    Reads (after level outer last) (tokens ++ tokens')

theorem reads_initial : initial.Reads [] := .before .outermost Level.reads_empty

theorem Reads.step (reads : state.Reads tokens) (read : state.step token = .ok next) :
    next.Reads (tokens ++ [token]) := by
  cases reads with
  | before enclosing reads =>
    rw [List.append_assoc]
    cases token with
    | opening =>
      cases read
      rw [← List.append_nil (_ ++ _)]
      exact .before (.opened enclosing reads) Level.reads_empty
    | closing => cases read
    | not =>
      cases read
      exact .before enclosing reads.negate
    | op op => cases read
    | const value =>
      cases read
      exact .after enclosing (reads.operand (.const value))
    | name name =>
      cases read
      exact .after enclosing (reads.operand (.name name))
  | after enclosing reads =>
    cases token with
    | op op =>
      cases read
      rw [List.append_assoc]
      exact .before enclosing (reads.extend op)
    | closing =>
      cases enclosing with
      | outermost => cases read
      | opened enclosing outerReads =>
        cases read
        have whole := Reads.after enclosing (outerReads.operand (.parens reads.finish))
        simpa using whole
    | opening => cases enclosing <;> cases read
    | not => cases enclosing <;> cases read
    | const value => cases enclosing <;> cases read
    | name name => cases enclosing <;> cases read

theorem Reads.derives (reads : state.Reads tokens) (result : state.result = .ok e) :
    Derives (.chain .or) tokens e := by
  cases reads with
  | before _ _ => cases result
  | after enclosing reads =>
    cases enclosing with
    | outermost =>
      cases result
      exact reads.finish
    | opened _ _ => cases result

/-- Read tokens one after the other. -/
def run (state : ReadState) (tokens : List Token) : Except Expected ReadState :=
  tokens.foldlM ReadState.step state

theorem run_append (first second : List Token) :
    state.run (first ++ second) = (state.run first).bind fun next => next.run second := by
  unfold run
  rw [List.foldlM_append]
  rfl

theorem run_cons_of_step (read : state.step token = .ok next) : state.run (token :: tokens) = next.run tokens := by
  unfold run
  rw [List.foldlM_cons, read]
  rfl

theorem run_append_of_run (read : state.run tokens = .ok next) :
    state.run (tokens ++ tokens') = next.run tokens' := by
  rw [run_append, read]
  rfl

theorem Reads.run (reads : state.Reads tokens) (read : state.run tokens' = .ok next) :
    next.Reads (tokens ++ tokens') := by
  induction tokens' generalizing state tokens with
  | nil =>
    cases read
    rw [List.append_nil]
    exact reads
  | cons token rest ih =>
    cases first : state.step token with
    | error expected =>
      unfold ReadState.run at read
      rw [List.foldlM_cons, first] at read
      cases read
    | ok following =>
      rw [run_cons_of_step first] at read
      rw [← List.singleton_append, ← List.append_assoc]
      exact ih (reads.step first) read

end ReadState

/-! ## Following a derivation -/

namespace Level

/-- The operands so far of the open chain of the operator. -/
def waiting (level : Level) : Op → List Expr
  | .or => level.ors
  | .xor => level.xors
  | .and => level.ands

/-- The level before the first operand of a chain of the operator. -/
def before (level : Level) : Op → Level
  | .or => empty
  | .xor => ⟨level.ors, [], [], 0⟩
  | .and => ⟨level.ors, level.xors, [], 0⟩

/-- The level before an operand of the operator, with the operands so far. -/
def beforeOperand (level : Level) : Op → Level
  | .or => ⟨level.ors, [], [], 0⟩
  | .xor => ⟨level.ors, level.xors, [], 0⟩
  | .and => ⟨level.ors, level.xors, level.ands, 0⟩

/-- The level before an operand of the operator, where one more has been read. -/
def push (level : Level) (e : Expr) : Op → Level
  | .or => ⟨e :: level.ors, [], [], 0⟩
  | .xor => ⟨level.ors, e :: level.xors, [], 0⟩
  | .and => ⟨level.ors, level.xors, e :: level.ands, 0⟩

/-- The operand of the operator that ends with the last operand of the level. -/
def lastOperand (level : Level) (last : Expr) : Op → Expr
  | .or => level.xorChain last
  | .xor => level.andChain last
  | .and => last

theorem extend_eq_push (op : Op) : level.extend last op = level.push (level.lastOperand last op) op := by
  cases op <;> rfl

/-- The chain of the operator that ends with the last operand. -/
def lastChain (level : Level) (last : Expr) (op : Op) : Expr :=
  chain op (level.waiting op) (level.lastOperand last op)

@[simp] theorem before_before : (level.before op).before op = level.before op := by cases op <;> rfl

@[simp] theorem waiting_before : (level.before op).waiting op = [] := by cases op <;> rfl

@[simp] theorem beforeOperand_before : (level.before op).beforeOperand op = level.before op := by cases op <;> rfl

@[simp] theorem before_beforeOperand : (level.beforeOperand op).before op = level.before op := by cases op <;> rfl

@[simp] theorem waiting_beforeOperand : (level.beforeOperand op).waiting op = level.waiting op := by
  cases op <;> rfl

@[simp] theorem push_beforeOperand : (level.beforeOperand op).push e op = level.push e op := by cases op <;> rfl

@[simp] theorem before_push : (level.push e op).before op = level.before op := by cases op <;> rfl

@[simp] theorem waiting_push : (level.push e op).waiting op = e :: level.waiting op := by cases op <;> rfl

@[simp] theorem beforeOperand_push : (level.push e op).beforeOperand op = level.push e op := by cases op <;> rfl

theorem negate_not (n : Nat) (e : Expr) : negate n (.not e) = .not (negate n e) := by
  induction n with
  | zero => rfl
  | succ n ih => exact congrArg Expr.not ih

end Level

/-- The reader takes the tokens as an operand of the operator, and keeps the operands before it. -/
def FollowsOperand (op : Op) (tokens : List Token) (e : Expr) : Prop :=
  ∀ (level : Level) (outer : List Level), ∃ level' last,
    (ReadState.before (level.beforeOperand op) outer).run tokens = .ok (.after level' outer last) ∧
      level'.beforeOperand op = level.beforeOperand op ∧ level'.lastOperand last op = e

/-- The reader takes the tokens as a phrase of the kind for the expression. -/
def Follows : Phrase → List Token → Expr → Prop
  | .chain op, tokens, e => ∀ (level : Level) (outer : List Level), ∃ level' last,
    (ReadState.before (level.before op) outer).run tokens = .ok (.after level' outer last) ∧
      level'.before op = level.before op ∧ level'.lastChain last op = e
  | .negation, tokens, e => ∀ (level : Level) (outer : List Level), ∃ negations,
    (ReadState.before level outer).run tokens =
      .ok (.after { level with negations := negations } outer (level.operand e))
  | .term, tokens, e => ∀ (level : Level) (outer : List Level),
    (ReadState.before level outer).run tokens = .ok (.after level outer (level.operand e))

theorem Follows.followsOperand (follows : Follows (.operand op) tokens e) : FollowsOperand op tokens e := by
  cases op with
  | or => exact follows
  | xor => exact follows
  | and =>
    intro level outer
    obtain ⟨negations, read⟩ := follows (level.beforeOperand .and) outer
    exact ⟨_, _, read, rfl, rfl⟩

theorem exists_run_operands {parts : List (List Token × Expr)} (nonempty : parts ≠ [])
    (follows : ∀ part ∈ parts, FollowsOperand op part.1 part.2) (level : Level) (outer : List Level) :
    ∃ level' last, (ReadState.before (level.beforeOperand op) outer).run (joined op (parts.map Prod.fst)) =
        .ok (.after level' outer last) ∧
      level'.before op = level.before op ∧
      level'.lastChain last op = ofOperands op ((level.waiting op).reverse ++ parts.map Prod.snd) := by
  -- The level holds the operands that have been read, and the induction is on those that are left.
  induction parts generalizing level with
  | nil => exact absurd rfl nonempty
  | cons part rest ih =>
    obtain ⟨followsPart, followsRest⟩ := List.forall_mem_cons.mp follows
    obtain ⟨level', last, read, sameBefore, operand⟩ := followsPart level outer
    cases rest with
    | nil =>
      refine ⟨level', last, ?_, ?_, ?_⟩
      · rw [List.map_singleton, joined_singleton]
        exact read
      · rw [← Level.before_beforeOperand, sameBefore, Level.before_beforeOperand]
      · rw [Level.lastChain, operand, Level.chain_eq, ← Level.waiting_beforeOperand, sameBefore,
          Level.waiting_beforeOperand]
        rfl
    | cons next rest =>
      obtain ⟨level'', last', readRest, sameRest, chain⟩ := ih nofun followsRest (level.push part.2 op)
      have pushed : level'.extend last op = (level.push part.2 op).beforeOperand op := by
        rw [Level.extend_eq_push, operand, ← Level.push_beforeOperand, sameBefore, Level.push_beforeOperand,
          Level.beforeOperand_push]
      have operatorRead : (ReadState.after level' outer last).step (.op op) =
          .ok (.before ((level.push part.2 op).beforeOperand op) outer) := by
        rw [← pushed]
        rfl
      refine ⟨level'', last', ?_, sameRest.trans Level.before_push, ?_⟩
      · rw [List.map_cons, List.map_cons, joined_cons_cons]
        exact ((ReadState.run_append_of_run read).trans (ReadState.run_cons_of_step operatorRead)).trans readRest
      · rw [chain, Level.waiting_push, List.reverse_cons, List.append_assoc]
        rfl

theorem Derives.follows {phrase : Phrase} (derives : Derives phrase tokens e) : Follows phrase tokens e := by
  induction derives with
  | chain op parts nonempty _ ih =>
    intro level outer
    have follows : ∀ part ∈ parts, FollowsOperand op part.1 part.2 :=
      fun part member => (ih part member).followsOperand
    have run := exists_run_operands nonempty follows (level.before op) outer
    simpa using run
  | not _ ih =>
    intro level outer
    obtain ⟨negations, read⟩ := ih { level with negations := level.negations + 1 } outer
    refine ⟨negations, (ReadState.run_cons_of_step rfl).trans ?_⟩
    rw [Level.operand, Level.negate_not]
    exact read
  | positive _ ih =>
    intro level outer
    exact ⟨level.negations, ih level outer⟩
  | name name => exact fun level outer => rfl
  | const value => exact fun level outer => rfl
  | parens _ ih =>
    intro level outer
    obtain ⟨level', last, read, _, whole⟩ := ih .empty (level :: outer)
    refine (ReadState.run_cons_of_step rfl).trans ((ReadState.run_append_of_run read).trans ?_)
    rw [← whole]
    rfl

/-- Reading the tokens gives an expression exactly when they derive it. -/
theorem run_eq_ok_iff_derives :
    (∃ final, ReadState.initial.run tokens = .ok final ∧ final.result = .ok e) ↔
      Derives (.chain .or) tokens e := by
  constructor
  · rintro ⟨final, read, result⟩
    exact (ReadState.reads_initial.run read).derives result
  · intro derives
    obtain ⟨level, last, read, _, whole⟩ := derives.follows .empty []
    exact ⟨_, read, congrArg Except.ok whole⟩

theorem Derives.unique {e' : Expr} (first : Derives (.chain .or) tokens e) (second : Derives (.chain .or) tokens e') :
    e = e' := by
  obtain ⟨final, read, result⟩ := run_eq_ok_iff_derives.mpr first
  obtain ⟨final', read', result'⟩ := run_eq_ok_iff_derives.mpr second
  obtain rfl := Except.ok.inj (read.symm.trans read')
  exact Except.ok.inj (result.symm.trans result')

/-! ## From the text to the expression -/

theorem readFrom_eq_ok_iff {lexemes : List Lexeme} {state final : ReadState} (stop : Nat) :
    (∃ stop', readFrom state stop lexemes = .ok (final, stop')) ↔
      state.run (lexemes.map Lexeme.token) = .ok final := by
  induction lexemes generalizing state stop with
  | nil => simp [readFrom, ReadState.run, pure, Except.pure]
  | cons lexeme rest ih =>
    rw [readFrom, List.map_cons]
    cases read : state.step lexeme.token with
    | error expected => simp [ReadState.run, read, bind, Except.bind]
    | ok next =>
      rw [ReadState.run_cons_of_step read]
      exact ih lexeme.stop

theorem ofLexing_eq_ok_iff {lexing : Lexing} :
    ofLexing lexing = .ok e ↔
      lexing.invalid? = none ∧ Derives (.chain .or) (lexing.lexemes.map Lexeme.token) e := by
  rw [← run_eq_ok_iff_derives]
  simp only [← readFrom_eq_ok_iff 0]
  unfold ofLexing
  cases read : readFrom .initial 0 lexing.lexemes with
  | error problem => simp
  | ok reached =>
    obtain ⟨state, stop⟩ := reached
    cases lexing.invalid? with
    | some position => simp
    | none => cases result : state.result <;> simp [result]

theorem parse_eq_ok_iff {text : List Char} :
    parse text = .ok e ↔ ∃ tokens, Splits text tokens ∧ Derives (.chain .or) tokens e := by
  have outcome : parse text = .ok e ↔ ofLexing (lex text) = .ok e := by
    unfold parse
    cases ofLexing (lex text) <;> simp [Except.mapError]
  rw [outcome, ofLexing_eq_ok_iff]
  constructor
  · rintro ⟨complete, derives⟩
    exact ⟨_, splits_iff_lex.mpr ⟨complete, rfl⟩, derives⟩
  · rintro ⟨tokens, splits, derives⟩
    obtain ⟨complete, rfl⟩ := splits_iff_lex.mp splits
    exact ⟨complete, derives⟩

/-- A text is read as an expression exactly when it splits into tokens that derive the
expression. It splits in one way at most, and no tokens derive two expressions. -/
theorem ofString_eq_ok_iff_derives :
    (∀ (text : String) (e : Expr),
      ofString text = .ok e ↔ ∃ tokens, Splits text.toList tokens ∧ Derives (.chain .or) tokens e) ∧
      (∀ (text : List Char) (tokens tokens' : List Token),
        Splits text tokens → Splits text tokens' → tokens = tokens') ∧
      ∀ (tokens : List Token) (e e' : Expr),
        Derives (.chain .or) tokens e → Derives (.chain .or) tokens e' → e = e' := by
  refine ⟨fun text e => parse_eq_ok_iff, ?_, fun tokens e e' => Derives.unique⟩
  intro text tokens tokens' splits splits'
  exact (splits_iff_lex.mp splits).2.symm.trans (splits_iff_lex.mp splits').2

theorem ofString_eq_ok_iff_derives_mixed :
    ∃ tokens, Splits "a*NOT(b_2 Xor 1)".toList tokens ∧
      Derives (.chain .or) tokens (.nary .and [.var "A", .not (.nary .xor [.var "B_2", .const true])]) ∧
      ∀ e, Derives (.chain .or) tokens e →
        e = .nary .and [.var "A", .not (.nary .xor [.var "B_2", .const true])] := by
  have read : ofString "a*NOT(b_2 Xor 1)" =
      .ok (.nary .and [.var "A", .not (.nary .xor [.var "B_2", .const true])]) := by decide
  obtain ⟨tokens, splits, derives⟩ := (ofString_eq_ok_iff_derives.1 _ _).mp read
  exact ⟨tokens, splits, derives, fun e other => ofString_eq_ok_iff_derives.2.2 tokens e _ other derives⟩

end TwoLevel.Expr
