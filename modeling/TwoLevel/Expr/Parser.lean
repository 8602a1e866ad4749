import TwoLevel.Expr.SyntaxError

/-! Reading an expression from its tokens, one token at a time. OR binds loosest, then
XOR, AND and NOT. A chain of one operator becomes one node with all its operands, and
a text in parentheses is a node of its own. The reader keeps one level for each open
parenthesis, and every token either extends the innermost level or is refused at once,
so the tokens read so far can always be continued to a whole expression. -/

set_option autoImplicit false

namespace TwoLevel.Expr

/-- The operands of the chains that are open inside one pair of parentheses, the latest
first, and the number of negations that wait for an operand. -/
structure Level where
  ors : List Expr
  xors : List Expr
  ands : List Expr
  negations : Nat
  deriving DecidableEq, Repr

namespace Level

def empty : Level := ⟨[], [], [], 0⟩

/-- The chain of the operands `earlier`, the latest first, and of a last one. -/
def chain (op : Op) (earlier : List Expr) (last : Expr) : Expr :=
  if earlier.isEmpty then last else .nary op (earlier.reverse ++ [last])

def negate : Nat → Expr → Expr
  | 0, e => e
  | n + 1, e => .not (negate n e)

/-- The operand that the negations of the level and an expression make together. -/
def operand (level : Level) (e : Expr) : Expr := negate level.negations e

def andChain (level : Level) (last : Expr) : Expr := chain .and level.ands last

def xorChain (level : Level) (last : Expr) : Expr := chain .xor level.xors (level.andChain last)

/-- The whole expression of the level, which ends with an operand. -/
def finish (level : Level) (last : Expr) : Expr := chain .or level.ors (level.xorChain last)

/-- Go on with an operator after an operand, closing the chains that bind tighter. -/
def extend (level : Level) (last : Expr) : Op → Level
  | .and => ⟨level.ors, level.xors, last :: level.ands, 0⟩
  | .xor => ⟨level.ors, level.andChain last :: level.xors, [], 0⟩
  | .or => ⟨level.xorChain last :: level.ors, [], [], 0⟩

end Level

/-- What has been read: the innermost level, the levels around it, and the last operand
if one has just been completed. -/
inductive ReadState where
  | before (level : Level) (outer : List Level)
  | after (level : Level) (outer : List Level) (last : Expr)
  deriving DecidableEq, Repr

namespace ReadState

def initial : ReadState := before .empty []

/-- Read one token, or tell what was expected in its place. -/
def step : ReadState → Token → Except Expected ReadState
  | before level outer, .not => .ok (before { level with negations := level.negations + 1 } outer)
  | before level outer, .const value => .ok (after level outer (level.operand (.const value)))
  | before level outer, .name name => .ok (after level outer (level.operand (.var name)))
  | before level outer, .opening => .ok (before .empty (level :: outer))
  | before _ _, .closing | before _ _, .op _ => .error .operand
  | after level outer last, .op op => .ok (before (level.extend last op) outer)
  | after level (around :: outer) last, .closing =>
    .ok (after around outer (around.operand (level.finish last)))
  | after _ [] _, .closing => .error .nothing
  | after _ outer _, .not | after _ outer _, .const _ | after _ outer _, .name _ | after _ outer _, .opening =>
    .error (.operator !outer.isEmpty)

/-- The expression that has been read, or what is missing at the end. -/
def result : ReadState → Except Expected Expr
  | before _ _ => .error .operand
  | after level [] last => .ok (level.finish last)
  | after _ (_ :: _) _ => .error .closing

end ReadState

/-- Read tokens from a state on, up to the first that is refused. `stop` is the end of
the last token read. -/
def readFrom (state : ReadState) (stop : Nat) : List Lexeme → Except Problem (ReadState × Nat)
  | [] => .ok (state, stop)
  | lexeme :: rest =>
    match state.step lexeme.token with
    | .error expected => .error (.unexpectedToken lexeme expected)
    | .ok next => readFrom next lexeme.stop rest

/-- The expression that a text cut into tokens stands for, or the first problem. -/
def ofLexing (lexing : Lexing) : Except Problem Expr :=
  match readFrom .initial 0 lexing.lexemes with
  | .error problem => .error problem
  | .ok (state, stop) =>
    match lexing.invalid? with
    | some position => .error (.invalidToken position)
    | none =>
      match state.result with
      | .error expected => .error (.unexpectedEnd stop expected)
      | .ok e => .ok e

def parse (text : List Char) : Except SyntaxError Expr :=
  (ofLexing (lex text)).mapError fun problem => ⟨text, problem⟩

def ofString (text : String) : Except SyntaxError Expr := parse text.toList

end TwoLevel.Expr
