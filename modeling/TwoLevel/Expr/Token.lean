import TwoLevel.Text.Blank
import TwoLevel.Text.Word
import TwoLevel.Expr.Basic

/-! Tokens of the expression language, and cutting a text into them. White space may
stand between tokens. At each place the longest possible token is taken, and of a
keyword and a name of the same length the keyword. Keywords may be written in either
case, where the long s counts as an s, and names are folded to upper case. -/

set_option autoImplicit false

namespace TwoLevel.Expr

open Text

inductive Token where
  | opening
  | closing
  | not
  | op (op : Op)
  | const (value : Bool)
  | name (name : String)
  deriving DecidableEq, Repr

namespace Token

def signs : List (List Char × Token) := [
  (['('], opening), ([')'], closing), (['!'], not), (['*'], op .and), (['+'], op .or),
  ([':', '+', ':'], op .xor), (['0'], const false), (['1'], const true)]

def keywords : List (List Char × Token) := [
  (['A', 'N', 'D'], op .and), (['O', 'R'], op .or), (['X', 'O', 'R'], op .xor), (['N', 'O', 'T'], not),
  (['T', 'R', 'U', 'E'], const true), (['F', 'A', 'L', 'S', 'E'], const false)]

/-- Fold a letter of a keyword: ASCII letters to upper case, and the long s to S. -/
def foldLetter (c : Char) : Char := if c = '\u017f' then 'S' else c.toUpper

/-- The text begins with the given spelling of a keyword, up to case. -/
def startsWith : List Char → List Char → Bool
  | [], _ => true
  | _ :: _, [] => false
  | k :: spelling, c :: text => k == foldLetter c && startsWith spelling text

/-- A character that a name may contain after its first letter. -/
def isNameChar (c : Char) : Bool := c.isAlphanum || c = '_'

/-- The longest name at the start of the text, or nothing if the text starts with no letter. -/
def leadingName : List Char → List Char
  | [] => []
  | c :: rest => if c.isAlpha then c :: rest.takeWhile isNameChar else []

/-- The token at the start of a text, and the number of characters that it takes. -/
def leading? (text : List Char) : Option (Token × Nat) :=
  match signs.find? fun sign => sign.1.isPrefixOf text with
  | some (spelling, token) => some (token, spelling.length)
  | none =>
    let word := leadingName text
    match keywords.find? fun keyword => startsWith keyword.1 text with
    | some (spelling, token) =>
      if word.length ≤ spelling.length then some (token, spelling.length)
      else some (name (String.ofList (upper word)), word.length)
    | none => if word.isEmpty then none else some (name (String.ofList (upper word)), word.length)

end Token

/-- A token where it stands: its text, and the byte offset of its first character. -/
structure Lexeme where
  token : Token
  text : List Char
  start : Nat
  deriving DecidableEq, Repr

def byteLength : List Char → Nat
  | [] => 0
  | c :: rest => c.utf8Size + byteLength rest

def Lexeme.stop (lexeme : Lexeme) : Nat := lexeme.start + byteLength lexeme.text

/-- A text cut into tokens, up to its end or to the first place where no token starts. -/
structure Lexing where
  lexemes : List Lexeme
  /-- The byte offset at which no token starts. -/
  invalid? : Option Nat
  deriving DecidableEq, Repr

/-- Cut a text into tokens, where `position` is its byte offset and its first `skip`
characters belong to the token before it. -/
def lexFrom : (position skip : Nat) → List Char → Lexing
  | _, _, [] => ⟨[], none⟩
  | position, skip + 1, c :: rest => lexFrom (position + c.utf8Size) skip rest
  | position, 0, c :: rest =>
    if isBlank c then lexFrom (position + c.utf8Size) 0 rest
    else
      match Token.leading? (c :: rest) with
      | none => ⟨[], some position⟩
      | some (token, size) =>
        let following := lexFrom (position + c.utf8Size) (size - 1) rest
        { following with lexemes := ⟨token, (c :: rest).take size, position⟩ :: following.lexemes }

def lex (text : List Char) : Lexing := lexFrom 0 0 text

end TwoLevel.Expr
