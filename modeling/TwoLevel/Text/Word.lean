/-! ASCII words: the letters and digits that names are made of, folding to upper
case, and comparison that ignores the case of ASCII letters. No other character
counts as a letter here, and none is changed by folding. -/

set_option autoImplicit false

namespace TwoLevel.Text

def upper (text : List Char) : List Char := text.map Char.toUpper

@[simp] theorem upper_cons (c : Char) (text : List Char) : upper (c :: text) = c.toUpper :: upper text := rfl

/-- The two texts differ at most in the case of ASCII letters. -/
def sameWord (first second : List Char) : Bool := upper first == upper second

/-- A letter followed by letters and digits, all ASCII. -/
def isName : List Char → Bool
  | [] => false
  | c :: rest => c.isAlpha && rest.all Char.isAlphanum

end TwoLevel.Text
