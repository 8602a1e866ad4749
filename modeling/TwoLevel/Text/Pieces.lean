/-! Cutting a text at every occurrence of a separator. -/

set_option autoImplicit false

namespace TwoLevel.Text

/-- The pieces between the separators, in order. There is one piece more than there are
separators. -/
def pieces (sep : Char) : List Char → List (List Char)
  | [] => [[]]
  | c :: rest =>
    if c = sep then [] :: pieces sep rest
    else
      match pieces sep rest with
      | [] => [[c]]
      | piece :: more => (c :: piece) :: more

/-- The text without its last character, if that is the given one. -/
def dropLast? (last : Char) (text : List Char) : Option (List Char) :=
  if text.getLast? = some last then some text.dropLast else none

end TwoLevel.Text
