/-! Lists written on one line: items with a comma and a space between them, in square
brackets. -/

set_option autoImplicit false

namespace TwoLevel.Text

def commaSeparated (items : List String) : String := ", ".intercalate items

def bracketed (items : List String) : String := "[" ++ commaSeparated items ++ "]"

def bracketedNumbers (numbers : List Nat) : String := bracketed (numbers.map toString)

end TwoLevel.Text
