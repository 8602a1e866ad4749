/-! Reading unsigned decimal numbers of 64 bits, which may have one leading plus sign and
leading zeros. -/

set_option autoImplicit false

namespace TwoLevel.Text

/-- Numbers of 64 bits lie below this limit. -/
def wordLimit : Nat := 1 <<< 64

def digitsValue (digits : List Char) : Nat :=
  digits.foldl (fun value c => 10 * value + (c.toNat - 48)) 0

/-- The digits that are left when one leading plus sign is taken away. -/
def dropPlus : List Char → List Char
  | '+' :: rest => rest
  | text => text

/-- Read a number below `wordLimit`: an optional plus sign and at least one digit. -/
def readNumber? (text : List Char) : Option Nat :=
  let digits := dropPlus text
  if digits ≠ [] ∧ digits.all Char.isDigit ∧ digitsValue digits < wordLimit then
    some (digitsValue digits)
  else none

end TwoLevel.Text
