import TwoLevel.Text.Printable

/-! Quoted text: double quotes around it, a backslash before a quote or a backslash,
`\n`, `\r`, `\t` and `\0` for four controls, and the code point in hexadecimal digits
for every other character that is not printable. -/

set_option autoImplicit false

namespace TwoLevel.Text

/-- A code point as `\u` and its hexadecimal digits in braces. -/
def escapedCode (c : Char) : List Char :=
  ['\\', 'u', '\x7b'] ++ Nat.toDigits 16 c.toNat ++ ['\x7d']

def escaped (c : Char) : List Char :=
  if c = '"' then ['\\', '"']
  else if c = '\\' then ['\\', '\\']
  else if c = '\n' then ['\\', 'n']
  else if c = '\r' then ['\\', 'r']
  else if c = '\t' then ['\\', 't']
  else if c = '\x00' then ['\\', '0']
  else if isPrintable c then [c]
  else escapedCode c

def quoted (text : List Char) : List Char := ['"'] ++ text.flatMap escaped ++ ['"']

end TwoLevel.Text
