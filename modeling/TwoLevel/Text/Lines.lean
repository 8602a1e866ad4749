/-! Lines of bytes. A line ends with a line feed, which may have one carriage return
before it; the end of the input ends the last line. A line is a text if its bytes are
valid UTF-8. -/

set_option autoImplicit false

namespace TwoLevel.Text

/-- The lines of the input, where the bytes before it belong to the first line, the latest
first. -/
def linesFrom (before : List UInt8) : List UInt8 → List (List UInt8)
  | [] => if before.isEmpty then [] else [before.reverse]
  | byte :: rest =>
    if byte = 10 then
      let line := if before.head? = some 13 then before.tail else before
      line.reverse :: linesFrom [] rest
    else linesFrom (byte :: before) rest

def lines (input : List UInt8) : List (List UInt8) := linesFrom [] input

/-- The lines of the input with the line feeds that end them, where the bytes before it belong
to the first line, the latest first. -/
def rawLinesFrom (before : List UInt8) : List UInt8 → List (List UInt8)
  | [] => if before.isEmpty then [] else [before.reverse]
  | byte :: rest =>
    if byte = 10 then (byte :: before).reverse :: rawLinesFrom [] rest else rawLinesFrom (byte :: before) rest

/-- The lines of the input as they are taken from it one by one, each with the line feed that
ends it. -/
def rawLines (input : List UInt8) : List (List UInt8) := rawLinesFrom [] input

def decode? (bytes : List UInt8) : Option (List Char) :=
  (String.fromUTF8? ⟨bytes.toArray⟩).map String.toList

end TwoLevel.Text
