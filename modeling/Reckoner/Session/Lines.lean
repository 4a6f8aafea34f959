/-! # Lines of bytes

A session reads bytes and works on lines. A line ends before a newline or at the end of the input;
a carriage return directly before the newline belongs to the end of the line. An input that ends
with a newline has no further line after it.
-/

namespace Reckoner

namespace Lines

def newline : UInt8 := 0x0A

def carriageReturn : UInt8 := 0x0D

/-- The lines of an input, each without its line end. -/
def ofBytes : List UInt8 → List (List UInt8)
  | [] => []
  | byte :: bytes =>
    if byte = newline then [] :: ofBytes bytes
    else if byte = carriageReturn && bytes.head? = some newline then ofBytes bytes
    else
      match ofBytes bytes with
      | [] => [[byte]]
      | line :: lines => (byte :: line) :: lines

/-- The text of a line, unless its bytes are not UTF-8. -/
def decode? (line : List UInt8) : Option String :=
  String.fromUTF8? ⟨line.toArray⟩

end Lines

end Reckoner
