/-
# Lines of a text

A text file may end its lines with a carriage return, a line feed or both; reading it makes each
of these one line feed.
-/

namespace Script.Text

/-- Every line end becomes one line feed. -/
def unifyLineEnds : List Char → List Char
  | '\r' :: '\n' :: rest => '\n' :: unifyLineEnds rest
  | '\r' :: rest => '\n' :: unifyLineEnds rest
  | c :: rest => c :: unifyLineEnds rest
  | [] => []

/-- The content of a text file whose bytes are valid UTF-8. -/
def ofBytes? (bytes : ByteArray) : Option String :=
  (String.fromUTF8? bytes).map fun s => String.ofList (unifyLineEnds s.toList)

/-- The lines of what follows `line`, which is the line in progress, last character first. -/
def linesFrom : (line : List Char) → List Char → List String
  | [], [] => []
  | line, [] => [String.ofList line.reverse]
  | line, '\n' :: rest => String.ofList line.reverse :: linesFrom [] rest
  | line, c :: rest => linesFrom (c :: line) rest

/-- The lines of a text; a line feed at its very end opens no further line. -/
def linesOf (s : String) : List String := linesFrom [] s.toList

end Script.Text
