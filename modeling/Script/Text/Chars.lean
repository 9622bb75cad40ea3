/-
# Characters that readers tell apart
-/

namespace Script.Text

/-- A decimal digit. -/
def isDigit (c : Char) : Bool := '0' ≤ c && c ≤ '9'

/-- A character that a word may start with. -/
def isLetter (c : Char) : Bool := ('a' ≤ c && c ≤ 'z') || ('A' ≤ c && c ≤ 'Z') || c == '_'

/-- A character that a word may go on with. -/
def isWordChar (c : Char) : Bool := isLetter c || isDigit c

/-- A character between words: a space, carriage return, tab or line feed. -/
def isBlank (c : Char) : Bool := c == ' ' || c == '\r' || c == '\t' || c == '\n'

/-- The natural number that a run of digits spells. -/
def digitsValue (digits : List Char) : Nat :=
  digits.foldl (fun n d => 10 * n + (d.toNat - '0'.toNat)) 0

end Script.Text
