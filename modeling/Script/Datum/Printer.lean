/-
# Writing data

The text of a document: one item or field on a line, each level two blanks deeper, fields in
their order.  Only quotes, backslashes and control characters are escaped.
-/
import Script.Datum

namespace Script.Datum

/-- One character of a string. -/
def escapeChar (c : Char) : List Char :=
  if c = '"' then ['\\', '"']
  else if c = '\\' then ['\\', '\\']
  else if c = '\n' then ['\\', 'n']
  else if c = '\r' then ['\\', 'r']
  else if c = '\t' then ['\\', 't']
  else if c = '\x0c' then ['\\', 'f']
  else if c = '\x08' then ['\\', 'b']
  else if c.toNat < 0x20 then '\\' :: 'u' :: Text.hexDigits 4 c.toNat
  else [c]

/-- A string between quotes. -/
def writeString (s : String) : String :=
  String.ofList ('"' :: s.toList.flatMap escapeChar ++ ['"'])

/-- A line end and the blanks of a level. -/
def newLine (level : Nat) : String := String.ofList ('\n' :: List.replicate (2 * level) ' ')

mutual

/-- The text of a datum that stands at a level. -/
def write (level : Nat) : Datum → String
  | .null => "null"
  | .bool true => "true"
  | .bool false => "false"
  | .int i => Decimal.ofInt i
  | .num x => Decimal.Layout.document.render x
  | .str s => writeString s
  | .list [] => "[]"
  | .list items =>
    "[" ++ ",".intercalate (writeItems (level + 1) items) ++ newLine level ++ "]"
  | .obj [] => "\x7b\x7d"
  | .obj fields =>
    "\x7b" ++ ",".intercalate (writeFields (level + 1) fields) ++ newLine level ++ "\x7d"

/-- Each item on a line. -/
def writeItems (level : Nat) : List Datum → List String
  | [] => []
  | d :: rest => (newLine level ++ write level d) :: writeItems level rest

/-- Each field on a line. -/
def writeFields (level : Nat) : List (String × Datum) → List String
  | [] => []
  | (name, d) :: rest =>
    (newLine level ++ writeString name ++ ": " ++ write level d) :: writeFields level rest

end

/-- The text of a document. -/
def toText (d : Datum) : String := d.write 0

end Script.Datum
