/-
# Reading data

The text of a document is JSON, with three additions: the words `NaN`, `Infinity` and
`-Infinity` are numbers.  A number without fraction and exponent is an integer, any other one
the nearest double.  Of two fields of one name the later one counts.
-/
import Script.Text.Chars
import Script.Datum

namespace Script.Datum

/-- Why a text is no datum. -/
inductive ReadError where
  | malformed
  /-- An integer has more digits than are read. -/
  | tooManyDigits (count : Nat)
  deriving DecidableEq, Repr

/-- The most digits that an integer may have. -/
def mostDigits : Nat := 4300

/-- The wording of an error. -/
def ReadError.message : ReadError → String
  | .malformed => "malformed document"
  | .tooManyDigits count =>
    "Exceeds the limit (" ++ Decimal.ofInt mostDigits ++ " digits) for integer string " ++
      "conversion: value has " ++ Decimal.ofInt count ++
      " digits; use sys.set_int_max_str_digits() to increase the limit"

/-- A reader takes what it reads off the front of a text. -/
abbrev Reader (α : Type) := List Char → Except ReadError (α × List Char)

/-! ## 1. Blanks, strings, numbers -/

/-- What follows the blanks in front. -/
def skipBlanks (cs : List Char) : List Char := cs.dropWhile Text.isBlank

/-- The value of a hexadecimal digit. -/
def hexValue? (c : Char) : Option Nat :=
  if '0' ≤ c && c ≤ '9' then some (c.toNat - '0'.toNat)
  else if 'a' ≤ c && c ≤ 'f' then some (c.toNat - 'a'.toNat + 10)
  else if 'A' ≤ c && c ≤ 'F' then some (c.toNat - 'A'.toNat + 10)
  else none

/-- Four hexadecimal digits. -/
def unit? : List Char → Option (Nat × List Char)
  | a :: b :: c :: d :: rest => do
    let a ← hexValue? a
    let b ← hexValue? b
    let c ← hexValue? c
    let d ← hexValue? d
    return (((a * 16 + b) * 16 + c) * 16 + d, rest)
  | _ => none

/-- The second half of a pair of units. -/
def lowUnit? : List Char → Option (Nat × List Char)
  | '\\' :: 'u' :: rest => do
    let (unit, rest) ← unit? rest
    if 0xdc00 ≤ unit && unit ≤ 0xdfff then some (unit, rest) else none
  | _ => none

/-- A code point; a unit that is half a pair and stands alone is no character. -/
def charOf (n : Nat) : Char := if n.isValidChar then Char.ofNat n else '�'

/-- The character that an escape stands for. -/
def escape? : List Char → Option (Char × List Char)
  | '"' :: rest => some ('"', rest)
  | '\\' :: rest => some ('\\', rest)
  | '/' :: rest => some ('/', rest)
  | 'b' :: rest => some ('\x08', rest)
  | 'f' :: rest => some ('\x0c', rest)
  | 'n' :: rest => some ('\n', rest)
  | 'r' :: rest => some ('\r', rest)
  | 't' :: rest => some ('\t', rest)
  | 'u' :: rest => do
    let (unit, rest) ← unit? rest
    if 0xd800 ≤ unit && unit ≤ 0xdbff then
      match lowUnit? rest with
      | some (low, rest) => some (charOf (0x10000 + (unit - 0xd800) * 0x400 + (low - 0xdc00)), rest)
      | none => some (charOf unit, rest)
    else some (charOf unit, rest)
  | _ => none

/-- The rest of a string after `before`, which is given last character first; `n` bounds the
characters to read. -/
def readString : (n : Nat) → (before : List Char) → Reader String
  | _, before, '"' :: rest => .ok (String.ofList before.reverse, rest)
  | n + 1, before, '\\' :: rest =>
    match escape? rest with
    | some (c, rest) => readString n (c :: before) rest
    | none => .error .malformed
  | n + 1, before, c :: rest =>
    if c < ' ' then .error .malformed else readString n (c :: before) rest
  | _, _, _ => .error .malformed

/-- The digits of a whole number: a zero stands alone. -/
def readWhole : Reader (List Char)
  | '0' :: rest => .ok (['0'], rest)
  | cs =>
    match cs.takeWhile Text.isDigit with
    | [] => .error .malformed
    | digits => .ok (digits, cs.dropWhile Text.isDigit)

/-- The digits after a point, if a digit follows it. -/
def readFraction : List Char → Option (List Char) × List Char
  | '.' :: rest =>
    match rest.takeWhile Text.isDigit with
    | [] => (none, '.' :: rest)
    | digits => (some digits, rest.dropWhile Text.isDigit)
  | rest => (none, rest)

/-- The sign in front of an exponent. -/
def readSign : List Char → Bool × List Char
  | '-' :: rest => (true, rest)
  | '+' :: rest => (false, rest)
  | rest => (false, rest)

/-- The power of ten, if there is a whole one. -/
def readExponent (cs : List Char) : Option Int × List Char :=
  match cs with
  | e :: rest =>
    if e == 'e' || e == 'E' then
      let (negative, after) := readSign rest
      match after.takeWhile Text.isDigit with
      | [] => (none, cs)
      | digits =>
        let power : Int := Text.digitsValue digits
        (some (if negative then -power else power), after.dropWhile Text.isDigit)
    else (none, cs)
  | [] => (none, cs)

/-- A number without its sign. -/
def readMagnitude (negative : Bool) : Reader Datum := fun cs => do
  let (whole, rest) ← readWhole cs
  let (fraction, rest) := readFraction rest
  let (power, rest) := readExponent rest
  match fraction, power with
  | none, none =>
    if mostDigits < whole.length then .error (.tooManyDigits whole.length)
    else
      let n : Int := Text.digitsValue whole
      return (.int (if negative then -n else n), rest)
  | _, _ =>
    let fraction := fraction.getD []
    let x := Decimal.toFloat (Text.digitsValue (whole ++ fraction))
      (power.getD 0 - (fraction.length : Int))
    return (.num (if negative then -x else x), rest)

/-- The double beyond all others. -/
def infinity : Float := 1.0 / 0.0

/-- A word or a number. -/
def readAtom : Reader Datum
  | 'n' :: 'u' :: 'l' :: 'l' :: rest => .ok (.null, rest)
  | 't' :: 'r' :: 'u' :: 'e' :: rest => .ok (.bool true, rest)
  | 'f' :: 'a' :: 'l' :: 's' :: 'e' :: rest => .ok (.bool false, rest)
  | 'N' :: 'a' :: 'N' :: rest => .ok (.num (0.0 / 0.0), rest)
  | 'I' :: 'n' :: 'f' :: 'i' :: 'n' :: 'i' :: 't' :: 'y' :: rest => .ok (.num infinity, rest)
  | '-' :: 'I' :: 'n' :: 'f' :: 'i' :: 'n' :: 'i' :: 't' :: 'y' :: rest =>
    .ok (.num (-infinity), rest)
  | '-' :: rest => readMagnitude true rest
  | cs => readMagnitude false cs

/-! ## 2. Lists and objects -/

mutual

/-- A datum; `n` bounds the nesting of calls. -/
def readDatum : (n : Nat) → Reader Datum
  | 0, _ => .error .malformed
  | _ + 1, '"' :: rest => do
    let (s, rest) ← readString rest.length [] rest
    return (.str s, rest)
  | n + 1, '[' :: rest =>
    match skipBlanks rest with
    | ']' :: rest => .ok (.list [], rest)
    | rest => do
      let (items, rest) ← readItems n rest
      return (.list items, rest)
  | n + 1, '{' :: rest =>
    match skipBlanks rest with
    | '}' :: rest => .ok (.obj [], rest)
    | rest => do
      let (fields, rest) ← readFields n [] rest
      return (.obj fields, rest)
  | _, cs => readAtom cs

/-- The items of a list up to its end. -/
def readItems : (n : Nat) → Reader (List Datum)
  | 0, _ => .error .malformed
  | n + 1, cs => do
    let (d, rest) ← readDatum n cs
    match skipBlanks rest with
    | ',' :: rest =>
      let (ds, rest) ← readItems n (skipBlanks rest)
      return (d :: ds, rest)
    | ']' :: rest => return ([d], rest)
    | _ => .error .malformed

/-- The fields of an object up to its end, added to those before them. -/
def readFields : (n : Nat) → List (String × Datum) → Reader (List (String × Datum))
  | n + 1, before, '"' :: rest => do
    let (name, rest) ← readString rest.length [] rest
    match skipBlanks rest with
    | ':' :: rest =>
      let (d, rest) ← readDatum n (skipBlanks rest)
      match skipBlanks rest with
      | ',' :: rest => readFields n (setField name d before) (skipBlanks rest)
      | '}' :: rest => return (setField name d before, rest)
      | _ => .error .malformed
    | _ => .error .malformed
  | _, _, _ => .error .malformed

end

/-- The datum that a text spells, or the first thing that is wrong with it. -/
def ofText (s : String) : Except ReadError Datum := do
  let cs := s.toList
  let (d, rest) ← readDatum (2 * cs.length + 2) (skipBlanks cs)
  if (skipBlanks rest).isEmpty then return d else .error .malformed

end Script.Datum
