/-
# Number text

A `Layout` fixes how chosen digits are written: which numbers are positional, how an exponent
looks, what stands for the values that are no numbers.  `Layout.plain` is the text of messages,
`Layout.document` that of documents, and `display` the text a program sees.
-/
import Script.Decimal.Shortest

namespace Script.Decimal

/-- The decisions of a number format. -/
structure Layout where
  /-- Leading powers of ten from this one are written positionally ... -/
  positionalFrom : Int
  /-- ... up to but not including this one. -/
  positionalBelow : Int
  infinity : String
  nan : String

namespace Layout

/-- Numbers between `0.0001` and `10 ^ 16` are positional. -/
def plain : Layout := ⟨-4, 16, "inf", "nan"⟩

/-- Documents spell out the values that are no numbers. -/
def document : Layout := ⟨-4, 16, "Infinity", "NaN"⟩

/-- A run of zeros. -/
def zeros (n : Nat) : List Char := List.replicate n '0'

/-- The digits with a point in them; at least one digit follows the point. -/
def positional (digits : List Char) (top : Int) : List Char :=
  if top < 0 then '0' :: '.' :: zeros (-top - 1).toNat ++ digits
  else
    let lead := top.toNat + 1
    if digits.length ≤ lead then digits ++ zeros (lead - digits.length) ++ ['.', '0']
    else digits.take lead ++ '.' :: digits.drop lead

/-- An exponent has a sign and two digits at least. -/
def exponentText (top : Int) : List Char :=
  let sign := if top < 0 then '-' else '+'
  let digits := Nat.toDigits 10 top.natAbs
  'e' :: sign :: (if digits.length < 2 then '0' :: digits else digits)

/-- One digit before the point, and no point after a lone digit. -/
def scientific (digits : List Char) (top : Int) : List Char :=
  match digits with
  | [] => []
  | [d] => d :: exponentText top
  | d :: more => d :: '.' :: more ++ exponentText top

/-- Digits without the zeros at their end. -/
def trimZeros (digits : List Char) : List Char := (digits.reverse.dropWhile (· == '0')).reverse

/-- The text of a positive decimal. -/
def magnitude (l : Layout) (d : Digits) : List Char :=
  let digits := Nat.toDigits 10 d.coefficient
  let top := d.exponent + digits.length - 1
  let digits := trimZeros digits
  if l.positionalFrom ≤ top && top < l.positionalBelow then positional digits top
  else scientific digits top

/-- A minus sign where one is due. -/
def signed (negative : Bool) (text : String) : String := if negative then "-" ++ text else text

/-- The text of a double. -/
def render (l : Layout) (x : Float) : String :=
  match Double.ofFloat x with
  | .nan => l.nan
  | .infinite negative => signed negative l.infinity
  | .finite negative 0 _ => signed negative "0.0"
  | .finite negative mantissa exponent =>
    signed negative (String.ofList (l.magnitude (shortest mantissa exponent)))

end Layout

/-- The text of an integer. -/
def ofInt (i : Int) : String := Layout.signed (i < 0) (String.ofList (Nat.toDigits 10 i.natAbs))

/-- The text of a number in the language: a whole number has all its digits and no point, so that
`2.0` is shown as `2`; any other number is shown as it is read. -/
def display (x : Float) : String :=
  match (Double.ofFloat x).whole? with
  | some (negative, magnitude) =>
    Layout.signed negative (String.ofList (Nat.toDigits 10 magnitude))
  | none => Layout.plain.render x

end Script.Decimal
