/-
# Data

The data that documents are made of.  Integers and doubles are told apart, since a token keeps
the one it was given; an object keeps its fields in order, each name once.
-/
import Script.Decimal.Layout
import Script.Text.Quoted

namespace Script

/-- A piece of document data. -/
inductive Datum where
  | null
  | bool (b : Bool)
  | int (i : Int)
  | num (x : Float)
  | str (s : String)
  | list (items : List Datum)
  | obj (fields : List (String × Datum))
  deriving Inhabited

namespace Datum

/-! ## 1. Fields -/

/-- The field of a name. -/
def field? (name : String) : List (String × Datum) → Option Datum
  | [] => none
  | (n, d) :: rest => if n = name then some d else field? name rest

/-- Sets a field: a new name comes last, a known one keeps its place. -/
def setField (name : String) (d : Datum) : List (String × Datum) → List (String × Datum)
  | [] => [(name, d)]
  | (n, old) :: rest => if n = name then (n, d) :: rest else (n, old) :: setField name d rest

/-! ## 2. Text -/

/-- The words messages use for the kinds of data. -/
def typeName : Datum → String
  | .null => "NoneType"
  | .bool _ => "bool"
  | .int _ => "int"
  | .num _ => "float"
  | .str _ => "str"
  | .list _ => "list"
  | .obj _ => "dict"

mutual

/-- The text of a datum inside a message, with quotes around strings. -/
def inspect : Datum → String
  | .null => "None"
  | .bool true => "True"
  | .bool false => "False"
  | .int i => Decimal.ofInt i
  | .num x => Decimal.Layout.plain.render x
  | .str s => Text.quoted s
  | .list items => "[" ++ ", ".intercalate (inspectAll items) ++ "]"
  | .obj fields => "\x7b" ++ ", ".intercalate (inspectFields fields) ++ "\x7d"

/-- `inspect` of each item. -/
def inspectAll : List Datum → List String
  | [] => []
  | d :: rest => inspect d :: inspectAll rest

/-- Each field as `name: datum`. -/
def inspectFields : List (String × Datum) → List String
  | [] => []
  | (name, d) :: rest => (Text.quoted name ++ ": " ++ inspect d) :: inspectFields rest

end

/-- The text of a datum that stands in a message by itself: a string has no quotes. -/
def text : Datum → String
  | .str s => s
  | d => d.inspect

/-- The text of a datum as the language shows it. -/
def display : Datum → String
  | .null => "null"
  | .bool true => "true"
  | .bool false => "false"
  | .num x => Decimal.display x
  | d => d.text

/-! ## 3. Equality -/

/-- Whether two doubles are equal as parts of data: by value, and what is no number equals
itself. -/
def sameNumber (x y : Float) : Bool := x == y || (x.isNaN && y.isNaN)

/-- Whether an integer equals a double exactly. -/
def intEqFloat (i : Int) (x : Float) : Bool := (Double.ofFloat x).toInt? == some i

/-- A truth value counts as an integer when data are compared. -/
def ofBool (b : Bool) : Int := if b then 1 else 0

mutual

/-- Whether two data are equal: numbers by value, objects without regard to order. -/
def same : Datum → Datum → Bool
  | .null, .null => true
  | .bool a, .bool b => a == b
  | .bool a, .int j => ofBool a == j
  | .int i, .bool b => i == ofBool b
  | .bool a, .num y => intEqFloat (ofBool a) y
  | .num x, .bool b => intEqFloat (ofBool b) x
  | .int i, .int j => i == j
  | .int i, .num y => intEqFloat i y
  | .num x, .int j => intEqFloat j x
  | .num x, .num y => sameNumber x y
  | .str a, .str b => a == b
  | .list as, .list bs => sameAll as bs
  | .obj as, .obj bs => as.length == bs.length && sameFields as bs
  | _, _ => false

/-- Item by item. -/
def sameAll : List Datum → List Datum → Bool
  | [], [] => true
  | a :: as, b :: bs => same a b && sameAll as bs
  | _, _ => false

/-- Every field on the left has an equal one on the right. -/
def sameFields : List (String × Datum) → List (String × Datum) → Bool
  | [], _ => true
  | (name, a) :: as, bs =>
    match field? name bs with
    | some b => same a b && sameFields as bs
    | none => false

end

end Datum

end Script
