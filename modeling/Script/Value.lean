/-
# Values

What expressions evaluate to: null, truth values, numbers, strings and functions.  A document can
also bring in other things as literals, and values know what to say about those too.
-/
import Script.Document

namespace Script

/-- A value of a run.  Functions have an identity: two are equal only if they are the same one. -/
inductive Value where
  | null
  | bool (b : Bool)
  | num (x : Float)
  | str (s : String)
  /-- A function of the program. -/
  | function (identity : Nat) (name : Token) (params body : Tree)
  /-- A function that the library provides; it gives a fixed answer, or else reads the clock. -/
  | native (identity : Nat) (name : String) (arity : Int) (answer : Option Value)
  /-- Something callable that has no arity and nothing to call. -/
  | bare (identity : Nat)
  /-- An integer that is no number of the language. -/
  | int (i : Int)
  /-- A sequence, token or node. -/
  | tree (t : Tree)
  deriving Inhabited

namespace Value

/-- The value of a literal. -/
def ofTree : Tree → Value
  | .null => .null
  | .bool b => .bool b
  | .int i => .int i
  | .num x => .num x
  | .str s => .str s
  | t => .tree t

/-- A value as a literal holds it; of a function only its outside is left. -/
def toTree : Value → Tree
  | .null => .null
  | .bool b => .bool b
  | .num x => .num x
  | .str s => .str s
  | .function identity name _ _ => .callable ⟨identity, .function, name.lexeme⟩
  | .native identity name _ _ => .callable ⟨identity, .native, name⟩
  | .bare identity => .callable ⟨identity, .bare, ""⟩
  | .int i => .int i
  | .tree t => t

/-! ## 1. What a value is -/

/-- Only `null` and `false` count as false. -/
def truthy : Value → Bool
  | .null => false
  | .bool b => b
  | _ => true

/-- Whether a value is a number of the language. -/
def isNumber : Value → Bool
  | .num _ => true
  | _ => false

/-- The name of a value's type. -/
def typeName : Value → String
  | .null => "null"
  | .bool _ => "boolean"
  | .num _ => "number"
  | .str _ => "string"
  | .function .. | .native .. | .bare _ | .tree (.callable _) => "function"
  | .int _ => "int"
  | .tree t => t.typeName

/-! ## 2. Text -/

/-- The text of a value inside a message. -/
def inspect (v : Value) : String := v.toTree.inspect

/-- The text that `print` shows and that strings are joined with. -/
def display : Value → String
  | .null => "null"
  | .bool true => "true"
  | .bool false => "false"
  | .num x => Decimal.display x
  | .str s => s
  | v =>
    match v.toTree with
    | .callable c => c.display
    | t => t.inspect

/-! ## 3. Equality -/

/-- Whether two values are equal.  Values of different types never are. -/
def equal : Value → Value → Bool
  | .null, .null => true
  | .bool a, .bool b => a == b
  | .num x, .num y => x == y
  | .str a, .str b => a == b
  | .function i .., .function j .. => i == j
  | .native i .., .native j .. => i == j
  | .bare i, .bare j => i == j
  | .int i, .int j => i == j
  | .int i, .num y => Datum.intEqFloat i y
  | .num x, .int j => Datum.intEqFloat j x
  | .tree a, .tree b => a.same b
  | _, _ => false

end Value

end Script
