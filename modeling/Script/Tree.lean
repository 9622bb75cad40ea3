/-
# Syntax trees

A program is a list of trees.  It comes either from source text or from a document, and a
document may put anything anywhere: so every field of a node is a tree, and a tree may also be
a plain datum, a sequence, a token or what a token carries.  What reading source text builds has
tokens where tokens belong, expressions where expressions belong, and so on.
-/
import Script.Token

namespace Script

/-- A node of a program, or what stands in place of one. -/
inductive Tree where
  | null
  | bool (b : Bool)
  | int (i : Int)
  | num (x : Float)
  | str (s : String)
  | seq (items : List Tree)
  | callable (c : Callable)
  /-- A list or an object, as a token may carry it. -/
  | data (d : Datum)
  | token (t : Token)
  -- expressions
  | literal (value : Tree)
  | grouping (inner : Tree)
  | unary (operator right : Tree)
  | binary (left operator right : Tree)
  | logical (left operator right : Tree)
  | ternary (condition thenBranch elseBranch : Tree)
  | assign (name value : Tree)
  | variable (name : Tree)
  | call (callee paren arguments : Tree)
  -- statements
  | expression (inner : Tree)
  | print (inner : Tree)
  | letDecl (name initializer : Tree)
  | block (statements : Tree)
  | ifElse (condition thenBranch elseBranch : Tree)
  | whileLoop (condition body : Tree)
  | function (name params body : Tree)

namespace Tree

/-! ## 1. Reading a tree off its parts -/

/-- What a tree is mapped to, case by case.  A node is given by the name of its type in
documents and its fields in order, each with its name. -/
structure Reading (α : Type) where
  null : α
  bool : Bool → α
  int : Int → α
  num : Float → α
  str : String → α
  seq : List α → α
  callable : Callable → α
  data : Datum → α
  token : Token → α
  node : String → List (String × α) → α

mutual

/-- The result of a reading, from the leaves up. -/
def read {α : Type} (r : Reading α) : Tree → α
  | .null => r.null
  | .bool b => r.bool b
  | .int i => r.int i
  | .num x => r.num x
  | .str s => r.str s
  | .seq items => r.seq (readAll r items)
  | .callable c => r.callable c
  | .data d => r.data d
  | .token t => r.token t
  | .literal value => r.node "Literal" [("value", value.read r)]
  | .grouping inner => r.node "Grouping" [("expression", inner.read r)]
  | .unary operator right =>
    r.node "Unary" [("operator", operator.read r), ("right", right.read r)]
  | .binary left operator right =>
    r.node "Binary" [("left", left.read r), ("operator", operator.read r), ("right", right.read r)]
  | .logical left operator right =>
    r.node "Logical" [("left", left.read r), ("operator", operator.read r), ("right", right.read r)]
  | .ternary condition thenBranch elseBranch =>
    r.node "Ternary" [("condition", condition.read r), ("then_branch", thenBranch.read r),
      ("else_branch", elseBranch.read r)]
  | .assign name value => r.node "Assign" [("name", name.read r), ("value", value.read r)]
  | .variable name => r.node "Variable" [("name", name.read r)]
  | .call callee paren arguments =>
    r.node "Call" [("callee", callee.read r), ("paren", paren.read r),
      ("arguments", arguments.read r)]
  | .expression inner => r.node "Expression" [("expression", inner.read r)]
  | .print inner => r.node "Print" [("expression", inner.read r)]
  | .letDecl name initializer =>
    r.node "Let" [("name", name.read r), ("initializer", initializer.read r)]
  | .block statements => r.node "Block" [("statements", statements.read r)]
  | .ifElse condition thenBranch elseBranch =>
    r.node "If" [("condition", condition.read r), ("then_branch", thenBranch.read r),
      ("else_branch", elseBranch.read r)]
  | .whileLoop condition body =>
    r.node "While" [("condition", condition.read r), ("body", body.read r)]
  | .function name params body =>
    r.node "Function" [("name", name.read r), ("params", params.read r), ("body", body.read r)]

/-- The result of each item. -/
def readAll {α : Type} (r : Reading α) : List Tree → List α
  | [] => []
  | t :: rest => t.read r :: readAll r rest

end

/-! ## 2. Text -/

/-- The words messages use for what a tree is. -/
def typeName : Tree → String :=
  read {
    null := "NoneType"
    bool := fun _ => "bool"
    int := fun _ => "int"
    num := fun _ => "float"
    str := fun _ => "str"
    seq := fun _ => "tuple"
    callable := Callable.typeName
    data := Datum.typeName
    token := fun _ => "Token"
    node := fun name _ => name }

/-- The words messages use for what a tree is, with the place where nodes and tokens are
defined. -/
def fullTypeName : Tree → String :=
  read {
    null := "NoneType"
    bool := fun _ => "bool"
    int := fun _ => "int"
    num := fun _ => "float"
    str := fun _ => "str"
    seq := fun _ => "tuple"
    callable := Callable.typeName
    data := Datum.typeName
    token := fun _ => "vyx.tokens.Token"
    node := fun name _ => "vyx.ast." ++ name }

/-- The items of a sequence between parentheses; one item alone has a comma after it. -/
def sequenceText : List String → String
  | [item] => "(" ++ item ++ ",)"
  | items => "(" ++ ", ".intercalate items ++ ")"

/-- The text of a tree inside a message. -/
def inspect : Tree → String :=
  read {
    null := Datum.null.inspect
    bool := fun b => (Datum.bool b).inspect
    int := fun i => (Datum.int i).inspect
    num := fun x => (Datum.num x).inspect
    str := fun s => (Datum.str s).inspect
    seq := sequenceText
    callable := Callable.inspect
    data := Datum.inspect
    token := Token.inspect
    node := fun name fields =>
      let shown := fields.map fun (field, text) => field ++ "=" ++ text
      name ++ "(" ++ ", ".intercalate shown ++ ")" }

/-! ## 3. Parts of a run -/

/-- What a token carries, as a tree. -/
def ofLiteral : Literal → Tree
  | .datum .null => .null
  | .datum (.bool b) => .bool b
  | .datum (.int i) => .int i
  | .datum (.num x) => .num x
  | .datum (.str s) => .str s
  | .datum d => .data d
  | .callable c => .callable c

/-- The callables in a tree, those that its tokens carry among them. -/
def callables : Tree → List Callable :=
  read {
    null := []
    bool := fun _ => []
    int := fun _ => []
    num := fun _ => []
    str := fun _ => []
    seq := List.flatten
    callable := fun c => [c]
    data := fun _ => []
    token := fun t => t.literal.callable?.toList
    node := fun _ fields => (fields.map (·.2)).flatten }

/-- The token that a tree is. -/
def token? : Tree → Option Token
  | .token t => some t
  | _ => none

/-- What a tree yields one by one: the items of a sequence, the characters of a string. -/
def items? : Tree → Option (List Tree)
  | .seq items => some items
  | .str s => some (s.toList.map fun c => .str c.toString)
  | _ => none

end Tree

end Script
