/-
# Documents

A program as data: a node is an object that names its type and holds its fields, a token an
object of its own, a sequence a list.  `Document.ofTree` writes a tree down and `Document.toTree`
loads one.  Only callables, and objects that are no nodes, cannot be written: `Document.write`
refuses a tree that holds one.
Loading turns every number outside a token into a double and every absent field into
null; it fails only where no tree can be made of the data at all.
-/
import Script.Tree

namespace Script

/-! ## 1. What can be wrong -/

/-- Why data are no document. -/
inductive DocumentError where
  /-- A program has to be an object. -/
  | notObject (typeName : String)
  | notProgram
  /-- The body of a program cannot be gone through. -/
  | notIterable (typeName : String)
  /-- A list or an object stands where a name is looked up. -/
  | notName (typeName : String)
  | unknownNode (type : Datum)
  | unknownKind (kind : Datum)
  /-- A token lacks a field. -/
  | missing (field : String)
  /-- An integer lies beyond every double. -/
  | tooLarge
  /-- A value of a run that is no data. -/
  | unreadable (text : String)
  /-- A value of a run that cannot be written down. -/
  | unwritable (typeName : String)

/-- The wording of an error. -/
def DocumentError.message : DocumentError → String
  | .notObject typeName => "'" ++ typeName ++ "' object has no attribute 'get'"
  | .notProgram => "expected a Program object"
  | .notIterable typeName => "'" ++ typeName ++ "' object is not iterable"
  | .notName typeName => "unhashable type: '" ++ typeName ++ "'"
  | .unknownNode type => "unknown AST node type " ++ type.inspect
  | .unknownKind kind => kind.inspect
  | .missing field => Text.quoted field
  | .tooLarge => "int too large to convert to float"
  | .unreadable text => "cannot deserialize " ++ text
  | .unwritable typeName => "cannot serialize " ++ typeName

namespace Document

/-! ## 2. Writing -/

/-- A token as data. -/
def ofToken (t : Token) : Datum :=
  .obj [("__type__", .str "Token"), ("kind", .str t.kind.name), ("literal", t.literal.toDatum),
    ("line", t.line), ("column", t.column)]

/-- How a tree becomes data; what stands for a callable is null. -/
def writing : Tree.Reading Datum where
  null := .null
  bool := .bool
  int := .int
  num := .num
  str := .str
  seq := .list
  callable := fun _ => .null
  data := id
  token := ofToken
  node := fun name fields => .obj (("type", .str name) :: fields)

/-- A tree as data. -/
def ofTree : Tree → Datum := Tree.read writing

/-- A program as data. -/
def ofProgram (statements : List Tree) : Datum :=
  .obj [("type", .str "Program"), ("body", .list (statements.map ofTree))]

mutual

/-- The types of what cannot be written of a datum outside a token: of its objects. -/
def unwritableData : Datum → List String
  | .list items => unwritableItems items
  | .obj fields => [(Datum.obj fields).typeName]
  | _ => []

/-- The same, item by item. -/
def unwritableItems : List Datum → List String
  | [] => []
  | d :: rest => unwritableData d ++ unwritableItems rest

end

/-- How it is found what of a tree cannot be written. -/
def refusing : Tree.Reading (List String) where
  null := []
  bool := fun _ => []
  int := fun _ => []
  num := fun _ => []
  str := fun _ => []
  seq := List.flatten
  callable := fun c => [c.typeName]
  data := unwritableData
  token := fun t => (t.literal.callable?.map (·.typeName)).toList
  node := fun _ fields => (fields.map (·.2)).flatten

/-- The types of what cannot be written of a tree, in order. -/
def unwritable : Tree → List String := Tree.read refusing

/-- A tree as data, if it can be written down. -/
def write (t : Tree) : Except DocumentError Datum :=
  match unwritable t with
  | [] => .ok (ofTree t)
  | typeName :: _ => .error (.unwritable typeName)

/-- A program as data, if it can be written down. -/
def writeProgram (statements : List Tree) : Except DocumentError Datum := do
  return .obj [("type", .str "Program"), ("body", .list (← statements.mapM write))]

/-! ## 3. Loading -/

/-- A field that has to be there. -/
def required (name : String) (fields : List (String × Datum)) : Except DocumentError Datum :=
  match Datum.field? name fields with
  | some d => .ok d
  | none => .error (.missing name)

/-- The kind that a datum names. -/
def toKind : Datum → Except DocumentError Kind
  | .str s =>
    match Kind.ofName? s with
    | some kind => .ok kind
    | none => .error (.unknownKind (.str s))
  | .list items => .error (.notName (Datum.list items).typeName)
  | .obj fields => .error (.notName (Datum.obj fields).typeName)
  | d => .error (.unknownKind d)

/-- The token that an object describes; its literal may be absent. -/
def toToken (fields : List (String × Datum)) : Except DocumentError Token := do
  let kind ← toKind (← required "kind" fields)
  let literal := (Datum.field? "literal" fields).getD .null
  let line ← required "line" fields
  let column ← required "column" fields
  return ⟨kind, .datum literal, line, column⟩

/-- Whether an object describes a token. -/
def isToken (fields : List (String × Datum)) : Bool :=
  match Datum.field? "__type__" fields with
  | some (.str s) => s == "Token"
  | _ => false

/-- The node that an object describes, given what each of its fields loads as.  Fields are taken
in order, so the first bad one is the error. -/
def toNode (type : Datum) (field : String → Except DocumentError Tree) :
    Except DocumentError Tree :=
  match type with
  | .str "Literal" => do return .literal (← field "value")
  | .str "Grouping" => do return .grouping (← field "expression")
  | .str "Unary" => do return .unary (← field "operator") (← field "right")
  | .str "Binary" => do
    return .binary (← field "left") (← field "operator") (← field "right")
  | .str "Logical" => do
    return .logical (← field "left") (← field "operator") (← field "right")
  | .str "Ternary" => do
    return .ternary (← field "condition") (← field "then_branch") (← field "else_branch")
  | .str "Assign" => do return .assign (← field "name") (← field "value")
  | .str "Variable" => do return .variable (← field "name")
  | .str "Call" => do
    return .call (← field "callee") (← field "paren") (← field "arguments")
  | .str "Expression" => do return .expression (← field "expression")
  | .str "Print" => do return .print (← field "expression")
  | .str "Let" => do return .letDecl (← field "name") (← field "initializer")
  | .str "Block" => do return .block (← field "statements")
  | .str "If" => do
    return .ifElse (← field "condition") (← field "then_branch") (← field "else_branch")
  | .str "While" => do return .whileLoop (← field "condition") (← field "body")
  | .str "Function" => do
    return .function (← field "name") (← field "params") (← field "body")
  | .list items => .error (.notName (Datum.list items).typeName)
  | .obj fields => .error (.notName (Datum.obj fields).typeName)
  | d => .error (.unknownNode d)

/-- What a field loads as, among all that were loaded; an absent one is null. -/
def loaded (name : String) :
    List (String × Except DocumentError Tree) → Except DocumentError Tree
  | [] => .ok .null
  | (n, t) :: rest => if n = name then t else loaded name rest

mutual

/-- The tree that a datum describes. -/
def toTree : Datum → Except DocumentError Tree
  | .null => .ok .null
  | .bool b => .ok (.bool b)
  | .int i =>
    match Decimal.ofInt? i with
    | some x => .ok (.num x)
    | none => .error .tooLarge
  | .num x => .ok (.num x)
  | .str s => .ok (.str s)
  | .list items => do return .seq (← toTrees items)
  | .obj fields =>
    if isToken fields then do return .token (← toToken fields)
    else
      let trees := toFields fields
      toNode ((Datum.field? "type" fields).getD .null) (loaded · trees)

/-- The trees of a list, up to the first error. -/
def toTrees : List Datum → Except DocumentError (List Tree)
  | [] => .ok []
  | d :: rest => do
    let first ← toTree d
    let more ← toTrees rest
    return first :: more

/-- Each field with what it loads as. -/
def toFields : List (String × Datum) → List (String × Except DocumentError Tree)
  | [] => []
  | (name, d) :: rest => (name, toTree d) :: toFields rest

end

/-- What the body of a program yields one by one. -/
def bodyItems : Datum → Except DocumentError (List Datum)
  | .list items => .ok items
  | .str s => .ok (s.toList.map fun c => .str c.toString)
  | .obj fields => .ok (fields.map fun (name, _) => .str name)
  | d => .error (.notIterable d.typeName)

/-- The program that a datum describes; without a body it is empty. -/
def toProgram : Datum → Except DocumentError (List Tree)
  | .obj fields =>
    match Datum.field? "type" fields with
    | some (.str "Program") => do
      toTrees (← bodyItems ((Datum.field? "body" fields).getD (.list [])))
    | _ => .error .notProgram
  | d => .error (.notObject d.typeName)

end Document

/-- What is compared of a tree: what is written down, but that a list which a token carried is no
sequence. -/
def Tree.outline : Tree → Datum :=
  Tree.read { Document.writing with data := fun d => .obj [("data", d)] }

/-- Whether two trees are equal: numbers are compared by value, and callables are equal only to
themselves. -/
def Tree.same (a b : Tree) : Bool :=
  a.callables == b.callables && a.outline.same b.outline

end Script
