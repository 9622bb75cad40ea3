/-
# Statements and programs

Declarations and statements.  A declaration that fails is dropped, and reading goes on at the
next statement boundary: just after a `;`, or at `let`, `print` or `fn`.  So one broken
statement hides nothing that follows.  A `for` loop is read as the block and `while` loop that
it stands for.
-/
import Script.Parser.Expression
import Script.Token.Lexer

namespace Script.Parser

/-! ## 1. Recovery -/

/-- The keywords that open a statement that recovery stops at. -/
def isBoundary (k : Kind) : Bool := k == .letWord || k == .printWord || k == .fnWord

/-- What remains from the first statement boundary on, when `last` was taken last. -/
def resync (last : Token) : List Token → Option (List Token)
  | [] => none
  | t :: rest =>
    if t.kind == .eof || last.kind == .semicolon || isBoundary t.kind then some (t :: rest)
    else resync t rest

/-- What remains after a declaration at `start` failed in front of `stop`.  At least one token is
skipped. -/
def recover (start stop : List Token) : Option (List Token) :=
  match start.take (start.length - stop.length) with
  | [] =>
    match start with
    | [] => none
    | t :: rest => if t.kind == .eof then some (t :: rest) else resync t rest
  | first :: more => resync ((first :: more).getLastD first) stop

/-- Turns failure into recovery, with no result. -/
def recovering (p : Parser Tree) : Parser (Option Tree) := fun ts =>
  match p ts with
  | .done tree rest notes => .done (some tree) rest notes
  | .failed stop notes =>
    match recover ts stop with
    | some rest => .done none rest notes
    | none => .ranOut
  | .ranOut => .ranOut

/-! ## 2. Blocks and declarations -/

/-- Declarations up to a token that ends them, which stays. -/
def declarationsFrom (ends : Kind → Bool) (declaration : Parser (Option Tree)) :
    (clock : List Token) → Parser (List Tree)
  | [] => fun _ => .ranOut
  | _ :: clock => do
    if ends (← peek).kind then pure []
    else
      let first ← declaration
      let more ← declarationsFrom ends declaration clock
      pure (first.toList ++ more)

/-- The declarations of a block and its closing brace, after the opening one. -/
def block (declaration : Parser (Option Tree)) : Parser (List Tree) := do
  let statements ← clocked (declarationsFrom (fun k => k == .rightBrace || k == .eof) declaration)
  let _ ← expect .rightBrace .noBraceAfterBlock
  pure statements

/-- A function, after its `fn`. -/
def functionRest (declaration : Parser (Option Tree)) : Parser Tree := do
  let name ← expect .identifier .noFunctionName
  let _ ← expect .leftParen .noParenAfterFunctionName
  let (params, _) ← parenthesised (expect .identifier .noParameterName) .tooManyParameters
    .noParenAfterParameters
  let _ ← expect .leftBrace .noBraceBeforeBody
  let body ← block declaration
  pure (.function (.token name) (.seq (params.map .token)) (.seq body))

/-- A variable, after its `let`. -/
def letRest (expression : Parser Tree) : Parser Tree := do
  let name ← expect .identifier .noVariableName
  let initializer ← match ← accept (· == .equal) with
    | some _ => expression
    | none => pure .null
  let _ ← expect .semicolon .noSemicolonAfterVariable
  pure (.letDecl (.token name) initializer)

/-! ## 3. Statements -/

/-- An expression and its semicolon. -/
def expressionStatement (expression : Parser Tree) : Parser Tree := do
  let inner ← expression
  let _ ← expect .semicolon .noSemicolonAfterExpression
  pure (.expression inner)

/-- The loop that `for` stands for: the initializer in a block of its own, then a `while` whose
body ends with the increment. -/
def forLoop (initializer condition increment : Option Tree) (body : Tree) : Tree :=
  let body := match increment with
    | some increment => .block (.seq [body, .expression increment])
    | none => body
  let loop := .whileLoop (condition.getD (.literal (.bool true))) body
  match initializer with
  | some initializer => .block (.seq [initializer, loop])
  | none => loop

/-- The first clause of a `for` loop, with its semicolon. -/
def forInitializer (expression : Parser Tree) : Parser (Option Tree) := do
  match ← accept (· == .semicolon) with
  | some _ => pure none
  | none =>
    match ← accept (· == .letWord) with
    | some _ => some <$> letRest expression
    | none => some <$> expressionStatement expression

/-- An expression that may be missing in front of a token of kind `stop`. -/
def optionalBefore (stop : Kind) (expression : Parser Tree) : Parser (Option Tree) := do
  if ← ahead stop then pure none else some <$> expression

/-- A `for` loop, after its keyword. -/
def forRest (expression statement : Parser Tree) : Parser Tree := do
  let _ ← expect .leftParen .noParenAfterFor
  let initializer ← forInitializer expression
  let condition ← optionalBefore .semicolon expression
  let _ ← expect .semicolon .noSemicolonAfterCondition
  let increment ← optionalBefore .rightParen expression
  let _ ← expect .rightParen .noParenAfterClauses
  let body ← statement
  pure (forLoop initializer condition increment body)

/-- An `if` statement, after its keyword; an `else` belongs to the nearest `if`. -/
def ifRest (expression statement : Parser Tree) : Parser Tree := do
  let _ ← expect .leftParen .noParenAfterIf
  let condition ← expression
  let _ ← expect .rightParen .noParenAfterIfCondition
  let thenBranch ← statement
  let elseBranch ← match ← accept (· == .elseWord) with
    | some _ => statement
    | none => pure .null
  pure (.ifElse condition thenBranch elseBranch)

/-- A `print` statement, after its keyword. -/
def printRest (expression : Parser Tree) : Parser Tree := do
  let _ ← expect .leftParen .noParenAfterPrint
  let inner ← expression
  let _ ← expect .rightParen .noParenAfterExpression
  let _ ← expect .semicolon .noSemicolonAfterPrint
  pure (.print inner)

/-- A `while` loop, after its keyword. -/
def whileRest (expression statement : Parser Tree) : Parser Tree := do
  let _ ← expect .leftParen .noParenAfterWhile
  let condition ← expression
  let _ ← expect .rightParen .noParenAfterWhileCondition
  let body ← statement
  pure (.whileLoop condition body)

/-- A statement, in terms of the declarations and statements in it. -/
def statementBody (expression : Parser Tree) (declaration : Parser (Option Tree))
    (statement : Parser Tree) : Parser Tree := do
  match (← peek).kind with
  | .forWord => skip *> forRest expression statement
  | .ifWord => skip *> ifRest expression statement
  | .printWord => skip *> printRest expression
  | .whileWord => skip *> whileRest expression statement
  | .leftBrace => skip *> ((fun statements => .block (.seq statements)) <$> block declaration)
  | _ => expressionStatement expression
where
  /-- Takes the token that was looked at. -/
  skip : Parser Unit
    | [] => .ranOut
    | _ :: rest => .done () rest []

/-- A declaration that may fail, in terms of the declarations and statements in it. -/
def declarationBody (expression : Parser Tree) (declaration : Parser (Option Tree))
    (statement : Parser Tree) : Parser Tree := do
  match ← accept (· == .fnWord) with
  | some _ => functionRest declaration
  | none =>
    match ← accept (· == .letWord) with
    | some _ => letRest expression
    | none => statementBody expression declaration statement

/-! ## 4. Programs -/

mutual

/-- A declaration whose statements may nest `depth` levels. -/
def declarationAt (expression : Parser Tree) : (depth : Nat) → Parser (Option Tree)
  | 0 => recovering (fail .nestedTooDeeply)
  | depth + 1 =>
    recovering
      (declarationBody expression (declarationAt expression depth) (statementAt expression depth))

/-- A statement whose statements may nest `depth` levels. -/
def statementAt (expression : Parser Tree) : (depth : Nat) → Parser Tree
  | 0 => fail .nestedTooDeeply
  | depth + 1 =>
    statementBody expression (declarationAt expression depth) (statementAt expression depth)

end

/-- The declarations up to the end of input, in which expressions and statements may each nest
`depth` levels. -/
def program (depth : Nat) : Parser (List Tree) :=
  clocked (declarationsFrom (· == .eof) (declarationAt (expressionAt depth) depth))

end Parser

/-- What reading a token list finds. -/
structure Program where
  statements : List Tree
  errors : List Diagnostic

/-- Reads a program off a token list; `none` if the list has no end of input.  Constructs may
nest `depth` levels. -/
def Program.ofTokens? (depth : Nat) (tokens : List Token) : Option Program :=
  match Parser.program depth tokens with
  | .done statements _ errors => some ⟨statements, errors⟩
  | _ => none

/-- Reads a program off a source text; lexical errors come first. -/
def Program.ofSource (depth : Nat) (source : String) : Program :=
  let scanned := scan source
  match Program.ofTokens? depth scanned.tokens with
  | some p => ⟨p.statements, scanned.errors ++ p.errors⟩
  | none => ⟨[], scanned.errors⟩

end Script
