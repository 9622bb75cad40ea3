/-
# Diagnostics

What is wrong with a source text, found before anything runs.  A `Problem` is the cause and has
one wording; a `Diagnostic` is a problem with its place.
-/
import Script.Token

namespace Script

/-- What can be wrong with a source text. -/
inductive Problem where
  | strayCharacter (c : Char)
  | openString
  | noExpression
  | nestedTooDeeply
  | badTarget
  | tooManyArguments
  | tooManyParameters
  | noFunctionName
  | noParenAfterFunctionName
  | noParameterName
  | noParenAfterParameters
  | noBraceBeforeBody
  | noBraceAfterBlock
  | noVariableName
  | noSemicolonAfterVariable
  | noParenAfterFor
  | noSemicolonAfterCondition
  | noParenAfterClauses
  | noParenAfterIf
  | noParenAfterIfCondition
  | noParenAfterPrint
  | noParenAfterExpression
  | noSemicolonAfterPrint
  | noParenAfterWhile
  | noParenAfterWhileCondition
  | noSemicolonAfterExpression
  | noColon
  | noParenAfterArguments
  deriving DecidableEq, Repr

/-- The wording of a problem. -/
def Problem.message : Problem → String
  | .strayCharacter c => "Unexpected character '" ++ c.toString ++ "'."
  | .openString => "Unterminated string."
  | .noExpression => "Expected expression."
  | .nestedTooDeeply => "Expression nested too deeply."
  | .badTarget => "Invalid assignment target."
  | .tooManyArguments => "Can't have more than 255 arguments."
  | .tooManyParameters => "Can't have more than 255 parameters."
  | .noFunctionName => "Expected function name."
  | .noParenAfterFunctionName => "Expected '(' after function name."
  | .noParameterName => "Expected parameter name."
  | .noParenAfterParameters => "Expected ')' after parameters."
  | .noBraceBeforeBody => "Expected '\x7b' before function body."
  | .noBraceAfterBlock => "Expected '\x7d' after block."
  | .noVariableName => "Expected variable name after 'let'."
  | .noSemicolonAfterVariable => "Expected ';' after variable declaration."
  | .noParenAfterFor => "Expected '(' after 'for'."
  | .noSemicolonAfterCondition => "Expected ';' after loop condition."
  | .noParenAfterClauses => "Expected ')' after for clauses."
  | .noParenAfterIf => "Expected '(' after 'if'."
  | .noParenAfterIfCondition => "Expected ')' after if condition."
  | .noParenAfterPrint => "Expected '(' after 'print'."
  | .noParenAfterExpression => "Expected ')' after expression."
  | .noSemicolonAfterPrint => "Expected ';' after print statement."
  | .noParenAfterWhile => "Expected '(' after 'while'."
  | .noParenAfterWhileCondition => "Expected ')' after while condition."
  | .noSemicolonAfterExpression => "Expected ';' after expression."
  | .noColon => "Expected ':' after then branch of ternary expression."
  | .noParenAfterArguments => "Expected ')' after arguments."

/-- Where in the source text a problem was found, besides its line. -/
inductive Place where
  | anywhere
  | atEnd
  | atLexeme (lexeme : String)
  deriving DecidableEq, Repr

/-- The wording of a place. -/
def Place.text : Place → String
  | .anywhere => ""
  | .atEnd => "at end"
  | .atLexeme lexeme => "at '" ++ lexeme ++ "'"

/-- A lexical or syntactic error. -/
structure Diagnostic where
  line : Datum
  place : Place
  message : String

namespace Diagnostic

/-- An error found at a token. -/
def atToken (t : Token) (message : String) : Diagnostic :=
  ⟨t.line, if t.kind = .eof then .atEnd else .atLexeme t.lexeme, message⟩

/-- A problem found on a line, at no token. -/
def onLine (line : Nat) (p : Problem) : Diagnostic := ⟨.int line, .anywhere, p.message⟩

/-- The line that is shown for an error. -/
def text (d : Diagnostic) : String :=
  let place := match d.place with
    | .anywhere => ""
    | p => " " ++ p.text
  "[Line " ++ d.line.text ++ "] Error" ++ place ++ ": " ++ d.message

end Diagnostic

end Script
