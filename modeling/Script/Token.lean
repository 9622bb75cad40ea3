/-
# Tokens

A token is the smallest named unit of source text.  Its kind says what it is; its literal is the
number or text it carries; line and column say where it stands.  A token that was read from a
document keeps whatever data stood in these places, and one that was put together by hand may
even carry something callable.
-/
import Script.Callable
import Script.Datum

namespace Script

/-! ## 1. Kinds -/

/-- The closed set of token kinds. -/
inductive Kind where
  | identifier | number | string
  | plus | minus | star | slash | equal | bang | greater | less
  | equalEqual | bangEqual | greaterEqual | lessEqual
  | leftParen | rightParen | leftBrace | rightBrace
  | colon | semicolon | comma | question | elvis
  | orWord | andWord | nullWord | letWord | fnWord | trueWord | falseWord
  | printWord | ifWord | elseWord | whileWord | forWord
  | eof
  deriving DecidableEq, Repr

namespace Kind

/-- Every kind. -/
def all : List Kind :=
  [.identifier, .number, .string, .plus, .minus, .star, .slash, .equal, .bang, .greater, .less,
    .equalEqual, .bangEqual, .greaterEqual, .lessEqual, .leftParen, .rightParen, .leftBrace,
    .rightBrace, .colon, .semicolon, .comma, .question, .elvis, .orWord, .andWord, .nullWord,
    .letWord, .fnWord, .trueWord, .falseWord, .printWord, .ifWord, .elseWord, .whileWord,
    .forWord, .eof]

/-- The name of a kind in documents and messages. -/
def name : Kind → String
  | .identifier => "IDENTIFIER"
  | .number => "NUMBER"
  | .string => "STRING"
  | .plus => "PLUS"
  | .minus => "MINUS"
  | .star => "STAR"
  | .slash => "SLASH"
  | .equal => "EQUAL"
  | .bang => "BANG"
  | .greater => "GREATER"
  | .less => "LESS"
  | .equalEqual => "EQUAL_EQUAL"
  | .bangEqual => "BANG_EQUAL"
  | .greaterEqual => "GREATER_EQUAL"
  | .lessEqual => "LESS_EQUAL"
  | .leftParen => "LEFT_PAREN"
  | .rightParen => "RIGHT_PAREN"
  | .leftBrace => "LEFT_BRACE"
  | .rightBrace => "RIGHT_BRACE"
  | .colon => "COLON"
  | .semicolon => "SEMICOLON"
  | .comma => "COMMA"
  | .question => "QUESTION"
  | .elvis => "ELVIS"
  | .orWord => "OR"
  | .andWord => "AND"
  | .nullWord => "NULL"
  | .letWord => "LET"
  | .fnWord => "FN"
  | .trueWord => "TRUE"
  | .falseWord => "FALSE"
  | .printWord => "PRINT"
  | .ifWord => "IF"
  | .elseWord => "ELSE"
  | .whileWord => "WHILE"
  | .forWord => "FOR"
  | .eof => "EOF"

/-- The kind of a name. -/
def ofName? (s : String) : Option Kind := all.find? fun k => k.name == s

/-- The kinds that are spelled one way only, with their spelling. -/
def spelling? : Kind → Option String
  | .identifier | .number | .string => none
  | .plus => some "+"
  | .minus => some "-"
  | .star => some "*"
  | .slash => some "/"
  | .equal => some "="
  | .bang => some "!"
  | .greater => some ">"
  | .less => some "<"
  | .equalEqual => some "=="
  | .bangEqual => some "!="
  | .greaterEqual => some ">="
  | .lessEqual => some "<="
  | .leftParen => some "("
  | .rightParen => some ")"
  | .leftBrace => some "\x7b"
  | .rightBrace => some "\x7d"
  | .colon => some ":"
  | .semicolon => some ";"
  | .comma => some ","
  | .question => some "?"
  | .elvis => some "?:"
  | .orWord => some "or"
  | .andWord => some "and"
  | .nullWord => some "null"
  | .letWord => some "let"
  | .fnWord => some "fn"
  | .trueWord => some "true"
  | .falseWord => some "false"
  | .printWord => some "print"
  | .ifWord => some "if"
  | .elseWord => some "else"
  | .whileWord => some "while"
  | .forWord => some "for"
  | .eof => some "EOF"

/-- The words that are no identifiers. -/
def keywords : List Kind :=
  [.orWord, .andWord, .nullWord, .letWord, .fnWord, .trueWord, .falseWord, .printWord, .ifWord,
    .elseWord, .whileWord, .forWord]

/-- The keyword that is spelled so. -/
def keyword? (word : String) : Option Kind := keywords.find? fun k => k.spelling? == some word

end Kind

/-! ## 2. Literals -/

/-- What a token carries. -/
inductive Literal where
  | datum (d : Datum)
  /-- Something callable, which neither source text nor a document puts there. -/
  | callable (c : Callable)

namespace Literal

/-- The callable that a literal is. -/
def callable? : Literal → Option Callable
  | .datum _ => none
  | .callable c => some c

/-- The datum that a literal is written down as; a callable leaves nothing to write. -/
def toDatum : Literal → Datum
  | .datum d => d
  | .callable _ => .null

/-- The text of a literal as the language shows it. -/
def display : Literal → String
  | .datum d => d.display
  | .callable c => c.display

/-- The text of a literal inside a message. -/
def inspect : Literal → String
  | .datum d => d.inspect
  | .callable c => c.inspect

end Literal

/-! ## 3. Tokens -/

/-- A token and its place. -/
structure Token where
  kind : Kind
  literal : Literal
  line : Datum
  column : Datum

namespace Token

/-- A token at a line and a column of a source text. -/
def placed (kind : Kind) (literal : Datum) (line column : Nat) : Token :=
  ⟨kind, .datum literal, .int line, .int column⟩

/-- A name that stands nowhere in particular. -/
def named (name : String) : Token := .placed .identifier (.str name) 1 1

/-- The source text that a token stands for. -/
def lexeme (t : Token) : String :=
  match t.kind.spelling? with
  | some s => s
  | none =>
    match t.kind, t.literal with
    | .number, literal => literal.display
    | _, .datum (.str s) => s
    | _, _ => ""

/-- The text of a token inside a message. -/
def inspect (t : Token) : String :=
  "Token(" ++ t.kind.name ++ ", " ++ t.literal.inspect ++ ", " ++ t.line.text ++ ":" ++
    t.column.text ++ ")"

end Token

end Script
