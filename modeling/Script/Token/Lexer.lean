/-
# The lexer

The lexer goes over a source text once and leaves a list of tokens, which ends with the one for the
end.  It never stops early: a character that starts nothing and a string that nothing closes are
recorded beside the tokens.

It counts as it goes.  A `Cursor` knows how many characters have been read, the line they have led
to and how many characters stand in front of that line.  Three loops come over line feeds, the one
over tokens, the one in a string and the one in a block comment, and each starts the next line
itself.  The text that is still unread is handed on from function to function.
-/
import Script.Diagnostic
import Script.Text.Chars

namespace Script

open Text (isDigit isLetter isWordChar)

/-- A place in a source text, both counted from one. -/
structure Position where
  line : Nat
  column : Nat
  deriving DecidableEq, Repr

/-- What the lexer finds. -/
structure Scanned where
  tokens : List Token
  errors : List Diagnostic

/-! ## 1. The cursor -/

/-- How far a text has been read. -/
structure Cursor where
  /-- How many characters have been read. -/
  current : Nat
  line : Nat
  /-- How many characters stand in front of the line. -/
  lineStart : Nat
  lineStart_le : lineStart ≤ current

namespace Cursor

/-- Where a text starts. -/
def start : Cursor := ⟨0, 1, 0, Nat.le_refl 0⟩

/-- The place of the next character. -/
def position (k : Cursor) : Position := ⟨k.line, k.current - k.lineStart + 1⟩

/-- Steps over a character. -/
def advance (k : Cursor) : Cursor :=
  { k with current := k.current + 1, lineStart_le := Nat.le_succ_of_le k.lineStart_le }

/-- Starts a line with the next character. -/
def newline (k : Cursor) : Cursor :=
  { k with line := k.line + 1, lineStart := k.current, lineStart_le := Nat.le_refl k.current }

/-- Steps over the next character if it is the expected one. -/
def accept? (expected : Char) : List Char → Cursor → Option (List Char × Cursor)
  | c :: rest, k => if c == expected then some (rest, k.advance) else none
  | [], _ => none

/-- Steps over the characters with a property that come next. -/
def advanceWhile (p : Char → Bool) : List Char → Cursor → List Char × Cursor
  | c :: rest, k => if p c then advanceWhile p rest k.advance else (c :: rest, k)
  | [], k => ([], k)

/-- Goes up to the quote that closes a string, or to the end of the text. -/
def stringBody : List Char → Cursor → List Char × Cursor
  | c :: rest, k =>
    if c == '"' then (c :: rest, k)
    else
      let next := k.advance
      stringBody rest (if c == '\n' then next.newline else next)
  | [], k => ([], k)

/-- Goes behind the end of a block comment, the first one there is, or to the end of the text. -/
def blockComment : List Char → Cursor → List Char × Cursor
  | '*' :: '/' :: rest, k => (rest, k.advance.advance)
  | c :: rest, k =>
    let next := k.advance
    blockComment rest (if c == '\n' then next.newline else next)
  | [], k => ([], k)

end Cursor

/-! ## 2. Tokens -/

/-- The lexer between two characters. -/
structure Lexer extends Cursor where
  /-- How many characters stand in front of the token that is being read. -/
  start : Nat
  startPosition : Position
  /-- The tokens so far, the latest first. -/
  tokens : List Token
  /-- The errors so far, the latest first. -/
  errors : List Diagnostic

namespace Lexer

/-- The marks of one character that start no longer one. -/
def singles : List (Char × Kind) :=
  [('(', .leftParen), (')', .rightParen), ('{', .leftBrace), ('}', .rightBrace),
    (':', .colon), (';', .semicolon), (',', .comma), ('+', .plus), ('-', .minus), ('*', .star)]

/-- The marks that a second character may follow, with the merged mark and the lone one. -/
def doubles : List (Char × Char × Kind × Kind) :=
  [('!', '=', .bangEqual, .bang), ('=', '=', .equalEqual, .equal),
    ('>', '=', .greaterEqual, .greater), ('<', '=', .lessEqual, .less),
    ('?', ':', .elvis, .question)]

/-- The lexer at another place. -/
def goTo (l : Lexer) (k : Cursor) : Lexer := { l with toCursor := k }

/-- Starts a token with the next character. -/
def begin (l : Lexer) : Lexer := { l with start := l.current, startPosition := l.position }

/-- Adds the token that is being read. -/
def addToken (l : Lexer) (kind : Kind) (literal : Datum) : Lexer :=
  { l with tokens :=
      .placed kind literal l.startPosition.line l.startPosition.column :: l.tokens }

/-- Records an error on the line that has been reached. -/
def error (l : Lexer) (problem : Problem) : Lexer :=
  { l with errors := .onLine l.line problem :: l.errors }

/-- What stands between two places of the source, of which `text` is the part from the start of
the token on. -/
def slice (l : Lexer) (text : List Char) (first last : Nat) : List Char :=
  (text.take (last - l.start)).drop (first - l.start)

/-- The double nearest to a decimal number. -/
def numberValue (digits fraction : List Char) : Float :=
  Decimal.toFloat (Text.digitsValue (digits ++ fraction)) (-(fraction.length : Int))

section Token

/- `text` is where the token starts, `rest` what follows its first character. -/
variable (text rest : List Char) (l : Lexer)

/-- The rest of a string. -/
def string : List Char × Lexer :=
  match Cursor.stringBody rest l.toCursor with
  | ([], k) => ([], (l.goTo k).error .openString)
  | (_ :: rest, k) =>
    let l := l.goTo k.advance
    (rest, l.addToken .string (.str (String.ofList (l.slice text (l.start + 1) (l.current - 1)))))

/-- The fraction of a number; a point belongs to it only if a digit follows. -/
def fraction (rest : List Char) (k : Cursor) : List Char × Cursor :=
  match rest with
  | '.' :: d :: more =>
    if isDigit d then Cursor.advanceWhile isDigit (d :: more) k.advance else (rest, k)
  | _ => (rest, k)

/-- The rest of a number. -/
def number : List Char × Lexer :=
  let (rest, k) := Cursor.advanceWhile isDigit rest l.toCursor
  let (rest, k) := fraction rest k
  let l := l.goTo k
  let digits := l.slice text l.start l.current
  (rest, l.addToken .number
    (.num (numberValue (digits.takeWhile isDigit) ((digits.dropWhile isDigit).drop 1))))

/-- The rest of a word. -/
def identifier : List Char × Lexer :=
  let (rest, k) := Cursor.advanceWhile isWordChar rest l.toCursor
  let l := l.goTo k
  let word := String.ofList (l.slice text l.start l.current)
  match Kind.keyword? word with
  | some kind => (rest, l.addToken kind .null)
  | none => (rest, l.addToken .identifier (.str word))

/-- What a slash starts. -/
def slash : List Char × Lexer :=
  match Cursor.accept? '/' rest l.toCursor with
  | some (rest, k) =>
    let (rest, k) := Cursor.advanceWhile (· != '\n') rest k
    (rest, l.goTo k)
  | none =>
    match Cursor.accept? '*' rest l.toCursor with
    | some (rest, k) =>
      let (rest, k) := Cursor.blockComment rest k
      (rest, l.goTo k)
    | none => (rest, l.addToken .slash .null)

/-- A mark of two characters if the second one follows, and of one otherwise. -/
def double (second : Char) (merged single : Kind) : List Char × Lexer :=
  match Cursor.accept? second rest l.toCursor with
  | some (rest, k) => (rest, (l.goTo k).addToken merged .null)
  | none => (rest, l.addToken single .null)

end Token

/-- Reads what starts with a character: a token, a comment, a blank or an error. -/
def scanToken (c : Char) (rest : List Char) (l : Lexer) : List Char × Lexer :=
  let text := c :: rest
  let l := l.goTo l.advance
  if c == ' ' || c == '\r' || c == '\t' then (rest, l)
  else if c == '\n' then (rest, l.goTo l.newline)
  else if c == '"' then l.string text rest
  else if c == '/' then l.slash rest
  else
    match doubles.lookup c with
    | some (second, merged, single) => l.double rest second merged single
    | none =>
      match singles.lookup c with
      | some kind => (rest, l.addToken kind .null)
      | none =>
        if isDigit c then l.number text rest
        else if isLetter c then l.identifier text rest
        else (rest, l.error (.strayCharacter c))

/-- Reads at most `n` times; a text of `n` characters is read by then. -/
def scanTokens : (n : Nat) → List Char → Lexer → Lexer
  | 0, _, l => l
  | _, [], l => l
  | n + 1, c :: rest, l =>
    let (rest, l) := scanToken c rest l.begin
    scanTokens n rest l

/-- The lexer before a text. -/
def initial : Lexer := ⟨.start, 0, Cursor.start.position, [], []⟩

/-- What there is once the text has been read: the tokens and the one for the end, and the
errors. -/
def finish (l : Lexer) : Scanned :=
  let l := { l with startPosition := l.position }.addToken .eof .null
  ⟨l.tokens.reverse, l.errors.reverse⟩

end Lexer

/-- Cuts a source text into tokens. -/
def scan (source : String) : Scanned :=
  (Lexer.initial.scanTokens source.toList.length source.toList).finish

end Script
