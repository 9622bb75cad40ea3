/-
# Parsers over tokens

A parser takes what it recognises off the front of a token list and may note diagnostics on the
way.  It can give up, and it can run out of tokens: a list is expected to hold a token for the
end of input, and reading past its last token is an outcome of its own.
-/
import Script.Diagnostic
import Script.Tree

namespace Script

/-! ## 1. Outcomes -/

/-- The outcome of a parser. -/
inductive Parsed (α : Type) where
  /-- A result, the tokens after it and the diagnostics noted. -/
  | done (value : α) (rest : List Token) (notes : List Diagnostic)
  /-- The parser gave up in front of `rest`; the reason is the last diagnostic. -/
  | failed (rest : List Token) (notes : List Diagnostic)
  /-- A token was needed after the last one. -/
  | ranOut

namespace Parsed

variable {α : Type}

/-- Puts earlier diagnostics in front. -/
def noted (earlier : List Diagnostic) : Parsed α → Parsed α
  | .done value rest notes => .done value rest (earlier ++ notes)
  | .failed rest notes => .failed rest (earlier ++ notes)
  | .ranOut => .ranOut

end Parsed

/-- A parser is a function of the tokens in front of it. -/
def Parser (α : Type) : Type := List Token → Parsed α

namespace Parser

variable {α β : Type}

/-- Takes nothing. -/
protected def pure (a : α) : Parser α := fun ts => .done a ts []

/-- One parser after another, which may depend on the first result. -/
protected def bind (p : Parser α) (f : α → Parser β) : Parser β := fun ts =>
  match p ts with
  | .done a rest notes => (f a rest).noted notes
  | .failed rest notes => .failed rest notes
  | .ranOut => .ranOut

instance : Monad Parser where
  pure := Parser.pure
  bind := Parser.bind

/-! ## 2. Single tokens -/

/-- The next token, which stays. -/
def peek : Parser Token
  | [] => .ranOut
  | t :: rest => .done t (t :: rest) []

/-- Notes a problem at a token and goes on. -/
def note (t : Token) (p : Problem) : Parser Unit := fun ts =>
  .done () ts [.atToken t p.message]

/-- Gives up because of a problem at the next token. -/
def fail (p : Problem) : Parser α
  | [] => .ranOut
  | t :: rest => .failed (t :: rest) [.atToken t p.message]

/-- Takes the next token if its kind is as asked for; the end is never taken. -/
def accept (wanted : Kind → Bool) : Parser (Option Token)
  | [] => .ranOut
  | t :: rest =>
    if t.kind != .eof && wanted t.kind then .done (some t) rest [] else .done none (t :: rest) []

/-- Takes a token of one kind, or gives up. -/
def expect (kind : Kind) (p : Problem) : Parser Token
  | [] => .ranOut
  | t :: rest =>
    if t.kind = kind then .done t rest [] else .failed (t :: rest) [.atToken t p.message]

/-- Whether the next token is of one kind. -/
def ahead (kind : Kind) : Parser Bool
  | [] => .ranOut
  | t :: rest => .done (t.kind == kind) (t :: rest) []

/-! ## 3. Repetition -/

/-- Runs a loop that takes at least one token each time round.  The tokens in front of it are
also its clock: one is struck off each time, so the clock never runs out before the tokens. -/
def clocked (loop : (clock : List Token) → Parser α) : Parser α := fun ts => loop ts ts

/-- Left-associative operators: each operator and operand is joined to what stands before. -/
def chainFrom (isOperator : Kind → Bool) (join : Tree → Token → Tree → Tree)
    (operand : Parser Tree) : (clock : List Token) → (left : Tree) → Parser Tree
  | [], _ => fun _ => .ranOut
  | _ :: clock, left => do
    match ← accept isOperator with
    | none => pure left
    | some operator =>
      let right ← operand
      chainFrom isOperator join operand clock (join left operator right)

/-- An operand and the operators and operands after it. -/
def chain (isOperator : Kind → Bool) (join : Tree → Token → Tree → Tree)
    (operand : Parser Tree) : Parser Tree := do
  let first ← operand
  clocked fun clock => chainFrom isOperator join operand clock first

/-- More items have this note, though they are kept. -/
def mostItems : Nat := 255

/-- Items with commas between them, of which `before` were read; every item beyond `mostItems`
is noted at its first token. -/
def itemsFrom (item : Parser α) (tooMany : Problem) : (clock : List Token) →
    (before : Nat) → Parser (List α)
  | [], _ => fun _ => .ranOut
  | _ :: clock, before => do
    if mostItems ≤ before then note (← peek) tooMany
    let first ← item
    match ← accept (· == .comma) with
    | none => pure [first]
    | some _ =>
      let more ← itemsFrom item tooMany clock (before + 1)
      pure (first :: more)

/-- Items with commas between them up to a closing parenthesis, which is taken; there may be
none. -/
def parenthesised (item : Parser α) (tooMany unclosed : Problem) : Parser (List α × Token) := do
  let items ← if ← ahead .rightParen then pure []
    else clocked fun clock => itemsFrom item tooMany clock 0
  let paren ← expect .rightParen unclosed
  pure (items, paren)

end Parser

end Script
