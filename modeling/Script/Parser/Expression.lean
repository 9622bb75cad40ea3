/-
# Expressions

From the loosest to the tightest binding: assignment, `?:`, ternary, `or`, `and`, equality,
comparison, sums, products, signs, calls, primaries.  Every level is written in terms of the
parsers one nesting level down; `expressionAt` closes the knot and gives up beyond a depth.
-/
import Script.Parser

namespace Script.Parser

/-- The places where an expression contains a whole one again. -/
inductive Inner where
  | expression
  | ternary
  | unary

/-- The parsers one nesting level down. -/
abbrev Nested := Inner → Parser Tree

/-! ## 1. Primaries, calls and signs -/

/-- The expression that a single token is. -/
def atom? (t : Token) : Option Tree :=
  match t.kind with
  | .falseWord => some (.literal (.bool false))
  | .trueWord => some (.literal (.bool true))
  | .nullWord => some (.literal .null)
  | .number | .string => some (.literal (.ofLiteral t.literal))
  | .identifier => some (.variable (.token t))
  | _ => none

/-- Takes a single token that is an expression. -/
def atom : Parser (Option Tree)
  | [] => .ranOut
  | t :: rest =>
    match atom? t with
    | some tree => .done (some tree) rest []
    | none => .done none (t :: rest) []

/-- A literal, a name or an expression in parentheses. -/
def primary (nested : Nested) : Parser Tree := do
  match ← atom with
  | some tree => pure tree
  | none =>
    match ← accept (· == .leftParen) with
    | some _ =>
      let inner ← nested .expression
      let _ ← expect .rightParen .noParenAfterExpression
      pure (.grouping inner)
    | none => fail .noExpression

/-- The calls that follow a callee. -/
def callsFrom (nested : Nested) : (clock : List Token) → (callee : Tree) → Parser Tree
  | [], _ => fun _ => .ranOut
  | _ :: clock, callee => do
    match ← accept (· == .leftParen) with
    | none => pure callee
    | some _ =>
      let (arguments, paren) ←
        parenthesised (nested .expression) .tooManyArguments .noParenAfterArguments
      callsFrom nested clock (.call callee (.token paren) (.seq arguments))

/-- A primary and the calls after it. -/
def call (nested : Nested) : Parser Tree := do
  let callee ← primary nested
  clocked fun clock => callsFrom nested clock callee

/-- Signs in front of a call. -/
def unary (nested : Nested) : Parser Tree := do
  match ← accept fun k => k == .bang || k == .minus with
  | some operator =>
    let right ← nested .unary
    pure (.unary (.token operator) right)
  | none => call nested

/-! ## 2. Operators between operands -/

/-- Joins two operands by an arithmetic, comparing or `?:` operator. -/
def joinBinary (left : Tree) (operator : Token) (right : Tree) : Tree :=
  .binary left (.token operator) right

/-- Joins two operands by `and` or `or`. -/
def joinLogical (left : Tree) (operator : Token) (right : Tree) : Tree :=
  .logical left (.token operator) right

/-- Products and quotients. -/
def factor (nested : Nested) : Parser Tree :=
  chain (fun k => k == .slash || k == .star) joinBinary (unary nested)

/-- Sums and differences. -/
def term (nested : Nested) : Parser Tree :=
  chain (fun k => k == .minus || k == .plus) joinBinary (factor nested)

/-- Comparisons by size. -/
def comparison (nested : Nested) : Parser Tree :=
  chain (fun k => k == .greater || k == .greaterEqual || k == .less || k == .lessEqual) joinBinary
    (term nested)

/-- Comparisons by equality. -/
def equality (nested : Nested) : Parser Tree :=
  chain (fun k => k == .bangEqual || k == .equalEqual) joinBinary (comparison nested)

/-- Conjunctions. -/
def conjunction (nested : Nested) : Parser Tree :=
  chain (· == .andWord) joinLogical (equality nested)

/-- Disjunctions. -/
def disjunction (nested : Nested) : Parser Tree :=
  chain (· == .orWord) joinLogical (conjunction nested)

/-- A choice between two branches; the second may be a choice again. -/
def ternary (nested : Nested) : Parser Tree := do
  let condition ← disjunction nested
  match ← accept (· == .question) with
  | none => pure condition
  | some _ =>
    let thenBranch ← nested .expression
    let _ ← expect .colon .noColon
    let elseBranch ← nested .ternary
    pure (.ternary condition thenBranch elseBranch)

/-- The first operand that is not null. -/
def elvis (nested : Nested) : Parser Tree := chain (· == .elvis) joinBinary (ternary nested)

/-- An assignment, or an expression that is none.  Only a name can be assigned to; any other
target is noted at the `=` and kept in place of the assignment. -/
def assignment (nested : Nested) : Parser Tree := do
  let target ← elvis nested
  match ← accept (· == .equal) with
  | none => pure target
  | some equals =>
    let value ← nested .expression
    match target with
    | .variable name => pure (.assign name value)
    | _ =>
      note equals .badTarget
      pure target

/-! ## 3. Nesting -/

/-- The parser of a place, in terms of those one level down. -/
def level (nested : Nested) : Inner → Parser Tree
  | .expression => assignment nested
  | .ternary => ternary nested
  | .unary => unary nested

/-- The parsers that may nest `depth` levels. -/
def nestedAt : (depth : Nat) → Nested
  | 0, _ => fail .nestedTooDeeply
  | depth + 1, place => level (nestedAt depth) place

/-- An expression of at most `depth` levels. -/
def expressionAt (depth : Nat) : Parser Tree := nestedAt depth .expression

end Script.Parser
