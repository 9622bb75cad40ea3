/-
# The grammar of the language

What token lists are programs, and which tree each of them stands for.  The rules say nothing
about how a list is read: no parser occurs here.

    program     = declaration*
    declaration = "fn" NAME "(" (NAME ("," NAME)*)? ")" "{" declaration* "}"
                | "let" NAME ("=" expression)? ";"
                | statement
    statement   = "for" "(" (";" | "let" NAME ("=" expression)? ";" | expression ";")
                    expression? ";" expression? ")" statement
                | "if" "(" expression ")" statement ("else" statement)?
                | "print" "(" expression ")" ";"
                | "while" "(" expression ")" statement
                | "{" declaration* "}"
                | expression ";"
    expression  = NAME "=" expression | elvis
    elvis       = ternary ("?:" ternary)*
    ternary     = or ("?" expression ":" ternary)?
    or, and, equality, comparison, term, factor: chains of operators, grouped to the left
    unary       = ("!" | "-") unary | call
    call        = primary ("(" (expression ("," expression)*)? ")")*
    primary     = "false" | "true" | "null" | NUMBER | STRING | NAME | "(" expression ")"

A call has at most 255 arguments and a function at most 255 parameters.  An `else` belongs to the
nearest `if` that can have it: a statement that ends with an `if` without `else` is OPEN, and no
open statement stands in front of an `else`.
-/
import Script.Tree

namespace Script.Grammar

/-! ## 1. Expressions -/

/-- The levels of expressions, from the loosest to the tightest binding. -/
inductive Level where
  | assignment | elvis | ternary | disjunction | conjunction | equality | comparison | term | factor
  | unary | call | primary
  deriving DecidableEq

namespace Level

/-- The next tighter level, of which the operands of a level are. -/
def tighter? : Level → Option Level
  | .assignment => some .elvis
  | .elvis => some .ternary
  | .ternary => some .disjunction
  | .disjunction => some .conjunction
  | .conjunction => some .equality
  | .equality => some .comparison
  | .comparison => some .term
  | .term => some .factor
  | .factor => some .unary
  | .unary => some .call
  | .call => some .primary
  | .primary => none

/-- The operators that stand between two operands of a level. -/
def operators : Level → List Kind
  | .elvis => [.elvis]
  | .disjunction => [.orWord]
  | .conjunction => [.andWord]
  | .equality => [.bangEqual, .equalEqual]
  | .comparison => [.greater, .greaterEqual, .less, .lessEqual]
  | .term => [.minus, .plus]
  | .factor => [.slash, .star]
  | _ => []

/-- The tree of an operator between two operands. -/
def join (l : Level) (left : Tree) (operator : Token) (right : Tree) : Tree :=
  match l with
  | .disjunction | .conjunction => .logical left (.token operator) right
  | _ => .binary left (.token operator) right

/-- From the tightest level to the loosest. -/
theorem looser_induction {P : Level → Prop} (primary : P .primary)
    (looser : ∀ {l m : Level}, l.tighter? = some m → P m → P l) (l : Level) : P l := by
  have call : P .call := looser rfl primary
  have unary : P .unary := looser rfl call
  have factor : P .factor := looser rfl unary
  have term : P .term := looser rfl factor
  have comparison : P .comparison := looser rfl term
  have equality : P .equality := looser rfl comparison
  have conjunction : P .conjunction := looser rfl equality
  have disjunction : P .disjunction := looser rfl conjunction
  have ternary : P .ternary := looser rfl disjunction
  have elvis : P .elvis := looser rfl ternary
  have assignment : P .assignment := looser rfl elvis
  cases l <;> assumption

end Level

/-- A call has no more arguments than this, and a function no more parameters. -/
def most : Nat := 255

/-- The parts of expressions that have rules of their own. -/
inductive Phrase where
  /-- An expression of a level. -/
  | level (l : Level)
  /-- What follows the operand `left` within an expression of a level. -/
  | tail (l : Level) (left : Tree)
  /-- Expressions with commas between them, one at least. -/
  | items
  /-- The arguments of a call. -/
  | arguments

/-- `Expression p ts tree`: the tokens `ts` are a phrase `p`, and `tree` is its tree.  The tree of
items and of arguments is a sequence. -/
inductive Expression : Phrase → List Token → Tree → Prop where
  | assign {name equals : Token} {ts : List Token} {value : Tree} :
    name.kind = .identifier → equals.kind = .equal → Expression (.level .assignment) ts value →
    Expression (.level .assignment) (name :: equals :: ts) (.assign (.token name) value)
  | operand {l m : Level} {us vs : List Token} {first tree : Tree} :
    l.tighter? = some m → Expression (.level m) us first → Expression (.tail l first) vs tree →
    Expression (.level l) (us ++ vs) tree
  | stop {l : Level} {left : Tree} : Expression (.tail l left) [] left
  | operator {l m : Level} {left right tree : Tree} {operator : Token} {us vs : List Token} :
    l.tighter? = some m → operator.kind ∈ l.operators → Expression (.level m) us right →
    Expression (.tail l (l.join left operator right)) vs tree →
    Expression (.tail l left) (operator :: (us ++ vs)) tree
  | choice {condition thenBranch elseBranch : Tree} {question colon : Token} {us vs : List Token} :
    question.kind = .question → Expression (.level .assignment) us thenBranch →
    colon.kind = .colon → Expression (.level .ternary) vs elseBranch →
    Expression (.tail .ternary condition) (question :: (us ++ colon :: vs))
      (.ternary condition thenBranch elseBranch)
  | call {callee arguments tree : Tree} {left right : Token} {us vs : List Token} :
    left.kind = .leftParen → Expression .arguments us arguments → right.kind = .rightParen →
    Expression (.tail .call (.call callee (.token right) arguments)) vs tree →
    Expression (.tail .call callee) (left :: (us ++ right :: vs)) tree
  | noArguments : Expression .arguments [] (.seq [])
  | someArguments {ts : List Token} {trees : List Tree} :
    Expression .items ts (.seq trees) → trees.length ≤ most → Expression .arguments ts (.seq trees)
  | oneItem {ts : List Token} {tree : Tree} :
    Expression (.level .assignment) ts tree → Expression .items ts (.seq [tree])
  | moreItems {us vs : List Token} {comma : Token} {tree : Tree} {trees : List Tree} :
    Expression (.level .assignment) us tree → comma.kind = .comma →
    Expression .items vs (.seq trees) → Expression .items (us ++ comma :: vs) (.seq (tree :: trees))
  | sign {operator : Token} {ts : List Token} {right : Tree} :
    operator.kind = .bang ∨ operator.kind = .minus → Expression (.level .unary) ts right →
    Expression (.level .unary) (operator :: ts) (.unary (.token operator) right)
  | falseWord {t : Token} : t.kind = .falseWord →
    Expression (.level .primary) [t] (.literal (.bool false))
  | trueWord {t : Token} : t.kind = .trueWord →
    Expression (.level .primary) [t] (.literal (.bool true))
  | nullWord {t : Token} : t.kind = .nullWord → Expression (.level .primary) [t] (.literal .null)
  | constant {t : Token} : t.kind = .number ∨ t.kind = .string →
    Expression (.level .primary) [t] (.literal (.ofLiteral t.literal))
  | name {t : Token} :
    t.kind = .identifier → Expression (.level .primary) [t] (.variable (.token t))
  | grouping {left right : Token} {ts : List Token} {inner : Tree} :
    left.kind = .leftParen → Expression (.level .assignment) ts inner → right.kind = .rightParen →
    Expression (.level .primary) (left :: (ts ++ [right])) (.grouping inner)

/-! ## 2. Phrases with the tree of a name -/

theorem Level.join_ne_variable (l : Level) (left right name : Tree) (operator : Token) :
    l.join left operator right ≠ .variable name := by
  cases l <;> rintro ⟨⟩

/-- What a phrase is whose tree is that of a name: an expression is the name alone, and nothing
follows an operand. -/
def NameAlone (name : Tree) (ts : List Token) : Phrase → Prop
  | .level _ => ∃ t, ts = [t] ∧ name = .token t ∧ t.kind = .identifier
  | .tail _ left => ts = [] ∧ left = .variable name
  | .items => False
  | .arguments => False

theorem Expression.of_variable {p : Phrase} {ts : List Token} {tree name : Tree}
    (h : Expression p ts tree) (htree : tree = .variable name) : NameAlone name ts p := by
  induction h with
  | operand _ _ _ ihfirst ihtail =>
    obtain ⟨rfl, hfirst⟩ := ihtail htree
    rw [List.append_nil]
    exact ihfirst hfirst
  | stop => exact ⟨rfl, htree⟩
  | operator _ _ _ _ _ ihtail =>
    exact absurd (ihtail htree).2 (Level.join_ne_variable _ _ _ _ _)
  | call _ _ _ _ _ ihtail => cases (ihtail htree).2
  | name hk =>
    cases htree
    exact ⟨_, rfl, rfl, hk⟩
  | _ => cases htree

/-- A name alone is an expression of every level. -/
theorem Expression.of_name {t : Token} (hk : t.kind = .identifier) (l : Level) :
    Expression (.level l) [t] (.variable (.token t)) := by
  induction l using Level.looser_induction with
  | primary => exact .name hk
  | looser hm ih => exact .operand hm ih .stop

/-! ## 3. Parts of statements -/

/-- An expression that may be missing. -/
inductive Optional : List Token → Option Tree → Prop where
  | absent : Optional [] none
  | present {ts : List Token} {tree : Tree} :
    Expression (.level .assignment) ts tree → Optional ts (some tree)

/-- What follows `let`: a name, its value if it has one, and a semicolon. -/
inductive Binding : List Token → Tree → Prop where
  | bare {name semicolon : Token} : name.kind = .identifier → semicolon.kind = .semicolon →
    Binding [name, semicolon] (.letDecl (.token name) .null)
  | initialized {name equals semicolon : Token} {ts : List Token} {tree : Tree} :
    name.kind = .identifier → equals.kind = .equal → Expression (.level .assignment) ts tree →
    semicolon.kind = .semicolon →
    Binding (name :: equals :: (ts ++ [semicolon])) (.letDecl (.token name) tree)

/-- The first clause of a `for` loop, with its semicolon. -/
inductive Initializer : List Token → Option Tree → Prop where
  | absent {semicolon : Token} : semicolon.kind = .semicolon → Initializer [semicolon] none
  | binding {word : Token} {ts : List Token} {tree : Tree} :
    word.kind = .letWord → Binding ts tree → Initializer (word :: ts) (some tree)
  | expression {ts : List Token} {tree : Tree} {semicolon : Token} :
    Expression (.level .assignment) ts tree → semicolon.kind = .semicolon →
    Initializer (ts ++ [semicolon]) (some (.expression tree))

/-- Names with commas between them, one at least. -/
inductive Names : List Token → List Token → Prop where
  | one {name : Token} : name.kind = .identifier → Names [name] [name]
  | more {name comma : Token} {ts names : List Token} :
    name.kind = .identifier → comma.kind = .comma → Names ts names →
    Names (name :: comma :: ts) (name :: names)

/-- The parameters of a function. -/
inductive Parameters : List Token → List Token → Prop where
  | none : Parameters [] []
  | some {ts names : List Token} : Names ts names → names.length ≤ most → Parameters ts names

/-- The loop that `for` stands for.  The increment runs after the body of a `while` loop, and the
initializer in front of it, in a block of its own; a missing condition is true. -/
def forTree : (initializer condition increment : Option Tree) → (body : Tree) → Tree
  | none, condition, none, body => .whileLoop (condition.getD (.literal (.bool true))) body
  | none, condition, some increment, body =>
    .whileLoop (condition.getD (.literal (.bool true)))
      (.block (.seq [body, .expression increment]))
  | some initializer, condition, none, body =>
    .block (.seq [initializer, .whileLoop (condition.getD (.literal (.bool true))) body])
  | some initializer, condition, some increment, body =>
    .block (.seq [initializer, .whileLoop (condition.getD (.literal (.bool true)))
      (.block (.seq [body, .expression increment]))])

/-! ## 4. Statements and programs -/

/-- The parts of programs that have rules of their own. -/
inductive Form where
  /-- Declarations one after another. -/
  | declarations
  | declaration
  /-- A statement; it is open if it ends with an `if` that has no `else`. -/
  | statement (isOpen : Bool)

/-- `Statement f ts tree`: the tokens `ts` have the form `f`, and `tree` is their tree.  The tree of
declarations is a sequence. -/
inductive Statement : Form → List Token → Tree → Prop where
  | none : Statement .declarations [] (.seq [])
  | more {us vs : List Token} {tree : Tree} {trees : List Tree} :
    Statement .declaration us tree → Statement .declarations vs (.seq trees) →
    Statement .declarations (us ++ vs) (.seq (tree :: trees))
  | function {word name leftParen rightParen leftBrace rightBrace : Token}
      {us vs params : List Token} {body : Tree} :
    word.kind = .fnWord → name.kind = .identifier → leftParen.kind = .leftParen →
    Parameters us params → rightParen.kind = .rightParen → leftBrace.kind = .leftBrace →
    Statement .declarations vs body → rightBrace.kind = .rightBrace →
    Statement .declaration
      (word :: name :: leftParen :: (us ++ rightParen :: leftBrace :: (vs ++ [rightBrace])))
      (.function (.token name) (.seq (params.map .token)) body)
  | binding {word : Token} {ts : List Token} {tree : Tree} :
    word.kind = .letWord → Binding ts tree → Statement .declaration (word :: ts) tree
  | statement {isOpen : Bool} {ts : List Token} {tree : Tree} :
    Statement (.statement isOpen) ts tree → Statement .declaration ts tree
  | forLoop {isOpen : Bool} {word leftParen semicolon rightParen : Token}
      {first second third ts : List Token} {initializer condition increment : Option Tree}
      {body : Tree} :
    word.kind = .forWord → leftParen.kind = .leftParen → Initializer first initializer →
    Optional second condition → semicolon.kind = .semicolon → Optional third increment →
    rightParen.kind = .rightParen → Statement (.statement isOpen) ts body →
    Statement (.statement isOpen)
      (word :: leftParen :: (first ++ (second ++ semicolon :: (third ++ rightParen :: ts))))
      (forTree initializer condition increment body)
  | ifThen {isOpen : Bool} {word leftParen rightParen : Token} {us vs : List Token}
      {condition thenBranch : Tree} :
    word.kind = .ifWord → leftParen.kind = .leftParen →
    Expression (.level .assignment) us condition → rightParen.kind = .rightParen →
    Statement (.statement isOpen) vs thenBranch →
    Statement (.statement true) (word :: leftParen :: (us ++ rightParen :: vs))
      (.ifElse condition thenBranch .null)
  | ifElse {isOpen : Bool} {word leftParen rightParen other : Token} {us vs ws : List Token}
      {condition thenBranch elseBranch : Tree} :
    word.kind = .ifWord → leftParen.kind = .leftParen →
    Expression (.level .assignment) us condition → rightParen.kind = .rightParen →
    Statement (.statement false) vs thenBranch → other.kind = .elseWord →
    Statement (.statement isOpen) ws elseBranch →
    Statement (.statement isOpen) (word :: leftParen :: (us ++ rightParen :: (vs ++ other :: ws)))
      (.ifElse condition thenBranch elseBranch)
  | print {word leftParen rightParen semicolon : Token} {ts : List Token} {tree : Tree} :
    word.kind = .printWord → leftParen.kind = .leftParen →
    Expression (.level .assignment) ts tree → rightParen.kind = .rightParen →
    semicolon.kind = .semicolon →
    Statement (.statement false) (word :: leftParen :: (ts ++ [rightParen, semicolon]))
      (.print tree)
  | whileLoop {isOpen : Bool} {word leftParen rightParen : Token} {us vs : List Token}
      {condition body : Tree} :
    word.kind = .whileWord → leftParen.kind = .leftParen →
    Expression (.level .assignment) us condition → rightParen.kind = .rightParen →
    Statement (.statement isOpen) vs body →
    Statement (.statement isOpen) (word :: leftParen :: (us ++ rightParen :: vs))
      (.whileLoop condition body)
  | block {leftBrace rightBrace : Token} {ts : List Token} {body : Tree} :
    leftBrace.kind = .leftBrace → Statement .declarations ts body → rightBrace.kind = .rightBrace →
    Statement (.statement false) (leftBrace :: (ts ++ [rightBrace])) (.block body)
  | expression {ts : List Token} {tree : Tree} {semicolon : Token} :
    Expression (.level .assignment) ts tree → semicolon.kind = .semicolon →
    Statement (.statement false) (ts ++ [semicolon]) (.expression tree)

/-- What follows `for`: the clauses in parentheses, each of which may be missing, and the body.  The
loop is open if its body is. -/
inductive ForRest (isOpen : Bool) :
    List Token → (initializer condition increment : Option Tree) → (body : Tree) → Prop where
  | clauses {leftParen semicolon rightParen : Token} {first second third ts : List Token}
      {initializer condition increment : Option Tree} {body : Tree} :
    leftParen.kind = .leftParen → Initializer first initializer → Optional second condition →
    semicolon.kind = .semicolon → Optional third increment → rightParen.kind = .rightParen →
    Statement (.statement isOpen) ts body →
    ForRest isOpen (leftParen :: (first ++ (second ++ semicolon :: (third ++ rightParen :: ts))))
      initializer condition increment body

/-- **Programs.**  `ts` is a sentence of the grammar, and `trees` are the trees of its
declarations. -/
def Sentence (ts : List Token) (trees : List Tree) : Prop :=
  Statement .declarations ts (.seq trees)

end Script.Grammar
