/-
# Evaluation

Expressions evaluate to values, statements are executed for what they change.  A call runs in a
scope of its own whose only outer scope is the globals, whoever calls and wherever the function
was declared; it gives null.

`fuel` bounds how many evaluations lie inside one another or follow in one loop or list, so that
every run has an outcome; a run that has used it up says so, and says nothing else.  `room` is
how many calls may still nest.

There is one evaluator for all runs.  It tells a HOOK what it is about to do, and the hook may do
anything: log, change the machine, or stop the run.  A program is run with the hook that does
nothing.
-/
import Script.Machine

namespace Script.Eval

/-! ## 1. Hooks -/

/-- A moment of a run that a hook is told. -/
inductive Moment where
  /-- A value is about to be bound to a name, or to be printed. -/
  | value (v : Value)
  /-- The scope of a block is open.  The nodes that enclose the block come with the innermost first,
  out to the function that is being called or to the top of the program. -/
  | block (enclosing : List Tree) (block : Tree)

/-- What is done at the moments of a run. -/
abbrev Hook := Moment → Eval Unit

/-- Does nothing. -/
def Hook.pass : Hook := fun _ => pure ()

/-! ## 2. Parts of the evaluator -/

/-- Binds parameters to arguments, as far as both go. -/
def defineAllWith (hook : Hook) : (params : List Tree) → (args : List Value) → Eval Unit
  | param :: params, arg :: args => do
    let name ← token param
    hook (.value arg)
    define name arg
    defineAllWith hook params args
  | _, _ => pure ()

/-- A call counts its arguments, and only then runs anything. -/
def countedCall (f : Value) (args : List Value) (paren : Tree) (enter : Eval Value) :
    Eval Value := do
  let expected ← arity paren f
  if (args.length : Int) != expected then
    raise (← token paren) (.wrongCount expected args.length)
  else enter

/-- What a call does once its arguments are counted: `bind` gives the parameters their values, and
`run` runs the body with room for a number of calls. -/
def enterCall (s : Setup) (bind : List Tree → List Value → Eval Unit)
    (run : (room : Nat) → List Tree → Eval Unit) (room : Nat) (f : Value) (args : List Value)
    (paren : Tree) : Eval Value := do
  trace s 3 ("call " ++ f.inspect ++ " with " ++ Decimal.ofInt args.length ++ " argument(s)")
  match f with
  | .function _ _ params body =>
    match room with
    | 0 => raise (← token paren) .stackOverflow
    | room + 1 =>
      inScope globals do
        bind (← items params) args
        run room (← items body)
      pure .null
  | .native _ _ _ (some answer) => pure answer
  | .native _ _ _ none => readClock s
  | _ => fault .noArity

/-- The function that a call of a value enters, as the statement that declares it. -/
def home : Value → List Tree
  | .function _ name params body => [.function (.token name) params body]
  | _ => []

/-- Runs a block in a scope of its own within the active one. -/
def inBlock {α : Type} (s : Setup) (body : Eval α) : Eval α := do
  let m ← get
  trace s 3 ("enter block at depth " ++ Decimal.ofInt (m.store.depth m.active + 1))
  inScope m.active body

/-- The value that a declared name starts with. -/
def initialValue (evaluate : Tree → Eval Value) : (initializer : Tree) → Eval Value
  | .null => pure .null
  | initializer => evaluate initializer

/-- The statement of an `else`, if there is one. -/
def otherwise (execute : Tree → Eval Unit) : (elseBranch : Tree) → Eval Unit
  | .null => pure ()
  | elseBranch => execute elseBranch

/-! ## 3. The evaluator -/

mutual

/-- Evaluates an expression. -/
def evaluateWith (hook : Hook) (s : Setup) : (fuel room : Nat) → Tree → Eval Value
  | 0, _, _ => throw .outOfSteps
  | fuel + 1, room, t =>
    match t with
    | .literal value => pure (.ofTree value)
    | .grouping inner => evaluateWith hook s fuel room inner
    | .variable name => do lookup (← token name)
    | .assign name value => do
      let v ← evaluateWith hook s fuel room value
      let name ← token name
      hook (.value v)
      assign name v
      pure v
    | .unary operator right => do
      let v ← evaluateWith hook s fuel room right
      let operator ← token operator
      operate operator (v.unary operator)
    | .logical left operator right => do
      let v ← evaluateWith hook s fuel room left
      let operator ← token operator
      -- `or` is decided by a true operand, `and` by a false one
      if v.truthy == (operator.kind == .orWord) then pure v
      else evaluateWith hook s fuel room right
    | .ternary condition thenBranch elseBranch => do
      let v ← evaluateWith hook s fuel room condition
      if v.truthy then evaluateWith hook s fuel room thenBranch
      else evaluateWith hook s fuel room elseBranch
    | .binary left operator right => do
      let a ← evaluateWith hook s fuel room left
      let b ← evaluateWith hook s fuel room right
      let operator ← token operator
      operate operator (Value.binary operator a b)
    | .call callee paren arguments => do
      let f ← evaluateWith hook s fuel room callee
      let args ← evaluateAllWith hook s fuel room (← items arguments)
      callWith hook s fuel room f args paren
    | other => fault (.notExpression other.fullTypeName)

/-- Evaluates expressions from left to right. -/
def evaluateAllWith (hook : Hook) (s : Setup) : (fuel room : Nat) → List Tree →
    Eval (List Value)
  | 0, _, _ => throw .outOfSteps
  | _ + 1, _, [] => pure []
  | fuel + 1, room, t :: rest => do
    let v ← evaluateWith hook s fuel room t
    let more ← evaluateAllWith hook s fuel room rest
    pure (v :: more)

/-- Calls a value; errors point at the closing parenthesis. -/
def callWith (hook : Hook) (s : Setup) : (fuel room : Nat) → Value → List Value →
    (paren : Tree) → Eval Value
  | 0, _, _, _, _ => throw .outOfSteps
  | fuel + 1, room, f, args, paren =>
    countedCall f args paren (enterCall s (defineAllWith hook)
      (fun room body => executeAllWith hook s fuel room (home f) body) room f args paren)

/-- Executes a statement that some nodes enclose. -/
def executeWith (hook : Hook) (s : Setup) : (fuel room : Nat) → (enclosing : List Tree) → Tree →
    Eval Unit
  | 0, _, _, _ => throw .outOfSteps
  | fuel + 1, room, enclosing, t =>
    match t with
    | .expression inner => do
      let _ ← evaluateWith hook s fuel room inner
    | .print inner => do
      let v ← evaluateWith hook s fuel room inner
      hook (.value v)
      print v.display
    | .letDecl name initializer => do
      let v ← initialValue (evaluateWith hook s fuel room) initializer
      let name ← token name
      hook (.value v)
      define name v
      trace s 2 ("declare " ++ name.lexeme ++ ": " ++ v.typeName ++ " = " ++ v.display)
    | .block statements =>
      inBlock s do
        hook (.block enclosing (.block statements))
        executeAllWith hook s fuel room (.block statements :: enclosing) (← items statements)
    | .ifElse condition thenBranch elseBranch => do
      let v ← evaluateWith hook s fuel room condition
      trace s 3 ("if condition " ++ v.display ++ " -> " ++ (Datum.bool v.truthy).text)
      let enclosing := .ifElse condition thenBranch elseBranch :: enclosing
      if v.truthy then executeWith hook s fuel room enclosing thenBranch
      else otherwise (executeWith hook s fuel room enclosing) elseBranch
    | .whileLoop condition body =>
      repeatWhileWith hook s fuel room (.whileLoop condition body :: enclosing) condition body
    | .function name params body => do
      let token ← token name
      let v := .function (← identity) token params body
      hook (.value v)
      define token v
      trace s 2 ("define function " ++ token.lexeme)
    | other => fault (.notStatement other.fullTypeName)

/-- Executes a statement as long as a condition holds. -/
def repeatWhileWith (hook : Hook) (s : Setup) : (fuel room : Nat) → (enclosing : List Tree) →
    (condition body : Tree) → Eval Unit
  | 0, _, _, _, _ => throw .outOfSteps
  | fuel + 1, room, enclosing, condition, body => do
    let v ← evaluateWith hook s fuel room condition
    if v.truthy then
      executeWith hook s fuel room enclosing body
      repeatWhileWith hook s fuel room enclosing condition body
    else pure ()

/-- Executes statements in order. -/
def executeAllWith (hook : Hook) (s : Setup) : (fuel room : Nat) → (enclosing : List Tree) →
    List Tree → Eval Unit
  | 0, _, _, _ => throw .outOfSteps
  | _ + 1, _, _, [] => pure ()
  | fuel + 1, room, enclosing, t :: rest => do
    executeWith hook s fuel room enclosing t
    executeAllWith hook s fuel room enclosing rest

end

/-! ## 4. Runs without a hook -/

/-- Binds parameters to arguments, as far as both go. -/
def defineAll (params : List Tree) (args : List Value) : Eval Unit :=
  defineAllWith .pass params args

variable (s : Setup) (fuel room : Nat)

/-- Evaluates an expression. -/
def evaluate (t : Tree) : Eval Value := evaluateWith .pass s fuel room t

/-- Evaluates expressions from left to right. -/
def evaluateAll (ts : List Tree) : Eval (List Value) := evaluateAllWith .pass s fuel room ts

/-- Calls a value; errors point at the closing parenthesis. -/
def call (f : Value) (args : List Value) (paren : Tree) : Eval Value :=
  callWith .pass s fuel room f args paren

/-- Executes a statement. -/
def execute (t : Tree) : Eval Unit := executeWith .pass s fuel room [] t

/-- Executes a statement as long as a condition holds. -/
def repeatWhile (condition body : Tree) : Eval Unit :=
  repeatWhileWith .pass s fuel room [] condition body

/-- Executes statements in order. -/
def executeAll (ts : List Tree) : Eval Unit := executeAllWith .pass s fuel room [] ts

end Script.Eval
