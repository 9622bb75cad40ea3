/-
# The machine

The state that a run changes, and the single steps it is made of.  A run does not print or write:
it logs events, and whoever started it turns them into text.
-/
import Script.Store
import Script.Value.Operators

namespace Script

/-! ## 1. State -/

/-- What a run lets the outside see. -/
inductive Event where
  /-- A line that the program printed. -/
  | printed (line : String)
  /-- A line that tells what the run is doing. -/
  | traced (line : String)
  deriving DecidableEq, Repr

/-- The state of a run. -/
structure Machine where
  store : Store
  /-- The scope that names are looked up from. -/
  active : ScopeId
  /-- The identity of the next function. -/
  fresh : Nat
  /-- How often the clock was read. -/
  readings : Nat
  /-- What happened, the latest first. -/
  log : List Event

/-- The outermost scope. -/
def globals : ScopeId := 0

namespace Machine

/-- The function that tells the time. -/
def clockFunction : Value := .native 0 "clock" 0 none

/-- A machine before its first run: the globals hold the library's functions. -/
def initial : Machine where
  store := ⟨#[⟨none, [("clock", clockFunction)]⟩]⟩
  active := globals
  fresh := 1
  readings := 0
  log := []

/-- What happened, in order. -/
def events (m : Machine) : List Event := m.log.reverse

/-- Adds a scope within another and makes it active. -/
def enter (m : Machine) (enclosing : ScopeId) : Machine :=
  let active := m.store.size
  { m with active, store := m.store.add (some enclosing) }

/-- Makes a scope active again and forgets those from number `size` on. -/
def leave (m : Machine) (active : ScopeId) (size : Nat) : Machine :=
  { m with active, store := m.store.keep size }

end Machine

/-- What a run is given and does not change. -/
structure Setup where
  /-- How much is traced: errors at 1, declarations at 2, blocks, conditions and calls at 3. -/
  level : Nat
  /-- What the clock shows at its readings. -/
  clock : Nat → Float

/-- How far a run may go. -/
structure Limits where
  /-- How deeply expressions and statements may nest. -/
  nesting : Nat
  /-- How deeply calls may nest. -/
  calls : Nat
  /-- How many steps may be taken inside one another or one after another in a loop. -/
  steps : Nat

/-- The limits of the command line; the last one is never reached in practice. -/
def Limits.standard : Limits := ⟨1000, 1000, Nat.pow 2 62⟩

/-! ## 2. Single steps -/

/-- Why a run stops before its end. -/
inductive Stop where
  | error (e : RuntimeError)
  | fault (f : Fault)
  | outOfSteps

/-- A step of a run: it changes the machine, and keeps the changes also when it stops. -/
abbrev Eval := EStateM Stop Machine

namespace Eval

variable {α : Type}

/-- Stops at an error of the language. -/
def raise (t : Token) (c : Cause) : Eval α := throw (.error ⟨t, c.message⟩)

/-- Stops at something that makes no sense. -/
def fault (f : Fault) : Eval α := throw (.fault f)

/-- The token that a tree has to be. -/
def token (t : Tree) : Eval Token :=
  match t.token? with
  | some t => pure t
  | none => fault .notToken

/-- The items of the sequence that a tree has to be. -/
def items (t : Tree) : Eval (List Tree) :=
  match t.items? with
  | some items => pure items
  | none => fault .notSequence

/-- The result of an operator at a token. -/
def operate (t : Token) : Except Refusal α → Eval α
  | .ok a => pure a
  | .error (.error c) => raise t c
  | .error (.fault f) => fault f

/-- Logs a line that the program prints. -/
def print (line : String) : Eval Unit := modify fun m => { m with log := .printed line :: m.log }

/-- Logs a line if tracing goes down to `level`. -/
def trace (s : Setup) (level : Nat) (line : String) : Eval Unit :=
  if level ≤ s.level then modify fun m => { m with log := .traced line :: m.log } else pure ()

/-- Binds a name in the active scope. -/
def define (name : Token) (v : Value) : Eval Unit := do
  let m ← get
  match m.store.define m.active name v with
  | .ok store => set { m with store }
  | .error e => throw (.error e)

/-- The value of a name. -/
def lookup (name : Token) : Eval Value := do
  let m ← get
  match m.store.get m.active name with
  | .ok v => pure v
  | .error e => throw (.error e)

/-- Gives a name a new value. -/
def assign (name : Token) (v : Value) : Eval Unit := do
  let m ← get
  match m.store.assign m.active name v with
  | .ok store => set { m with store }
  | .error e => throw (.error e)

/-- Leaves a scope, however the run in it ended. -/
def leave (active : ScopeId) (size : Nat) : EStateM.Result Stop Machine α →
    EStateM.Result Stop Machine α
  | .ok a m => .ok a (m.leave active size)
  | .error stop m => .error stop (m.leave active size)

/-- Runs with a new scope active.  However the run ends, the scope ends with it, and the one that
was active before is active again. -/
def inScope (enclosing : ScopeId) (body : Eval α) : Eval α := fun m =>
  leave m.active m.store.size (body (m.enter enclosing))

/-- A new identity. -/
def identity : Eval Nat := modifyGet fun m => (m.fresh, { m with fresh := m.fresh + 1 })

/-- What the clock shows. -/
def readClock (s : Setup) : Eval Value :=
  modifyGet fun m => (.num (s.clock m.readings), { m with readings := m.readings + 1 })

/-- How many arguments a value takes, if it can be called at all. -/
def arity (paren : Tree) : Value → Eval Int
  | .function _ _ params _ => do return (← items params).length
  | .native _ _ arity _ => pure arity
  | .bare _ => fault .noArity
  | _ => do raise (← token paren) .notCallable

end Eval

end Script
