/-
# Sessions

A session runs sources and documents one after another on one machine.  Errors go to reporters:
one belongs to the session, and the machine may share it, have one of its own, or have none.
Tracing goes to a trace file while that is open, and among the printed lines after.
-/
import Script.Eval
import Script.Parser.Statement

namespace Script

/-! ## 1. Running statements -/

/-- How running top-level statements on a state ends. -/
structure Ran (σ : Type) where
  /-- The errors of the statements that failed, in order. -/
  errors : List RuntimeError
  /-- Why not all statements were run, if so; never an error of the language. -/
  stop : Option Stop
  /-- The state that is left. -/
  state : σ

/-- Runs top-level statements.  An error ends the statement it arises in; `failed` says what becomes
of the state then, and the next statement is run all the same. -/
def runAll {σ : Type} (execute : Tree → EStateM Stop σ Unit) (failed : RuntimeError → σ → σ)
    (state : σ) : List Tree → Ran σ
  | [] => ⟨[], none, state⟩
  | t :: rest =>
    match execute t state with
    | .ok () state => runAll execute failed state rest
    | .error (.error e) state =>
      let ran := runAll execute failed (failed e state) rest
      { ran with errors := e :: ran.errors }
    | .error stop state => ⟨[], some stop, state⟩

/-- The line that is traced for an error. -/
def RuntimeError.traceLine (e : RuntimeError) : String :=
  "runtime error at line " ++ e.token.line.text ++ ": " ++ e.message

/-- Logs a line if anything is traced. -/
def Machine.traced (m : Machine) (s : Setup) (line : String) : Machine :=
  if 1 ≤ s.level then { m with log := .traced line :: m.log } else m

/-! ## 2. Reporters -/

/-- Where errors are shown, and kept until a reset. -/
structure Reporter where
  diagnostics : List Diagnostic
  errors : List RuntimeError
  /-- All that was ever shown. -/
  shown : String

namespace Reporter

/-- A reporter that has seen nothing. -/
def fresh : Reporter := ⟨[], [], ""⟩

/-- Shows and keeps a diagnostic. -/
def report (r : Reporter) (d : Diagnostic) : Reporter :=
  { r with diagnostics := r.diagnostics ++ [d], shown := r.shown ++ (d.text ++ "\n") }

/-- Shows and keeps an error of a run. -/
def reportRuntime (r : Reporter) (e : RuntimeError) : Reporter :=
  { r with errors := r.errors ++ [e], shown := r.shown ++ (e.text ++ "\n") }

/-- Forgets what was kept. -/
def reset (r : Reporter) : Reporter := { r with diagnostics := [], errors := [] }

end Reporter

/-- The reporter of the machine. -/
inductive InnerReporter where
  /-- None. -/
  | silent
  /-- That of the session. -/
  | shared
  /-- One of its own. -/
  | own (r : Reporter)

/-! ## 3. Sessions -/

/-- A machine with its reporters and its trace. -/
structure Session where
  machine : Machine
  /-- How much is traced. -/
  level : Nat
  /-- Whether the trace file is open. -/
  tracing : Bool
  reporter : Option Reporter
  inner : InnerReporter

/-- What running a source finds and does. -/
structure Outcome where
  diagnostics : List Diagnostic
  errors : List RuntimeError
  stop : Option Stop
  /-- What the program printed and the trace said, in order. -/
  events : List Event

namespace Session

/-- A new session; it has a trace if there is anything to trace. -/
def start (level : Nat) (reporter : Option Reporter) (inner : InnerReporter) : Session where
  machine := .initial
  level := level
  tracing := 0 < level
  reporter := reporter
  inner := inner

/-- Tells the machine's reporter an error. -/
def reportInner (s : Session) (e : RuntimeError) : Session :=
  match s.inner with
  | .silent => s
  | .shared => { s with reporter := s.reporter.map (·.reportRuntime e) }
  | .own r => { s with inner := .own (r.reportRuntime e) }

/-- Tells the session's reporter an error, unless the machine shares it. -/
def reportOuter (s : Session) (e : RuntimeError) : Session :=
  match s.inner with
  | .shared => s
  | _ => { s with reporter := s.reporter.map (·.reportRuntime e) }

/-- Executes a statement on the machine of a session. -/
def execute (limits : Limits) (clock : Nat → Float) (t : Tree) :
    EStateM Stop Session Unit := fun s =>
  match Eval.execute ⟨s.level, clock⟩ limits.steps limits.calls t s.machine with
  | .ok () m => .ok () { s with machine := m }
  | .error stop m => .error stop { s with machine := m }

/-- An error that ends a statement is traced and reported at once. -/
def failed (clock : Nat → Float) (e : RuntimeError) (s : Session) : Session :=
  { s with machine := s.machine.traced ⟨s.level, clock⟩ e.traceLine }.reportInner e

/-- Runs statements on the machine of a session. -/
def interpret (limits : Limits) (clock : Nat → Float) (s : Session) (statements : List Tree) :
    Ran Session :=
  runAll (execute limits clock) (failed clock) s statements

/-- Runs statements; what they log is taken off the machine. -/
def runStatements (limits : Limits) (clock : Nat → Float) (s : Session) (statements : List Tree) :
    Outcome × Session :=
  let ran := { s with machine := { s.machine with log := [] } }.interpret limits clock statements
  (⟨[], ran.errors, ran.stop, ran.state.machine.events⟩,
    { ran.state with machine := { ran.state.machine with log := [] } })

/-- Runs a source.  If there is anything wrong with it, it is reported and nothing is run. -/
def runSource (limits : Limits) (clock : Nat → Float) (s : Session) (source : String) :
    Outcome × Session :=
  let p := Program.ofSource limits.nesting source
  let s := { s with reporter := s.reporter.map (p.errors.foldl Reporter.report) }
  if p.errors.isEmpty then
    let (outcome, s) := s.runStatements limits clock p.statements
    (outcome, if outcome.stop.isNone then outcome.errors.foldl reportOuter s else s)
  else (⟨p.errors, [], none, []⟩, s)

/-- Forgets what the session's reporter kept. -/
def reset (s : Session) : Session := { s with reporter := s.reporter.map (·.reset) }

/-- Closes the trace file. -/
def close (s : Session) : Session := { s with tracing := false }

/-! ## 4. Text -/

/-- What was printed: the program's lines, and those of the trace if it has no file. -/
def output (s : Session) (events : List Event) : String :=
  String.join (events.map fun
    | .printed line => line ++ "\n"
    | .traced line => if s.tracing then "" else line ++ "\n")

/-- What was written to the trace file. -/
def trace (s : Session) (events : List Event) : String :=
  String.join (events.map fun
    | .printed _ => ""
    | .traced line => if s.tracing then line ++ "\n" else "")

/-- The global names with their values, in the order of their definition. -/
def globalBindings (s : Session) : List (String × Value) := s.machine.store.bindings globals

end Session

end Script
