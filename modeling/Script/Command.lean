/-
# The command

What a request does: it reads at most one file, runs or writes a program, and leaves a transcript
of what it showed and wrote.  Files are looked up through a function, so the command itself
touches nothing.
-/
import Script.Command.Folder
import Script.Command.Request
import Script.Datum.Printer
import Script.Datum.Reader
import Script.Session
import Script.Text.Lines

namespace Script

/-- Why a command breaks off without a word of its own. -/
inductive Failure where
  /-- A file is no text. -/
  | notText
  /-- A document is no data. -/
  | notData (e : Datum.ReadError)
  /-- A directory stands where a file is read or written. -/
  | isDirectory
  /-- A name or a path is too long. -/
  | tooLong
  /-- A document is no program, in a way that is not reported. -/
  | document (e : DocumentError)
  /-- A run stopped. -/
  | stopped (s : Stop)

/-- What a command did. -/
structure Transcript where
  exit : Nat
  stdout : String
  stderr : String
  /-- The files it wrote, with their texts. -/
  writes : List (Path × String)
  failure : Option Failure

namespace Transcript

/-- A command that did nothing. -/
def silent : Transcript := ⟨0, "", "", [], none⟩

/-- A command that shows an error and gives up. -/
def rejected (stderr : String) : Transcript := { silent with exit := 1, stderr }

/-- A command that breaks off. -/
def broken (f : Failure) : Transcript := { silent with exit := 1, failure := some f }

end Transcript

namespace Command

/-- Sources end with this. -/
def sourceSuffix : String := ".vyx"

/-- Where a run is traced. -/
def traceFile : Path := ⟨"", ["debug.txt"]⟩

/-- Where the document of a source is written. -/
def documentFile (source : Path) : Path := source.extend ".ast.json"

/-! ## 1. Reading -/

/-- The text of a file that has to be there. -/
def readText (look : Path → Entry) (p : Path) : Except Transcript String :=
  match look p with
  | .absent => .error (.rejected ("Error: file " ++ p.text ++ " not found\n"))
  | .directory => .error (.broken .isDirectory)
  | .tooLong => .error (.broken .tooLong)
  | .file bytes =>
    match Text.ofBytes? bytes with
    | some text => .ok text
    | none => .error (.broken .notText)

/-- The text of a source, whose name has to say that it is one. -/
def readSource (look : Path → Entry) (p : Path) : Except Transcript String :=
  if p.suffix = sourceSuffix then readText look p
  else .error (.rejected ("Error: file must have a " ++ sourceSuffix ++ " extension.\n"))

/-- Whether loading reports an error itself. -/
def isReported : DocumentError → Bool
  | .notObject _ | .tooLarge => false
  | _ => true

/-- The program of a document. -/
def readDocument (look : Path → Entry) (p : Path) : Except Transcript (List Tree) := do
  let text ← readText look p
  match Datum.ofText text with
  | .error e => .error (.broken (.notData e))
  | .ok d =>
    match Document.toProgram d with
    | .ok statements => .ok statements
    | .error e =>
      if isReported e then .error (.rejected ("Error: invalid AST file: " ++ e.message ++ "\n"))
      else .error (.broken (.document e))

/-! ## 2. Running -/

/-- A session whose errors all go to one reporter. -/
def newSession (level : Nat) : Session := .start level (some .fresh) .shared

/-- What the reporter showed. -/
def reported (s : Session) : String := (s.reporter.map (·.shown)).getD ""

/-- Whether the trace of a run cannot be written. -/
def traceBlocked (look : Path → Entry) (level : Nat) : Bool :=
  0 < level && (look traceFile matches .directory)

/-- The trace file of a run, if there is one. -/
def traceWrites (level : Nat) (text : String) : List (Path × String) :=
  if level = 0 then [] else [(traceFile, text)]

/-- The transcript of a run that a session made. -/
def ranTranscript (s : Session) (o : Outcome) : Transcript where
  exit := if o.diagnostics.isEmpty && o.errors.isEmpty && o.stop.isNone then 0 else 1
  stdout := s.output o.events
  stderr := reported s
  writes := traceWrites s.level (s.trace o.events)
  failure := o.stop.map .stopped

/-- Runs a document. -/
def runDocument (limits : Limits) (clock : Nat → Float) (look : Path → Entry) (level : Nat)
    (p : Path) : Transcript :=
  match readDocument look p with
  | .error t => t
  | .ok statements =>
    if traceBlocked look level then .broken .isDirectory
    else
      let (o, s) := (newSession level).runStatements limits clock statements
      ranTranscript s o

/-- Runs a source.  The trace file is there even if the source is not. -/
def runProgram (limits : Limits) (clock : Nat → Float) (look : Path → Entry) (level : Nat)
    (p : Path) : Transcript :=
  if traceBlocked look level then .broken .isDirectory
  else
    match readSource look p with
    | .error t => { t with writes := traceWrites level "" }
    | .ok source =>
      let (o, s) := (newSession level).runSource limits clock source
      ranTranscript s o

/-- Writes the document of a source. -/
def emit (limits : Limits) (look : Path → Entry) (p : Path) : Transcript :=
  match readSource look p with
  | .error t => t
  | .ok source =>
    let program := Program.ofSource limits.nesting source
    if !program.errors.isEmpty then .rejected (program.errors.foldl Reporter.report .fresh).shown
    else
      let target := documentFile p
      match look target with
      | .directory => .broken .isDirectory
      | .tooLong => .broken .tooLong
      | .absent | .file _ =>
        { Transcript.silent with
          stdout := target.text ++ "\n"
          writes := [(target, (Document.ofProgram program.statements).toText)] }

/-! ## 3. The prompt -/

/-- What asks for a line. -/
def promptText : String := "> "

/-- Runs one line; errors on a line do not touch the next. -/
def runLine (limits : Limits) (clock : Nat → Float) (s : Session) (line : String) :
    Outcome × Session :=
  s.reset.runSource limits clock line

/-- What the lines of a prompt did, before a line that was not read yet. -/
structure Prompted where
  session : Session
  events : List Event
  stdout : String
  stop : Option Stop

/-- Asks for lines until one is empty or there are no more. -/
def prompt (limits : Limits) (clock : Nat → Float) (p : Prompted) : List String → Prompted
  | [] => { p with stdout := p.stdout ++ promptText }
  | line :: rest =>
    if line.isEmpty then { p with stdout := p.stdout ++ promptText }
    else
      let (o, session) := runLine limits clock p.session line
      let p : Prompted :=
        ⟨session, p.events ++ o.events, p.stdout ++ promptText ++ session.output o.events, o.stop⟩
      if o.stop.isSome then p else prompt limits clock p rest

/-- Runs a prompt on all of its input. -/
def runPrompt (limits : Limits) (clock : Nat → Float) (look : Path → Entry) (level : Nat)
    (input : String) : Transcript :=
  if traceBlocked look level then .broken .isDirectory
  else
    let lines := Text.linesOf (String.ofList (Text.unifyLineEnds input.toList))
    let p := prompt limits clock ⟨newSession level, [], "", none⟩ lines
    { exit := if p.stop.isNone then 0 else 1
      stdout := p.stdout
      stderr := reported p.session
      writes := traceWrites level (p.session.trace p.events)
      failure := p.stop.map .stopped }

/-! ## 4. Requests -/

/-- The paths that a request looks at. -/
def paths : Request → List Path
  | .help | .misuse _ => []
  | .emit path => [.ofString path, documentFile (.ofString path)]
  | .document _ path | .program _ path => [.ofString path, traceFile]
  | .prompt _ => [traceFile]

/-- Does what a request asks for. -/
def perform (limits : Limits) (clock : Nat → Float) (look : Path → Entry) (input : String) :
    Request → Transcript
  | .help => { Transcript.silent with stdout := Request.helpText }
  | .misuse message =>
    { Transcript.silent with exit := 2, stderr := Request.misuseText message }
  | .emit path => emit limits look (.ofString path)
  | .document level path => runDocument limits clock look level (.ofString path)
  | .program level path => runProgram limits clock look level (.ofString path)
  | .prompt level => runPrompt limits clock look level input

end Command

end Script
