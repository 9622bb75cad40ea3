/-
# The command line

Reads arguments, files and lines, and shows and writes what the command says.  A prompt is
answered line by line; everything else is one transcript.
-/
import Script.Command
import Std.Time.DateTime.Timestamp

namespace Script.Main

/-- What stands at a path on disk. -/
def lookUp (p : Path) : IO Entry := do
  if p.isLong || p.names.any Path.isLongName then return .tooLong
  try
    let handle ← IO.FS.Handle.mk p.text .read
    return .file (← handle.readBinToEnd)
  catch _ =>
    try
      let _ ← IO.FS.Handle.mk (p.text ++ "/.") .read
      return .directory
    catch _ => return .absent

/-- A clock that starts at the present moment and moves on by a microsecond with each reading. -/
def wallClock : IO (Nat → Float) := do
  let now ← Std.Time.Timestamp.now
  let start := Float.ofInt now.toNanosecondsSinceUnixEpoch.val / 1e9
  return fun n => start + n.toFloat / 1e6

/-- The line that tells why a command broke off. -/
def failureText : Failure → String
  | .notText => "Error: the file is not UTF-8 text\n"
  | .notData e => "Error: " ++ e.message ++ "\n"
  | .isDirectory => "Error: a directory stands in the way\n"
  | .tooLong => "Error: the name is too long\n"
  | .document e => "Error: " ++ e.message ++ "\n"
  | .stopped _ => "Error: the program could not go on\n"

/-- Shows and writes what a command did, and gives its exit code. -/
def replay (t : Transcript) : IO UInt32 := do
  for (path, text) in t.writes do
    IO.FS.writeFile path.text text
  IO.print t.stdout
  IO.eprint (t.stderr ++ (t.failure.map failureText).getD "")
  return t.exit.toUInt32

/-- The next lines of the input; none at its end. -/
def nextLines : IO (List String) := do
  let line ← (← IO.getStdin).getLine
  return Text.linesOf (String.ofList (Text.unifyLineEnds line.toList))

/-- Asks for lines and answers them until one is empty or there are no more.  Lines that were
read already come first. -/
partial def converse (trace : Option IO.FS.Handle) (session : Session) (read : List String) :
    IO UInt32 := do
  IO.print Command.promptText
  (← IO.getStdout).flush
  match ← if read.isEmpty then nextLines else pure read with
  | [] | "" :: _ => return 0
  | line :: rest =>
    let (outcome, session) := Command.runLine .standard (← wallClock)
      { session with reporter := some .fresh } line
    IO.print (session.output outcome.events)
    IO.eprint (Command.reported session)
    if let some handle := trace then
      handle.putStr (session.trace outcome.events)
      handle.flush
    match outcome.stop with
    | some stop =>
      IO.eprint (failureText (.stopped stop))
      return 1
    | none => converse trace session rest

/-- Does what a request asks for, on the files of the disk. -/
def serve (request : Request) : IO UInt32 := do
  let entries ← (Command.paths request).mapM fun p => return (p, ← lookUp p)
  let look p := (entries.lookup p).getD .absent
  match request with
  | .prompt level =>
    if Command.traceBlocked look level then replay (.broken .isDirectory)
    else
      let trace ← if level = 0 then pure none
        else some <$> IO.FS.Handle.mk Command.traceFile.text .write
      converse trace (Command.newSession level) []
  | request => replay (Command.perform .standard (← wallClock) look "" request)

end Script.Main

/-- The command line: runs a source or a document, writes a document, or prompts for lines. -/
def main (args : List String) : IO UInt32 :=
  Script.Main.serve (Script.Request.ofArguments args)
