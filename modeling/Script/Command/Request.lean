/-
# Requests

What the arguments of the command line ask for.  Options may stand before or after the program,
may be shortened as long as they stay unique, and may carry their argument after an equals sign.
-/
import Script.Text.Quoted
import Script.Text.Digits

namespace Script

/-- What to do, and how much to trace. -/
inductive Request where
  | help
  /-- The arguments make no sense. -/
  | misuse (message : String)
  /-- Write the document of a source. -/
  | emit (path : String)
  /-- Run a document. -/
  | document (level : Nat) (path : String)
  /-- Run a source. -/
  | program (level : Nat) (path : String)
  /-- Run lines as they come. -/
  | prompt (level : Nat)
  deriving DecidableEq, Repr

namespace Request

/-! ## 1. Words -/

/-- The options. -/
inductive Flag where
  | help
  | verbose
  | emit
  | document
  deriving DecidableEq, Repr

/-- The spellings of the options. -/
def spellings : List (String × Flag) :=
  [("-h", .help), ("--help", .help), ("-v", .verbose), ("--emit-ast", .emit), ("--ast", .document)]

/-- The option of a spelling. -/
def flag? (spelling : String) : Option Flag := spellings.lookup spelling

/-- An option's name in messages. -/
def Flag.name : Flag → String
  | .help => "-h/--help"
  | .verbose => "-v"
  | .emit => "--emit-ast"
  | .document => "--ast"

/-- An option as it was written, with the argument written to it. -/
structure Written where
  flag : Flag
  spelling : String
  argument : Option String

/-- What a word of the command line is. -/
inductive Word where
  | plain
  /-- Two dashes: no options follow. -/
  | divider
  | option (written : Written)
  | unknownOption

/-- What stands before and after the first equals sign. -/
def splitEquals (cs : List Char) : List Char × Option (List Char) :=
  match cs.span (· != '=') with
  | (before, []) => (before, none)
  | (before, _ :: after) => (before, some after)

/-- A word without the line feed at its very end. -/
def chomp (cs : List Char) : List Char :=
  if cs.getLast? = some '\n' then cs.dropLast else cs

/-- Whether a word is a negative decimal number, in the digits of any script; one line feed may
follow it. -/
def isNegativeNumber (cs : List Char) : Bool :=
  match chomp cs with
  | '-' :: cs =>
    match cs.span Text.isAnyDigit with
    | (whole, []) => !whole.isEmpty
    | (_, '.' :: fraction) => !fraction.isEmpty && fraction.all Text.isAnyDigit
    | _ => false
  | _ => false

/-- The options that a word may be short for. -/
def candidates (cs : List Char) : List Written :=
  match cs with
  | '-' :: '-' :: _ =>
    let (stem, argument) := splitEquals cs
    spellings.filterMap fun (spelling, flag) =>
      if stem.isPrefixOf spelling.toList then some ⟨flag, spelling, argument.map String.ofList⟩
      else none
  | a :: b :: more =>
    spellings.filterMap fun (spelling, flag) =>
      if spelling.toList = [a, b] then some ⟨flag, spelling, some (String.ofList more)⟩ else none
  | _ => []

/-- The option that a word spells out, with its argument if it has one. -/
def spelled? (cs : List Char) : Option Written :=
  match flag? (String.ofList cs) with
  | some flag => some ⟨flag, String.ofList cs, none⟩
  | none =>
    match splitEquals cs with
    | (stem, some argument) =>
      (flag? (String.ofList stem)).map fun flag =>
        ⟨flag, String.ofList stem, some (String.ofList argument)⟩
    | _ => none

/-- What a word is, or why it cannot be told. -/
def classify (word : String) : Except String Word :=
  let cs := word.toList
  match cs with
  | '-' :: _ :: _ =>
    match spelled? cs with
    | some written => .ok (.option written)
    | none =>
      match candidates cs with
      | [written] => .ok (.option written)
      | [] =>
        if isNegativeNumber cs || cs.contains ' ' then .ok .plain else .ok .unknownOption
      | several =>
        .error ("ambiguous option: " ++ word ++ " could match " ++
          ", ".intercalate (several.map (·.spelling)))
  | _ => .ok .plain

/-- What each word is; after a divider all are plain. -/
def classifyAll : List String → Except String (List (String × Word))
  | [] => .ok []
  | "--" :: rest => .ok (("--", .divider) :: rest.map fun word => (word, .plain))
  | word :: rest => do
    let first ← classify word
    let more ← classifyAll rest
    return (word, first) :: more

/-! ## 2. Gathering -/

/-- What the words so far amount to. -/
structure Gathered where
  level : Nat
  emit : Option String
  document : Option String
  program : Option String
  /-- Words that nothing takes. -/
  extras : List String

/-- Nothing gathered. -/
def Gathered.none : Gathered := ⟨0, .none, .none, .none, []⟩

/-- Why gathering ends early. -/
inductive Halt where
  | help
  | misuse (message : String)

/-- A complaint about an option. -/
def complain {α : Type} (flag : Flag) (message : String) : Except Halt α :=
  .error (.misuse ("argument " ++ flag.name ++ ": " ++ message))

/-- The options in a word of single letters: the first is given, the letters after it follow.
Each has to be an option that takes no argument; `n` bounds the letters. -/
def cluster : (n : Nat) → Flag → (letters : List Char) → Except Halt (List Flag)
  | _, flag, [] => .ok [flag]
  | 0, flag, _ => .ok [flag]
  | n + 1, flag, c :: rest =>
    match flag? (String.ofList ['-', c]) with
    | some next => do return flag :: (← cluster n next rest)
    | none =>
      complain flag ("ignored explicit argument " ++ Text.quoted (String.ofList (c :: rest)))

/-- Counts a `-v`, and stops for help. -/
def act (g : Gathered) : List Flag → Except Halt Gathered
  | [] => .ok g
  | .help :: _ => .error .help
  | _ :: rest => act { g with level := g.level + 1 } rest

/-- Takes an option that needs no argument. -/
def takeBare (g : Gathered) (w : Written) : Except Halt Gathered := do
  match w.argument with
  | none => act g [w.flag]
  | some argument =>
    if w.spelling.length = 2 && argument != "" then
      act g (← cluster argument.length w.flag argument.toList)
    else complain w.flag ("ignored explicit argument " ++ Text.quoted argument)

/-- Takes an option with its argument; a source and a document exclude each other. -/
def takeFile (g : Gathered) (flag : Flag) (path : String) : Except Halt Gathered :=
  let clash (other : Flag) : Except Halt Gathered :=
    complain flag ("not allowed with argument " ++ other.name)
  match flag with
  | .emit => if g.document.isSome then clash .document else .ok { g with emit := path }
  | _ => if g.emit.isSome then clash .emit else .ok { g with document := path }

/-- The path that is written to an option; two dashes there leave it empty. -/
def writtenPath (argument : String) : String := if argument = "--" then "" else argument

/-- Whether an option needs an argument. -/
def Flag.needsArgument : Flag → Bool
  | .help | .verbose => false
  | .emit | .document => true

/-- Goes through the words.  The program is the first plain word that no option takes; a divider
next to it belongs to it. -/
def gather (g : Gathered) : List (String × Word) → Except Halt Gathered
  | [] => .ok g
  | (word, .plain) :: rest =>
    match g.program, rest with
    | none, (_, .divider) :: rest => gather { g with program := word } rest
    | none, rest => gather { g with program := word } rest
    | some _, rest => gather { g with extras := g.extras ++ [word] } rest
  | (word, .divider) :: rest =>
    if g.program.isSome then gather { g with extras := g.extras ++ [word] } rest
    else gather g rest
  | (word, .unknownOption) :: rest => gather { g with extras := g.extras ++ [word] } rest
  | (_, .option w) :: rest =>
    if w.flag.needsArgument then
      match w.argument, rest with
      | some argument, rest => do gather (← takeFile g w.flag (writtenPath argument)) rest
      | none, (path, .plain) :: rest => do gather (← takeFile g w.flag path) rest
      | none, _ => complain w.flag "expected one argument"
    else do gather (← takeBare g w) rest

/-! ## 3. Requests -/

/-- A path that was given and is not empty. -/
def given? (path : Option String) : Option String := path.filter (· != "")

/-- What gathered words ask for. -/
def ofGathered (g : Gathered) : Request :=
  if !g.extras.isEmpty then .misuse ("unrecognized arguments: " ++ " ".intercalate g.extras)
  else
    match given? g.emit, given? g.document, given? g.program with
    | some path, _, _ => .emit path
    | none, some path, _ => .document g.level path
    | none, none, some path => .program g.level path
    | none, none, none => .prompt g.level

/-- What arguments ask for. -/
def ofArguments (args : List String) : Request :=
  match classifyAll args with
  | .error message => .misuse message
  | .ok words =>
    match gather .none words with
    | .ok g => ofGathered g
    | .error .help => .help
    | .error (.misuse message) => .misuse message

/-! ## 4. Texts -/

/-- One line on how to call the command. -/
def usage : String :=
  "usage: vyx [-h] [-v] [--emit-ast VYX_FILE | --ast AST_JSON_FILE] [program]\n"

/-- What a misuse shows. -/
def misuseText (message : String) : String := usage ++ "vyx: error: " ++ message ++ "\n"

/-- What help shows. -/
def helpText : String :=
  usage ++ "\nVyx language interpreter\n\npositional arguments:\n" ++
    "  program              Vyx program file (.vyx) to execute\n\noptions:\n" ++
    "  -h, --help           show this help message and exit\n" ++
    "  -v                   increase debug verbosity (can be repeated)\n" ++
    "  --emit-ast VYX_FILE  emit AST JSON for the given .vyx file\n" ++
    "  --ast AST_JSON_FILE  execute AST from a JSON file\n"

end Request

end Script
