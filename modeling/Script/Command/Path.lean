/-
# Paths

A path is a list of names from a root or from the current directory.  Empty names and single dots
say nothing and are dropped; double dots stay.
-/

namespace Script

/-- A path to a file or directory. -/
structure Path where
  /-- One or two slashes for a path from the root, nothing for any other. -/
  root : String
  names : List String
  deriving DecidableEq, Repr

namespace Path

/-- The slashes in front that count: more than two are one. -/
def rootOf : List Char → String
  | '/' :: '/' :: '/' :: _ => "/"
  | '/' :: '/' :: _ => "//"
  | '/' :: _ => "/"
  | _ => ""

/-- The names between slashes, given the one in progress with its last character first. -/
def namesFrom : (name : List Char) → List Char → List String
  | name, [] => [String.ofList name.reverse]
  | name, c :: rest =>
    if c = '/' then String.ofList name.reverse :: namesFrom [] rest else namesFrom (c :: name) rest

/-- The path that a text spells. -/
def ofString (s : String) : Path :=
  ⟨rootOf s.toList, (namesFrom [] s.toList).filter fun name => name != "" && name != "."⟩

/-- The text of a path; the current directory is a dot. -/
def text (p : Path) : String :=
  if p.root = "" && p.names.isEmpty then "." else p.root ++ "/".intercalate p.names

/-- The last name. -/
def name (p : Path) : String := p.names.getLastD ""

/-- What follows the last dot of the name, with the dot; a dot that starts or ends the name does
not count. -/
def suffix (p : Path) : String :=
  let reversed := p.name.toList.reverse
  match reversed.span (· != '.') with
  | ([], _) => ""
  | (_, []) | (_, [_]) => ""
  | (after, _) => String.ofList ('.' :: after.reverse)

/-- The path whose last name is longer. -/
def extend (p : Path) (more : String) : Path :=
  { p with names := p.names.dropLast ++ [p.name ++ more] }

/-- The most bytes that a name may have. -/
def longestName : Nat := 255

/-- The most bytes that a path may have. -/
def longestPath : Nat := 4095

/-- Whether a name is too long to be looked up. -/
def isLongName (name : String) : Bool := longestName < name.utf8ByteSize

/-- Whether a path is too long to be followed. -/
def isLong (p : Path) : Bool := longestPath < p.text.utf8ByteSize

end Path

end Script
