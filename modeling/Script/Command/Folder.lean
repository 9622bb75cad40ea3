/-
# Folders

The files that a command can see: what stands at each path below the current directory.
-/
import Script.Command.Path

namespace Script

/-- What stands at a path. -/
inductive Entry where
  | absent
  | directory
  /-- Nothing can stand there, since the name or the path is too long. -/
  | tooLong
  | file (bytes : ByteArray)

/-- The files and directories below the current one, by their names from there. -/
structure Folder where
  entries : List (List String × Entry)

namespace Folder

/-- Whether names lead to a directory: one that is listed, or one on the way to something
listed. -/
def isDirectory (f : Folder) (names : List String) : Bool :=
  names.isEmpty || f.entries.any fun (listed, entry) =>
    names.isPrefixOf listed && (names.length < listed.length || entry matches .directory)

/-- What names lead to. -/
def find (f : Folder) (names : List String) : Entry :=
  if f.isDirectory names then .directory
  else
    match f.entries.find? fun (listed, _) => listed == names with
    | some (_, entry) => entry
    | none => .absent

/-- Where a way through directories has come to. -/
inductive Place where
  /-- The current directory, or what names below it lead to. -/
  | below (names : List String)
  /-- A directory that the current one lies in, of which nothing else is known. -/
  | outside

/-- Where names lead from a place, or what stands in the way: it goes through directories only,
and a name that is too long is noticed where it would be looked up. -/
def walk (f : Folder) : Place → List String → Except Entry Place
  | place, [] => .ok place
  | .outside, name :: rest =>
    if name = ".." then f.walk .outside rest
    else .error (if Path.isLongName name then .tooLong else .absent)
  | .below names, name :: rest =>
    if name = ".." then
      f.walk (if names.isEmpty then .outside else .below names.dropLast) rest
    else if Path.isLongName name then .error .tooLong
    else
      let next := names ++ [name]
      if rest.isEmpty || f.isDirectory next then f.walk (.below next) rest else .error .absent

/-- Where a path leads.  A path with a zero character in it leads nowhere. -/
def locate (f : Folder) (p : Path) : Except Entry Place :=
  if p.names.any (·.contains '\x00') then .error .absent
  else if p.isLong then .error .tooLong
  else f.walk (if p.root = "" then .below [] else .outside) p.names

/-- What stands at a path. -/
def look (f : Folder) (p : Path) : Entry :=
  match f.locate p with
  | .ok (.below names) => f.find names
  | .ok .outside => .directory
  | .error entry => entry

/-- Puts a file at a path, in place of what was there. -/
def write (f : Folder) (p : Path) (text : String) : Folder :=
  match f.locate p with
  | .ok (.below names) =>
    ⟨f.entries.filter (fun (listed, _) => listed != names) ++ [(names, .file text.toUTF8)]⟩
  | _ => f

end Folder

end Script
