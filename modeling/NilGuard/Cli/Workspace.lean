import NilGuard.Text.Split
/-! The files that a run can see. Paths are absolute, and names are followed without
looking at links. A file system has a longest name and a longest path, both counted in
bytes. -/
namespace NilGuard.Cli

/-- An absolute path by the names on the way from the root. -/
structure Path where
  parts : List String
  deriving DecidableEq, Repr

namespace Path

def root : Path := ⟨[]⟩

def text (p : Path) : String := "/" ++ "/".intercalate p.parts

/-- Whether no file system takes a name. -/
def isLongName (name : String) : Bool := 255 < name.utf8ByteSize

/-- Whether no file system takes a path, whatever its names are. -/
def isLong (p : Path) : Bool := 4095 < p.text.utf8ByteSize

/-- The directory that a path lies in. -/
def parent (p : Path) : Path := ⟨p.parts.dropLast⟩

/-- Follows one name from a directory. -/
def enter (p : Path) (name : String) : Path :=
  if name = "" || name = "." then p
  else if name = ".." then p.parent
  else ⟨p.parts ++ [name]⟩

/-- Whether the second path lies properly below the first. -/
def isAbove (p q : Path) : Bool := p != q && p.parts.isPrefixOf q.parts

end Path

inductive Entry where
  | file (contents : String)
  | directory
  deriving DecidableEq, Repr

/-- What comes of looking for a path. -/
inductive Look where
  | found (entry : Entry)
  | missing
  | tooLong
  deriving DecidableEq, Repr

/-- A working directory, a home directory, and what lies where. -/
structure Workspace where
  directory : Path
  home : Path := .root
  entries : List (Path × Entry) := []
  deriving Repr

namespace Workspace

/-- The path that a name written by a user means. Another user's home directory is not
known, and no name holds the character zero. -/
def resolve? (ws : Workspace) (name : String) : Option Path :=
  let cs := name.toList
  let names := (Text.splitAt '/' cs).map String.ofList
  if cs.contains '\x00' then none
  else if cs.head? = some '/' then some (names.foldl Path.enter .root)
  else
    match names.filter fun n => n ≠ "" && n ≠ "." with
    | [] => some ws.directory
    | first :: rest =>
      if first = "~" then some (rest.foldl Path.enter ws.home)
      else if first.toList.head? = some '~' then none
      else some ((first :: rest).foldl Path.enter ws.directory)

/-- What lies at a path. All that lies above something is a directory. -/
def lookup (ws : Workspace) (p : Path) : Option Entry :=
  match ws.entries.lookup p with
  | some e => some e
  | none =>
    if p = ws.directory || p.isAbove ws.directory || ws.entries.any (p.isAbove ·.1) then
      some .directory
    else none

/-- Follows names from a path. A name is too long only where a directory could hold it. -/
def follow (ws : Workspace) (p : Path) : List String → Look
  | [] => (ws.lookup p).elim .missing .found
  | name :: rest =>
    match ws.lookup p with
    | some .directory =>
      if Path.isLongName name then .tooLong else ws.follow ⟨p.parts ++ [name]⟩ rest
    | _ => .missing

/-- Looks for a path from the root on. -/
def look (ws : Workspace) (p : Path) : Look :=
  if p.isLong then .tooLong else ws.follow .root p.parts

/-- How far directories can be made along names: up to a file or a name that is too long. -/
def extend (ws : Workspace) (p : Path) : List String → Path
  | [] => p
  | name :: rest =>
    let next : Path := ⟨p.parts ++ [name]⟩
    match ws.lookup next with
    | some (.file _) => p
    | _ => if Path.isLongName name then p else ws.extend next rest

/-- The last directory there is after those on the way to a path were made. -/
def lastDirectory (ws : Workspace) (p : Path) : Path :=
  if p.parent.isLong then .root else ws.extend .root p.parent.parts

/-- Whether a file can be written at a path: all directories on the way to it can be made,
none is there already, and the path is not too long. -/
def canWrite (ws : Workspace) (p : Path) : Bool :=
  p != .root && !p.isLong && !(p.parts.getLast?.any Path.isLongName) &&
    ws.lastDirectory p == p.parent && ws.lookup p != some .directory

/-- The workspace after a directory was made. -/
def makeDirectory (ws : Workspace) (p : Path) : Workspace :=
  { ws with entries := (p, .directory) :: ws.entries.filter (·.1 != p) }

/-- The workspace after a file was written. -/
def write (ws : Workspace) (p : Path) (contents : String) : Workspace :=
  { ws with entries := (p, .file contents) :: ws.entries.filter (·.1 != p) }

end Workspace

end NilGuard.Cli
