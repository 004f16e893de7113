import FlowGraph.Command.Basic

/-! Files in a folder, held in memory. A path is followed name by name from the folder; what lies
outside it is not there. -/
namespace FlowGraph

/-- The files of a folder by their names, in which a slash stands behind the name of a directory. A
directory is there if a file is in it. -/
abbrev Folder := NameMap String

namespace Folder

/-- What keeps a path from leading to a file. -/
inductive Obstacle where
  | missing
  | throughFile
  | directory
deriving DecidableEq

def Obstacle.reason : Obstacle → String
  | missing => "No such file or directory (os error 2)"
  | throughFile => "Not a directory (os error 20)"
  | directory => "Is a directory (os error 21)"

/-- What a path leads to. -/
inductive Place where
  | file (name text : String)
  | directory
  /-- No file is there, but one can be made. -/
  | vacant (name : String)
  | blocked (cause : Obstacle)
deriving DecidableEq

/-- The name that the pieces of a path make, given innermost first. -/
def nameOf (pieces : List (List Char)) : String :=
  String.ofList (['/'].intercalate pieces.reverse)

def hasDirectory (f : Folder) (name : String) : Bool :=
  f.entries.any fun entry => (name.toList ++ ['/']).isPrefixOf entry.1.toList

/-- Follows the pieces of a path. An empty piece and a dot stay in the directory, two dots leave it;
`inside` holds the directories entered so far, innermost first. -/
def follow (f : Folder) (inside : List (List Char)) : List (List Char) → Place
  | [] => .directory
  | piece :: rest =>
    if piece = [] ∨ piece = ['.'] then f.follow inside rest
    else if piece = ['.', '.'] then
      match inside with
      | [] => .blocked .missing
      | _ :: outer => f.follow outer rest
    else
      let name := nameOf (piece :: inside)
      match f.get? name with
      | some text => if rest.isEmpty then .file name text else .blocked .throughFile
      | none =>
        if f.hasDirectory name then f.follow (piece :: inside) rest
        else if rest.isEmpty then .vacant name
        else .blocked .missing

/-- What a path leads to. The empty path leads nowhere, and one that starts with a slash leads out
of the folder. -/
def locate (f : Folder) (path : List Char) : Place :=
  match path with
  | [] => .blocked .missing
  | '/' :: _ => .blocked .missing
  | path => f.follow [] (Text.splitAt '/' path)

/-- A path without the slashes at its end. -/
def unslashed (path : List Char) : List Char := (path.reverse.dropWhile (· == '/')).reverse

def read (f : Folder) (path : String) : Except ReadError String :=
  match f.locate path.toList with
  | .file _ text => .ok text
  | .directory => .error (.unread Obstacle.directory.reason)
  | .vacant _ => .error (.unopened Obstacle.missing.reason)
  | .blocked cause => .error (.unopened cause.reason)

/-- Writes a file. A path with a slash at its end asks for a directory, which is no file. -/
def write (f : Folder) (path text : String) : Except Obstacle Folder :=
  let front := unslashed path.toList
  match f.locate front with
  | .blocked cause => .error cause
  | .directory => .error .directory
  | .file name _ | .vacant name =>
    if front = path.toList then .ok (f.insert name text) else .error .directory

instance : Disk (StateM Folder) where
  isThere path := fun f =>
    match f.locate path.toList with
    | .file _ _ | .directory => (true, f)
    | _ => (false, f)
  read path := fun f => (f.read path, f)
  write path text := fun f =>
    match f.write path text with
    | .ok g => (.ok (), g)
    | .error cause => (.error cause.reason, f)

end Folder
end FlowGraph
