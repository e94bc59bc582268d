import Groupcast.Bytes
import Groupcast.Setup

/-!
# Directories

A working directory as the program sees it: the files in it by their names, in which slashes
separate the names of directories.  Looking up a path follows the rules of the system for empty
parts, for the parts `.` and `..`, and for files where directories are due.
-/

namespace Groupcast

/-- The files of a working directory, each by the parts of its path. -/
structure Directory where
  files : List (List String × Bytes)
  deriving Repr

namespace Directory

/-- The parts of a path that lead somewhere else. -/
def parts (path : String) : List String :=
  (path.splitOn "/").filter fun part => part ≠ "" && part ≠ "."

/-- Whether a path leads no further than to a directory around the working directory. -/
def isAround (parts : List String) : Bool := parts.all (· = "..")

/-- Where one part of a path leads from the directory `here`. -/
def step (here : List String) (part : String) : List String :=
  if part ≠ ".." then here ++ [part]
  else if isAround here then ".." :: here
  else here.dropLast

/-- The directory with the given files. -/
def ofFiles (files : List (String × Bytes)) : Directory where
  files := files.map fun (path, content) => ((parts path).foldl step [], content)

/-- What is at a path. -/
inductive Place where
  | file (content : Bytes)
  | directory
  | nothing
  deriving Repr

/-- What is at the path with the given parts.  A directory is there if a file is inside it. -/
def placeAt (d : Directory) (parts : List String) : Place :=
  match d.files.find? fun (path, _) => path = parts with
  | some (_, content) => .file content
  | none =>
    if isAround parts || d.files.any fun (path, _) => parts.isPrefixOf path then .directory
    else .nothing

/-- The longest name that a part of a path may have, in bytes. -/
def maxNameLength : Nat := 255

/-- The longest path, in bytes. -/
def maxPathLength : Nat := 4095

/-- Follows the parts of a path from the directory `here`, and yields the parts of where the last
one leads and what is there.  All parts before the last one have to be directories. -/
def follow (d : Directory) (here : List String) :
    List String → Except FileError (List String × Place)
  | [] => .ok (here, d.placeAt here)
  | part :: rest =>
    if maxNameLength < part.utf8ByteSize then .error .nameTooLong
    else
      let there := step here part
      match d.placeAt there, rest with
      | .file _, _ :: _ => .error .notDirectory
      | .nothing, _ :: _ => .error .notFound
      | _, rest => follow d there rest

/-- Whether a path can only lead to a directory. -/
def demandsDirectory (path : String) : Bool :=
  match (path.splitOn "/").getLast? with
  | some last => last = "" || last = "." || last = ".."
  | none => true

/-- What the parts of a path lead to.  Outside of the working directory there is nothing but the
directories around it, and nothing is around the root. -/
def lookup (d : Directory) (path : String) (parts : List String) :
    Except FileError (List String × Place) :=
  if path.contains '\x00' then .error .nulInName
  else if path = "" then .error .notFound
  else if maxPathLength < path.utf8ByteSize then .error .nameTooLong
  else if path.startsWith "/" then
    match parts.dropWhile (· = "..") with
    | [] => .ok ([], .directory)
    | name :: rest =>
      if maxNameLength < name.utf8ByteSize then .error .nameTooLong
      else if rest.isEmpty then .ok (["/", name], .nothing)
      else .error .notFound
  else d.follow [] parts

/-- The content of the file at a path. -/
def read (d : Directory) (path : String) : Except FileError Bytes := do
  match (← d.lookup path (parts path)).2 with
  | .file content => if demandsDirectory path then .error .notDirectory else pure content
  | .directory => .error .isDirectory
  | .nothing => .error .notFound

/-- The directory with another file, or with a file in place of the one that is there. -/
def put (d : Directory) (parts : List String) (content : Bytes) : Directory where
  files := (parts, content) :: d.files.filter fun (path, _) => path ≠ parts

/-- Whether a path ends in a name and a slash. -/
def endsInNameAndSlash (path : String) : Bool :=
  path.endsWith "/" &&
    match ((path.splitOn "/").filter (· ≠ "")).getLast? with
    | some last => last ≠ "." && last ≠ ".."
    | none => false

/-- Creates the file at a path, or replaces what it holds.  What ends in a name and a slash is taken
for a directory in any directory that there is, whatever has the name. -/
def write (d : Directory) (path : String) (content : Bytes) : Except FileError Directory := do
  if endsInNameAndSlash path then
    match (← d.lookup path (parts path).dropLast).2 with
    | .directory => .error .isDirectory
    | .file _ => .error .notDirectory
    | .nothing => .error .notFound
  else
    let (there, place) ← d.lookup path (parts path)
    match place with
    | .directory => .error .isDirectory
    | .file _ => if demandsDirectory path then .error .notDirectory else pure (d.put there content)
    | .nothing => if demandsDirectory path then .error .notFound else pure (d.put there content)

end Directory

end Groupcast
