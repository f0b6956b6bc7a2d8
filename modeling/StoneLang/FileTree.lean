/-
  Trees of files.

  A tree holds files and directories by the names on the way from the root; every place on the way to a
  file is a directory.  Looking up a path walks name by name, so that a file in the middle of a path and
  a name that leads nowhere fail differently.
-/
import StoneLang.Path

namespace StoneLang

/-- What stands at a place. -/
inductive Entry where
  | file (content : Text)
  | directory
deriving DecidableEq, Repr

/-- Why a path leads nowhere. -/
inductive FileFault where
  | missing
  | notDirectory
  | isDirectory
  | nameTooLong
  | unusableName
  /-- Another reason, in its own words. -/
  | other (reason : Text)
deriving DecidableEq, Repr

/-- The wording of a fault. -/
def FileFault.message : FileFault → Text
  | .missing => text "no such file or directory"
  | .notDirectory => text "not a directory"
  | .isDirectory => text "is a directory"
  | .nameTooLong => text "file name too long"
  | .unusableName => text "invalid argument"
  | .other reason => reason

/-- Files and directories by their places. -/
structure FileTree where
  files : List (List Text × Text)
  directories : List (List Text)

namespace FileTree

def longestName : Nat := 255

def longestPath : Nat := 4095

def entry? (t : FileTree) (place : List Text) : Option Entry :=
  match t.files.find? fun (p, _) => p == place with
  | some (_, content) => some (.file content)
  | none =>
    if place = [] || t.directories.any place.isPrefixOf || t.files.any fun (p, _) => place.isPrefixOf p
    then some .directory
    else none

/-- Walks from a directory along names, to a place and what stands there. -/
def walk (t : FileTree) : List Text → List Text → Except FileFault (List Text × Entry)
  | place, [] =>
    match t.entry? place with
    | some e => .ok (place, e)
    | none => .error .missing
  | place, name :: rest =>
    match t.entry? place with
    | none => .error .missing
    | some (.file _) => .error .notDirectory
    | some .directory =>
      if name = [] ∨ name = Path.here then walk t place rest
      else if name = Path.above then walk t place.dropLast rest
      else if longestName < name.length then .error .nameTooLong
      else walk t (place ++ [name]) rest

def find (t : FileTree) (path : Text) : Except FileFault Entry :=
  if path.contains 0 then .error .unusableName
  else if longestPath < path.length then .error .nameTooLong
  else (t.walk [] (Path.names path)).map Prod.snd

/-- The tree with a file at an absolute path, if its directory is there and no directory is in the way. -/
def create? (t : FileTree) (path content : Text) : Option FileTree :=
  let names := Path.names path
  match names.getLast?, t.walk [] names.dropLast with
  | some name, .ok (place, .directory) =>
    if name = [] ∨ name = Path.here ∨ name = Path.above ∨ longestName < name.length
      ∨ longestPath < path.length ∨ path.contains 0 then none
    else
      let place := place ++ [name]
      match t.entry? place with
      | some .directory => none
      | _ => some { t with files := (place, content) :: t.files.filter fun (p, _) => p != place }
  | _, _ => none

/-- The tree of a directory with files and empty directories, given by paths in it.  A path that ends in
a slash is a directory. -/
def ofPaths (directory : Text) (files : List (Text × Text)) : FileTree :=
  let place (path : Text) := ((Path.names (Path.join directory path)).foldl (Path.step true) []).reverse
  let isFolder (path : Text) : Bool := path.getLast? == some Path.slash
  { files := (files.filter fun (path, _) => !isFolder path).map fun (path, content) => (place path, content)
    directories := place [] :: (files.filter fun (path, _) => isFolder path).map fun (path, _) => place path }

end FileTree

end StoneLang
