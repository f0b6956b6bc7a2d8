/-
  Sources and where they come from.

  A source is a program with the name under which its failures are reported, and the directory whose
  configuration governs it.
-/
import StoneLang.Diagnostic
import StoneLang.FileTree

namespace StoneLang

/-- A program that can be run. -/
structure Source where
  name : Text
  content : Text
  /-- The directory that the program comes from; empty for a program that has none. -/
  directory : Text
deriving DecidableEq, Repr

def FileFault.opening (path : Text) (fault : FileFault) : Text :=
  text "open " ++ path ++ text ": " ++ fault.message

def FileFault.readingDirectory (path : Text) : Text :=
  text "read " ++ path ++ text ": " ++ isDirectory.message

/-- The source in a file: `name` is the path as it was given, `path` the absolute one. -/
def Source.ofEntry (name path : Text) (found : Except FileFault Entry) : Except Failure Source :=
  let failed (reason : Text) : Except Failure Source :=
    .error (.plain (text "source: read " ++ path ++ text ": " ++ reason))
  match found with
  | .ok (.file content) => .ok ⟨name, content, Path.parent path⟩
  | .ok .directory => failed (FileFault.readingDirectory path)
  | .error fault => failed (fault.opening path)

end StoneLang
