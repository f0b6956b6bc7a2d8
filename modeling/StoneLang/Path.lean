/-
  Paths.

  A path is a text of names between slashes; one that starts with a slash is absolute.  A clean path has
  no empty name, no `.`, and a `..` only at the start of a relative path: every other `..` has been taken
  together with the name before it.
-/
import StoneLang.Text.Basic

namespace StoneLang.Path

def slash : UInt8 := 0x2F

def here : Text := text "."

/-- The name of the directory above. -/
def above : Text := text ".."

def isAbsolute (p : Text) : Bool := p.head? == some slash

/-- The names of a path. -/
def names (p : Text) : List Text := p.splitAll slash

/-- The names of a clean path after one more name, the last name first. -/
def step (rooted : Bool) (kept : List Text) (name : Text) : List Text :=
  if name = [] ∨ name = here then kept
  else if name = above then
    match kept with
    | [] => if rooted then [] else [above]
    | last :: rest => if last = above then above :: kept else rest
  else name :: kept

def clean (p : Text) : Text :=
  let body := Text.join [slash] ((names p).foldl (step (isAbsolute p)) []).reverse
  if isAbsolute p then slash :: body else if body = [] then here else body

/-- The clean path of `b` inside `a`; an empty part does not count. -/
def join (a b : Text) : Text :=
  if a = [] then if b = [] then [] else clean b
  else if b = [] then clean a
  else clean (a ++ slash :: b)

/-- The clean absolute path that `p` stands for in a directory. -/
def absolute (directory p : Text) : Text := if isAbsolute p then clean p else join directory p

/-- The directory that holds an absolute path; the root holds itself. -/
def parent (p : Text) : Text := clean (p ++ slash :: above)

/-- An absolute path and every directory above it, the nearest first. -/
def ancestors (p : Text) : List Text :=
  let kept := (names p).foldl (step true) []
  (List.range (kept.length + 1)).map fun n => slash :: Text.join [slash] (kept.drop n).reverse

end StoneLang.Path
