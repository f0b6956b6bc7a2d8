/-
  The history of the interactive loop.

  The history is a list of lines, the oldest first.  A line equal to the one before it is not added, and
  beyond a thousand lines the oldest goes.  It is kept in a file, one line each; reading the file stops at
  a line that is too long or not well-formed text.
-/
import StoneLang.Path
import StoneLang.Text.BufferedLine
import StoneLang.Text.Scalar

namespace StoneLang.History

def capacity : Nat := 1000

/-- The newest lines of a history. -/
def bounded (h : List Text) : List Text := h.drop (h.length - capacity)

def append (h : List Text) (line : Text) : List Text :=
  if h.getLast? = some line then h else bounded (h ++ [line])

/-- The history in a file. -/
def ofText (t : Text) : List Text :=
  let usable := t.bufferedLines.takeWhile fun (line, isPart) => !isPart && line.isUtf8
  bounded (usable.map Prod.fst)

def toText (h : List Text) : Text := h.flatMap fun line => line ++ [Text.newline]

/-- The path of the history file: a relative one lies in the home directory, and without a home
directory there is none. -/
def path (home name : Text) : Text :=
  if name = [] || Path.isAbsolute name then name else if home = [] then [] else Path.join home name

end StoneLang.History
