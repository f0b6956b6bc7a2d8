/-
  Lines through a buffer.

  A reader does not read its source byte by byte: it takes from it what its buffer has room for, and
  what it has taken is gone for any other reader of the same source.  `Buffered` keeps apart what a
  reader has taken and what the source still holds.

  A line ends in a line feed, and a carriage return right before it belongs to the line end; a line that
  does not fit the buffer comes in parts.
-/
import StoneLang.Text.Basic

namespace StoneLang

namespace Text

def bufferSize : Nat := 4096

def dropReturn (t : Text) : Text := if t.getLast? = some carriageReturn then t.dropLast else t

/-- The first line of a text, whether it is only a part of one, and the number of bytes it uses up. -/
def firstLine? (t : Text) : Option (Text × Bool × Nat) :=
  if t = [] then none
  else
    let seen : Text := t.take bufferSize
    match seen.cutLine with
    | (line, some _) => some (line.dropReturn, false, line.length + 1)
    | (line, none) =>
      if seen.length < bufferSize then some (line, false, line.length)
      else some (line.dropReturn, true, line.dropReturn.length)

def linesUpTo : Nat → Text → List (Text × Bool)
  | 0, _ => []
  | bound + 1, t =>
    match firstLine? t with
    | none => []
    | some (line, isPart, used) => (line, isPart) :: linesUpTo bound (t.drop used)

/-- The lines of a text, each with whether it is only a part. -/
def bufferedLines (t : Text) : List (Text × Bool) := linesUpTo t.length t

end Text

/-- A source that is read through a buffer. -/
structure Buffered where
  /-- What the reader has taken from the source and not used yet. -/
  taken : Text
  /-- What the source still holds. -/
  rest : Text
deriving DecidableEq, Repr

namespace Buffered

/-- A source that nothing has been taken from. -/
def ofText (t : Text) : Buffered := ⟨[], t⟩

/-- All that is left to read. -/
def all (b : Buffered) : Text := b.taken ++ b.rest

/-- The source after the reader has used `count` bytes.  If it has not taken that many, it fills its
buffer, as often as needed. -/
def use (b : Buffered) (count : Nat) : Buffered :=
  let reach :=
    if count ≤ b.taken.length then b.taken.length
    else (count + Text.bufferSize - 1) / Text.bufferSize * Text.bufferSize
  ⟨(b.all.take reach).drop count, b.all.drop reach⟩

def line? (b : Buffered) : Option (Text × Buffered) :=
  b.all.firstLine?.map fun (line, _, used) => (line, b.use used)

end Buffered

end StoneLang
