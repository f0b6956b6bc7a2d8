/-
  Text as bytes.

  Sources, names, string values and messages are byte strings: nothing forces them to be well-formed
  Unicode, and every length and position of the language counts bytes.  So a text is a list of bytes,
  and the code points inside it are a view (`StoneLang.Text.Scalar`), never the representation.

  This file holds the type, the embedding of literal strings, and the few cuts that the rest of the
  library needs: trailing bytes of a class, and lines.
-/

namespace StoneLang

/-- A byte string. -/
abbrev Text := List UInt8

/-- The bytes of a literal. -/
def text (s : String) : Text := s.toUTF8.data.toList

namespace Text

/-! ## Bytes with a name -/

/-- Line feed. -/
def newline : UInt8 := 0x0A

def carriageReturn : UInt8 := 0x0D

def space : UInt8 := 0x20

/-- The double quote. -/
def quoteMark : UInt8 := 0x22

def backslash : UInt8 := 0x5C

def letterN : UInt8 := 0x6E

/-! ## Cuts -/

/-- `t` without the longest run of bytes of class `p` at its end. -/
def dropTrailing (p : UInt8 → Bool) (t : Text) : Text := (t.reverse.dropWhile p).reverse

def isLineEnd (b : UInt8) : Bool := b == carriageReturn || b == newline

/-- `t` without the carriage returns and line feeds at its end. -/
def chomp (t : Text) : Text := t.dropTrailing isLineEnd

/-- The text up to the first line feed, and what follows that line feed if there is one. -/
def cutLine : Text → Text × Option Text
  | [] => ([], none)
  | b :: rest =>
    if b = newline then ([], some rest)
    else
      let (line, after) := cutLine rest
      (b :: line, after)

/-- The lines of a text: the terminated ones, each without its line feed, and the unterminated rest
(empty when the text is empty or ends in a line feed). -/
@[grind =] def splitLines : Text → List Text × Text
  | [] => ([], [])
  | b :: rest =>
    let (lines, last) := splitLines rest
    if b = newline then ([] :: lines, last)
    else
      match lines with
      | [] => ([], b :: last)
      | line :: more => ((b :: line) :: more, last)

/-- `parts` one after the other with `sep` between neighbours. -/
def join (sep : Text) (parts : List Text) : Text := List.intercalate sep parts

def replaceByte (old new : UInt8) (t : Text) : Text := t.map fun b => if b = old then new else b

/-- The cut of `t` at the first byte `b`: what stands before it and what stands after it. -/
def cutAt (b : UInt8) : Text → Option (Text × Text)
  | [] => none
  | c :: rest =>
    if c = b then some ([], rest) else (cutAt b rest).map fun (before, after) => (c :: before, after)

def splitAll (b : UInt8) : Text → List Text
  | [] => [[]]
  | c :: rest =>
    if c = b then [] :: splitAll b rest
    else
      match splitAll b rest with
      | [] => [[c]]
      | piece :: more => (c :: piece) :: more

def le : Text → Text → Bool
  | [], _ => true
  | _ :: _, [] => false
  | a :: as, b :: bs => a < b || (a == b && le as bs)

def sort (names : List Text) : List Text := names.mergeSort le

end Text

end StoneLang
