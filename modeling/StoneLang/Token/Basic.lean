/-
  Tokens.

  Keywords, operators, punctuation and the end of a line are all identifier tokens; a grammar tells them
  apart by their text.  The end of a line has a text that no other lexeme can have: a backslash and the
  letter n.
-/
import StoneLang.Text.Quoted
import StoneLang.Text.Decimal

namespace StoneLang

/-- The category of a token; `other` is a kind number that no scanned token has. -/
inductive TokenKind where
  | endOfInput | number | string | identifier
  | other (code : Int)
deriving DecidableEq, Repr

namespace TokenKind

def ofCode (code : Int) : TokenKind :=
  if code = 0 then .endOfInput
  else if code = 1 then .number
  else if code = 2 then .string
  else if code = 3 then .identifier
  else .other code

def label : TokenKind → Text
  | .endOfInput => text "EOF"
  | .number => text "number"
  | .string => text "string"
  | .identifier => text "identifier"
  | .other code => text "unknown_kind_" ++ Decimal.ofInt code

end TokenKind

/-- A lexeme of the source. -/
structure Token where
  kind : TokenKind
  /-- The spelling; for a string, the value with its escapes resolved. -/
  text : Text
  /-- The value of a number, zero for the other kinds. -/
  number : Int64
  line : Int
deriving DecidableEq, Repr

namespace Token

/-- The text of the token that ends a line. -/
def endOfLineText : Text := StoneLang.text "\\n"

/-- The token that ends line `line`. -/
def endOfLine (line : Int) : Token := ⟨.identifier, endOfLineText, 0, line⟩

/-- The token that stands for the end of the input after `line` lines. -/
def endOfInput (line : Int) : Token := ⟨.endOfInput, [], 0, line⟩

def isEndOfInput (t : Token) : Bool := t.kind == .endOfInput

def isEndOfLine (t : Token) : Bool := t.kind == .identifier && t.text == endOfLineText

def describe (t : Token) : Text :=
  match t.kind with
  | .endOfInput => StoneLang.text "end of input"
  | .string => Text.quoted t.text
  | .identifier => if t.isEndOfLine then StoneLang.text "end of line" else Text.quoted t.text
  | .number | .other _ => t.text

/-- The token with its line and kind. -/
def shown (t : Token) : Text :=
  Decimal.ofInt t.line ++ StoneLang.text ":" ++ t.kind.label ++ StoneLang.text " " ++ t.describe

end Token

end StoneLang
