/-
  From a line to its tokens.

  A line is a row of lexemes with blanks between them.  At each place the first of these that fits is
  taken: a comment, which reaches to the end of the line; digits; a string literal; an identifier; a
  two-byte operator; one punctuation byte.

  The string literal is the delicate one.  Inside it a backslash together with a quote, a backslash or
  the letter n is one unit, so that an escaped quote does not end the literal.  But a backslash may also
  stand for itself, and a literal that would otherwise never end is read that way: when no quote follows
  an escaped quote on the line, that quote ends the literal after all.  `closing` decides this without
  trying both readings, because the rest of a literal can be read to an end exactly when a quote is left.

  The scan recurses on the bytes of the line: after a lexeme of `n` bytes the next `n - 1` are passed
  over.
-/
import StoneLang.Diagnostic
import StoneLang.Text.Blank
import StoneLang.Token.Basic

namespace StoneLang.Token

open StoneLang.Text (quoteMark backslash letterN newline)

/-! ## Classes of bytes -/

def isNameStart (b : UInt8) : Bool :=
  (0x41 ≤ b && b ≤ 0x5A) || (0x61 ≤ b && b ≤ 0x7A) || b == 0x5F

def isNamePart (b : UInt8) : Bool := isNameStart b || Decimal.isDigit b

def isPunctuation (b : UInt8) : Bool :=
  (0x21 ≤ b && b ≤ 0x2F) || (0x3A ≤ b && b ≤ 0x40) || (0x5B ≤ b && b ≤ 0x60) || (0x7B ≤ b && b ≤ 0x7E)

def pairs : List Text :=
  [StoneLang.text "==", StoneLang.text "<=", StoneLang.text ">=", StoneLang.text "&&",
    StoneLang.text "||"]

/-! ## String literals -/

def isEscapable (b : UInt8) : Bool := b == quoteMark || b == backslash || b == letterN

/-- The body of a string literal, as written, and what follows its closing quote; the text starts after
the opening quote. -/
@[grind =] def closing : Text → Option (Text × Text)
  | [] => none
  | [b] => if b = quoteMark then some ([], []) else none
  | b :: c :: rest =>
    if b = quoteMark then some ([], c :: rest)
    else if b = backslash ∧ isEscapable c ∧ quoteMark ∈ rest then
      (closing rest).map fun (body, after) => (b :: c :: body, after)
    else (closing (c :: rest)).map fun (body, after) => (b :: body, after)

/-- The value of a literal's body: its escapes resolved, every other backslash kept. -/
def unescape : Text → Text
  | [] => []
  | [b] => [b]
  | b :: c :: rest =>
    if b = backslash ∧ (c = quoteMark ∨ c = backslash) then c :: unescape rest
    else if b = backslash ∧ c = letterN then newline :: unescape rest
    else b :: unescape (c :: rest)

/-! ## Lexemes -/

/-- A piece of a line that stands on its own. -/
inductive Lexeme where
  | comment (length : Nat)
  | number (digits : Text)
  /-- A string literal with its body as written. -/
  | string (body : Text)
  /-- An identifier, an operator or a punctuation byte. -/
  | symbol (spelling : Text)
deriving DecidableEq, Repr

/-- The number of bytes that a lexeme takes. -/
def Lexeme.length : Lexeme → Nat
  | .comment n => n
  | .number digits => digits.length
  | .string body => body.length + 2
  | .symbol spelling => spelling.length

/-- The lexeme at the head of a line that starts with the byte `b`, which is no blank. -/
def lexeme? (b : UInt8) (rest : Text) : Option Lexeme :=
  if b = 0x2F ∧ rest.head? = some 0x2F then some (.comment (rest.length + 1))
  else if Decimal.isDigit b then some (.number (b :: rest.takeWhile Decimal.isDigit))
  else if b = quoteMark then
    match closing rest with
    | some (body, _) => some (.string body)
    | none => some (.symbol [b])
  else if isNameStart b then some (.symbol (b :: rest.takeWhile isNamePart))
  else if pairs.contains (b :: rest.take 1) then some (.symbol (b :: rest.take 1))
  else if isPunctuation b then some (.symbol [b])
  else none

/-- The token of a lexeme on line `line`; a comment has none. -/
def Lexeme.token? (line : Int) : Lexeme → Except Cause (Option Token)
  | .comment _ => .ok none
  | .number digits =>
    match Decimal.unsigned? digits with
    | some n => .ok (some ⟨.number, digits, n, line⟩)
    | none => .error (.integerTooLarge digits)
  | .string body => .ok (some ⟨.string, unescape body, 0, line⟩)
  | .symbol spelling =>
    if spelling = [quoteMark] then .error .unterminatedString
    else .ok (some ⟨.identifier, spelling, 0, line⟩)

/-! ## Lines -/

/-- The tokens of a line whose first `covered` bytes belong to a lexeme already taken, and the fault
that stopped the scan, if any.  The tokens before a fault are kept. -/
@[grind =] def scanFrom (line : Int) : Nat → Text → List Token × Option Cause
  | _, [] => ([], none)
  | covered + 1, _ :: rest => scanFrom line covered rest
  | 0, b :: rest =>
    if Text.isTokenBlank b then scanFrom line 0 rest
    else
      match lexeme? b rest with
      | none => ([], some (.badToken b))
      | some lexeme =>
        match lexeme.token? line with
        | .error cause => ([], some cause)
        | .ok token =>
          let (more, fault) := scanFrom line (lexeme.length - 1) rest
          (token.toList ++ more, fault)

/-- The tokens of line number `line` without the token that ends it. -/
def scanLine (line : Int) (content : Text) : List Token × Option Cause :=
  scanFrom line 0 content.chomp

end StoneLang.Token
