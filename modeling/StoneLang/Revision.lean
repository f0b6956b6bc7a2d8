/-
  Revisions.

  A revision says which commit of a repository is meant.  It starts with the name of a reference, and
  goes on with steps: `~n` goes back `n` commits along first parents, `^n` goes to the `n`th parent.
  Further forms are understood but say nothing about a repository that keeps neither a record of its
  references nor commit messages: `@{...}`, `^{...}` and `:...`.

  A revision is cut into lexemes, the lexemes are grouped into parts, and the parts have to stand in an
  order that makes sense.  Each of the three may fail, and the first failure is the one reported.
-/
import StoneLang.Text.Blank
import StoneLang.Text.Numeral
import StoneLang.Text.Printable
import StoneLang.Yaml.Timestamp

namespace StoneLang.Revision

/-! ## Lexemes -/

/-- The kinds of lexemes. -/
inductive Kind where
  | at | tilde | caret | colon | dot | slash | openBrace | closeBrace | minus | exclamation
  /-- A character that no reference may have. -/
  | forbidden
  | word | number
  | other
  /-- The end of the revision. -/
  | stop
deriving DecidableEq, Repr

/-- A lexeme with the text that it stands for. -/
structure Lexeme where
  kind : Kind
  spelling : Text
deriving DecidableEq, Repr

/-- A letter, or any other printable character beyond ASCII that is no numeral. -/
def isLetter (code : Nat) : Bool :=
  (0x41 ≤ code && code ≤ 0x5A) || (0x61 ≤ code && code ≤ 0x7A)
    || (0x80 ≤ code && Text.isPrintable code && !Text.isNumeral code)

def kindOf (code : Nat) : Kind :=
  match Char.ofNat code with
  | '@' => .at
  | '~' => .tilde
  | '^' => .caret
  | ':' => .colon
  | '.' => .dot
  | '/' => .slash
  | '\x7b' => .openBrace
  | '\x7d' => .closeBrace
  | '-' => .minus
  | '!' => .exclamation
  | '\\' => .forbidden
  | '?' => .forbidden
  | '*' => .forbidden
  | '[' => .forbidden
  | _ =>
    if Text.isBlankScalar code || code < 0x20 || (0x7F ≤ code && code ≤ 0x9F) then .forbidden
    else if isLetter code then .word
    else if Text.isNumeral code then .number
    else .other

/-- The code point of a piece; a stray byte counts as the replacement character. -/
def codeOf : Text.Piece → Nat
  | .scalar code _ => code
  | .stray _ => 0xFFFD

/-- The lexemes of a row of code points, at most `bound` of them.  Neighbouring letters make one word and
neighbouring numerals one number.  A null character ends the revision, except that right after a word
or a number it is passed over. -/
def lexemesFrom : Nat → List Nat → List Lexeme
  | 0, _ => []
  | _, [] => []
  | bound + 1, code :: rest =>
    if code = 0 then []
    else
      let kind := kindOf code
      if kind = .word ∨ kind = .number then
        let more := rest.takeWhile fun c => c != 0 && kindOf c == kind
        let after := rest.drop more.length
        let after := if after.head? = some 0 then after.drop 1 else after
        ⟨kind, (code :: more).flatMap Text.ofScalar⟩ :: lexemesFrom bound after
      else ⟨kind, Text.ofScalar code⟩ :: lexemesFrom bound rest

def lexemes (t : Text) : List Lexeme :=
  let codes := t.pieces.map codeOf
  lexemesFrom codes.length codes

/-- The first of some lexemes, and the others; at their end the lexeme that says so. -/
def next : List Lexeme → Lexeme × List Lexeme
  | [] => (⟨.stop, []⟩, [])
  | l :: rest => (l, rest)

/-! ## Parts -/

/-- The parts of a revision. -/
inductive Part where
  | reference (name : Text)
  /-- Back along first parents. -/
  | back (count : Nat)
  /-- To the parent of a number. -/
  | parent (number : Nat)
  /-- To the newest commit with a message that matches, or does not. -/
  | matching (pattern : Text) (negated : Bool)
  | objectOf (type : Text)
  | entry | checkout
  /-- The branch that a branch follows. -/
  | tracked
  | push | date
  | message | path | stage
deriving DecidableEq, Repr

/-- The number that a lexeme writes: the greatest one if a signed 64-bit word does not hold it, and zero
if it has other numerals than the ten digits. -/
def countOf (l : Lexeme) : Nat :=
  if l.spelling.all Decimal.isDigit then Nat.min (Decimal.value l.spelling) Int64.maxValue.toInt.toNat else 0

def twoDigits : Text → Option (Nat × Text)
  | a :: b :: rest =>
    if Decimal.isDigit a ∧ Decimal.isDigit b then some (Decimal.value [a, b], rest) else none
  | _ => none

def isDate (t : Text) : Bool :=
  let after (b : UInt8) := Yaml.Timestamp.after b
  let read : Option Bool := do
    let year := t.take 4
    if year.length ≠ 4 ∨ !year.all Decimal.isDigit then none
    let (month, t) ← twoDigits (← after 0x2D (t.drop 4))
    let (day, t) ← twoDigits (← after 0x2D t)
    let (hour, t) ← Yaml.Timestamp.number (← after 0x54 t)
    let (minute, t) ← twoDigits (← after 0x3A t)
    let (second, t) ← twoDigits (← after 0x3A t)
    return Yaml.Timestamp.fraction t = [0x5A]
      && decide (1 ≤ month ∧ month ≤ 12 ∧ 1 ≤ day
        ∧ day ≤ Yaml.Timestamp.daysIn (Decimal.value year) month ∧ hour < 24 ∧ minute < 60 ∧ second < 60)
  read.getD false

/-- The fault of a revision, in words. -/
abbrev Fault := Text

/-- What follows the text up to a closing brace, if that text is a date. -/
def dateFrom (date : Text) : List Lexeme → Except Fault (Part × List Lexeme)
  | [] => .error (text "missing \"\x7d\" in @\x7b<data>\x7d structure")
  | l :: rest =>
    if l.kind = .closeBrace then
      if isDate date then .ok (.date, rest)
      else
        .error (text "wrong date \"" ++ date
          ++ text "\" must fit ISO-8601 format : 2006-01-02T15:04:05Z")
    else dateFrom (date ++ l.spelling) rest

def atPart (ls : List Lexeme) : Except Fault (Part × List Lexeme) :=
  let (brace, inner) := next ls
  if brace.kind ≠ .openBrace then .ok (.reference (text "HEAD"), ls)
  else
    let (first, afterFirst) := next inner
    let (second, afterSecond) := next afterFirst
    let closes : Bool := second.kind == .closeBrace
    if first.kind = .word ∧ (first.spelling = text "u" ∨ first.spelling = text "upstream") ∧ closes then
      .ok (.tracked, afterSecond)
    else if first.kind = .word ∧ first.spelling = text "push" ∧ closes then .ok (.push, afterSecond)
    else if first.kind = .number ∧ closes then .ok (.entry, afterSecond)
    else if first.kind = .minus ∧ second.kind = .number then
      let (third, afterThird) := next afterSecond
      if third.kind = .closeBrace then .ok (.checkout, afterThird)
      else .error (text "missing \"\x7d\" in @\x7b-n\x7d structure")
    else dateFrom first.spelling afterFirst

def tildePart (ls : List Lexeme) : Part × List Lexeme :=
  let (first, rest) := next ls
  if first.kind = .number then (.back (countOf first), rest) else (.back 1, ls)

/-- How a pattern fails that starts with an exclamation mark. -/
def reserved : Fault :=
  text "revision suffix brace component sequences starting with \"/!\" others than those defined are reserved"

/-- The part inside braces after a caret: the type of an object, or a pattern for messages. -/
def bracePart : Nat → Bool → Text → Bool → List Lexeme → Except Fault (Part × List Lexeme)
  | 0, _, _, _, _ => .error (text "missing \"\x7d\" in ^\x7b<data>\x7d structure")
  | bound + 1, start, pattern, negated, ls =>
    let (first, afterFirst) := next ls
    let (second, afterSecond) := next afterFirst
    let isType : Bool :=
      ["commit", "tree", "blob", "tag", "object"].any fun type => text type == first.spelling
    if first.kind = .word ∧ second.kind = .closeBrace ∧ isType then
      .ok (.objectOf first.spelling, afterSecond)
    else if pattern = [] ∧ first.kind = .closeBrace then .ok (.objectOf (text "tag"), afterSecond)
    else if pattern = [] ∧ first.kind = .exclamation then
      if second.kind = .exclamation then bracePart bound false first.spelling negated afterSecond
      else if second.kind = .minus then bracePart bound false pattern true afterSecond
      else .error reserved
    else if pattern = [] ∧ first.kind = .slash then bracePart bound false pattern negated afterFirst
    else if first.kind ≠ .slash ∧ start then
      .error (text "\"" ++ first.spelling ++ text "\" is not a valid revision suffix brace component")
    else if first.kind = .stop then .error (text "missing \"\x7d\" in ^\x7b<data>\x7d structure")
    else if first.kind = .closeBrace then .ok (.matching pattern negated, afterFirst)
    else bracePart bound false (pattern ++ first.spelling) negated afterFirst

def caretPart (ls : List Lexeme) : Except Fault (Part × List Lexeme) :=
  let (first, rest) := next ls
  if first.kind = .openBrace then bracePart (rest.length + 2) true [] false rest
  else if first.kind = .number then
    if 2 < countOf first then
      .error (text "\"" ++ first.spelling ++ text "\" found must be 0, 1 or 2 after \"^\"")
    else .ok (.parent (countOf first), rest)
  else .ok (.parent 1, ls)

/-- The part after a colon and a slash: a pattern for messages, to the end of the revision. -/
def messagePart : Nat → Bool → List Lexeme → Except Fault Part
  | 0, _, _ => .ok .message
  | bound + 1, blank, ls =>
    let (first, afterFirst) := next ls
    let (second, afterSecond) := next afterFirst
    if first.kind = .exclamation ∧ second.kind = .exclamation then messagePart bound false afterSecond
    else if blank ∧ first.kind = .exclamation then
      if second.kind = .minus then messagePart bound true afterSecond else .error reserved
    else if first.kind = .stop then .ok .message
    else messagePart bound false afterFirst

/-- The part after a colon; it reaches to the end of the revision. -/
def colonPart (ls : List Lexeme) : Except Fault Part :=
  let (first, afterFirst) := next ls
  if first.kind = .slash then messagePart (afterFirst.length + 1) true afterFirst
  else if first.kind = .number ∧ (next afterFirst).1.kind = .colon then .ok .stage
  else .ok .path

def Kind.endsName (k : Kind) : Bool :=
  k == .stop || k == .at || k == .colon || k == .tilde || k == .caret

/-- What is wrong with a lexeme after the name so far, whose last lexeme is of kind `before`. -/
def nameFault? (l : Lexeme) (before : Option Kind) (name : Text) : Option Fault :=
  let ends := l.kind.endsName
  if l.kind = .forbidden then some (text "must not contains \"" ++ l.spelling ++ text "\"")
  else if (l.kind = .dot ∨ l.kind = .slash) ∧ name = [] then
    some (text "must not start with \"" ++ l.spelling ++ text "\"")
  else if before = some .slash ∧ ends then some (text "must not end with \"/\"")
  else if before = some .dot ∧ ends then some (text "must not end with \".\"")
  else if l.kind = .dot ∧ before = some .slash then some (text "must not contains \"/.\"")
  else if l.kind = .dot ∧ before = some .dot then some (text "must not contains \"..\"")
  else if l.kind = .slash ∧ before = some .slash then some (text "must not contains consecutively \"/\"")
  else if (l.kind = .slash ∨ ends) ∧ (text ".lock").isSuffixOf name then some (text "cannot end with .lock")
  else none

/-- The name of a reference, from `name` on, and the lexemes after it. -/
def nameFrom (before : Option Kind) (name : Text) : List Lexeme → Except Fault (Text × List Lexeme)
  | [] =>
    match nameFault? ⟨.stop, []⟩ before name with
    | some fault => .error fault
    | none => .ok (name, [])
  | l :: rest =>
    match nameFault? l before name with
    | some fault => .error fault
    | none =>
      if l.kind.endsName then .ok (name, l :: rest) else nameFrom (some l.kind) (name ++ l.spelling) rest

/-- The parts of a row of lexemes, at most `bound` of them. -/
def partsFrom : Nat → List Lexeme → Except Fault (List Part)
  | 0, _ => .ok []
  | _, [] => .ok []
  | bound + 1, l :: rest => do
    match l.kind with
    | .at =>
      let (part, rest) ← atPart rest
      return part :: (← partsFrom bound rest)
    | .tilde =>
      let (part, rest) := tildePart rest
      return part :: (← partsFrom bound rest)
    | .caret =>
      let (part, rest) ← caretPart rest
      return part :: (← partsFrom bound rest)
    | .colon => return [← colonPart rest]
    | _ =>
      let (name, rest) ← nameFrom none [] (l :: rest)
      return .reference name :: (← partsFrom bound rest)

/-! ## Order -/

/-- What is wrong with the order of parts: `alone` of `count` parts, `named` after a reference. -/
def orderFault? (count : Nat) : Nat → Bool → List Part → Option Fault
  | _, _, [] => none
  | i, named, part :: rest =>
    let quoted (sign forms : String) : Option Fault :=
      some (text "\"" ++ text sign ++ text "\" statement is not valid, could be : " ++ text forms)
    let afterName : Bool := count == 1 || (named && count == 2)
    match part with
    | .reference _ =>
      if i = 0 then orderFault? count (i + 1) true rest
      else some (text "reference must be defined once at the beginning")
    | .date =>
      if afterName then none
      else quoted "@" "<refname>@\x7b<ISO-8601 date>\x7d, @\x7b<ISO-8601 date>\x7d"
    | .entry => if afterName then none else quoted "@" "<refname>@\x7b<n>\x7d, @\x7b<n>\x7d"
    | .checkout => if count = 1 then none else quoted "@" "@\x7b-<n>\x7d"
    | .tracked =>
      if afterName then none
      else quoted "@" "<refname>@\x7bupstream\x7d, @\x7bupstream\x7d, <refname>@\x7bu\x7d, @\x7bu\x7d"
    | .push => if afterName then none else quoted "@" "<refname>@\x7bpush\x7d, @\x7bpush\x7d"
    | .back _ | .parent _ | .matching .. =>
      if named then orderFault? count (i + 1) named rest
      else some (text "\"~\" or \"^\" statement must have a reference defined at the beginning")
    | .objectOf _ => orderFault? count (i + 1) named rest
    | .message => if count = 1 then none else quoted ":" ":/<regexp>"
    | .path =>
      if (i + 1 = count ∧ named) ∨ count = 1 then none else quoted ":" "<revision>:<path>"
    | .stage => if count = 1 then none else quoted ":" ":<n>:<path>"

/-- The parts of a revision. -/
def parse (t : Text) : Except Fault (List Part) := do
  let ls := lexemes t
  let parts ← partsFrom ls.length ls
  match orderFault? parts.length 0 false parts with
  | some fault => .error fault
  | none => .ok parts

end StoneLang.Revision
