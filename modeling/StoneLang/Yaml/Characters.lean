/-
  The characters of a YAML text.

  A text is UTF-8, or UTF-16 if it starts with the byte order mark of that encoding; a byte order mark at
  its start is no content.  Controls other than tab and line ends are not allowed.

  A carriage return counts as a line feed, except that right before a line feed it stays, as a blank.  The
  next-line character, which is worth a line feed, and the line and paragraph separators end lines, too:
  these are the wide line ends.

  A text is held in parts: the first part are the characters whose bytes are all among its first 512.
  It matters only for a text that has a second byte order mark.
-/
import StoneLang.Text.Scalar

namespace StoneLang.Yaml

def isAllowed (code : Nat) : Bool :=
  code == 0x09 || code == 0x0A || code == 0x0D || (0x20 ≤ code && code ≤ 0x7E) || code == 0x85
    || (0xA0 ≤ code && code ≤ 0xD7FF) || (0xE000 ≤ code && code ≤ 0xFFFD)
    || (0x10000 ≤ code && code ≤ 0x10FFFF)

def ofUtf8? (t : Text) : Option (List Nat) :=
  t.pieces.mapM fun
    | .scalar code _ => some code
    | .stray _ => none

/-- The 16-bit units of a text; `unit` makes one from two neighbouring bytes. -/
def units? (unit : UInt8 → UInt8 → Nat) : Text → Option (List Nat)
  | [] => some []
  | [_] => none
  | a :: b :: rest => (units? unit rest).map (unit a b :: ·)

/-- The code points that 16-bit units write: two surrogates, a high one and a low one, write one. -/
def ofUnits? : List Nat → Option (List Nat)
  | [] => some []
  | u :: rest =>
    if 0xD800 ≤ u ∧ u ≤ 0xDBFF then
      match rest with
      | v :: more =>
        if 0xDC00 ≤ v ∧ v ≤ 0xDFFF then
          (ofUnits? more).map ((0x10000 + (u - 0xD800) * 0x400 + (v - 0xDC00)) :: ·)
        else none
      | [] => none
    else if 0xDC00 ≤ u ∧ u ≤ 0xDFFF then none
    else (ofUnits? rest).map (u :: ·)

/-- The encodings of a text. -/
inductive Encoding where
  | utf8
  /-- Of the two bytes of a unit, the low one or the high one comes first. -/
  | utf16 (lowFirst : Bool)
deriving DecidableEq, Repr

namespace Encoding

/-- The encoding that the first bytes of a text tell, and the length of its byte order mark. -/
def ofText : Text → Encoding × Nat
  | 0xFF :: 0xFE :: _ => (.utf16 true, 2)
  | 0xFE :: 0xFF :: _ => (.utf16 false, 2)
  | 0xEF :: 0xBB :: 0xBF :: _ => (.utf8, 3)
  | _ => (.utf8, 0)

def decode? : Encoding → Text → Option (List Nat)
  | .utf8, t => ofUtf8? t
  | .utf16 true, t => (units? (fun low high => high.toNat * 256 + low.toNat) t).bind ofUnits?
  | .utf16 false, t => (units? (fun high low => high.toNat * 256 + low.toNat) t).bind ofUnits?

def width : Encoding → Nat → Nat
  | .utf8, code => (Text.ofScalar code).length
  | .utf16 _, code => if code < 0x10000 then 2 else 4

/-- The number of code points at the head of a row that are written whole in so many bytes. -/
def fitting (e : Encoding) : Nat → List Nat → Nat
  | _, [] => 0
  | bytes, code :: rest => if e.width code ≤ bytes then fitting e (bytes - e.width code) rest + 1 else 0

end Encoding

def byteOrderMark : Char := '\uFEFF'

def lineSeparator : Char := '\u2028'

def paragraphSeparator : Char := '\u2029'

def nextLine : Char := '\u0085'

def isWideBreak (c : Char) : Bool := c == nextLine || c == lineSeparator || c == paragraphSeparator

def isBreak (c : Char) : Bool := c == '\n' || isWideBreak c

def breakValue (c : Char) : Char := if c = nextLine then '\n' else c

/-- The characters of code points, carriage returns counted as said above. -/
def unifyLines : List Nat → List Char
  | [] => []
  | code :: rest =>
    (if code = 0x0D ∧ rest.head? ≠ some 0x0A then '\n' else Char.ofNat code) :: unifyLines rest

/-- The size of the first part of a text that is held at once, in bytes. -/
def partSize : Nat := 512

/-- The characters of a text; nothing if it is malformed.  If there is a byte order mark at its start
besides the one of its encoding, the number of characters after the first part comes with them. -/
def characters? (t : Text) : Option (List Char × Option Nat) := do
  let (encoding, mark) := Encoding.ofText t
  let codes ← encoding.decode? (t.drop mark)
  if codes.all isAllowed then
    let beyond := codes.length - encoding.fitting (partSize - mark) codes
    some (unifyLines codes, if codes.head? = some byteOrderMark.toNat then some beyond else none)
  else none

def toText (cs : List Char) : Text := cs.flatMap fun c => Text.ofScalar c.toNat

end StoneLang.Yaml
