/-
  Texts in quotes.

  `Text.quoted` shows any byte string on one line between double quotes, so that two different texts
  never look the same.  Printable code points stand for themselves, the quote and the backslash take a
  backslash, seven control characters have a letter, and all else is written in hexadecimal: two digits
  for an ASCII control or a stray byte, four or eight for another code point.
-/
import StoneLang.Text.Printable

namespace StoneLang.Text

def hexDigit (n : Nat) : UInt8 := if n < 10 then (0x30 + n).toUInt8 else (0x57 + n).toUInt8

def hex : Nat → Nat → Text
  | 0, _ => []
  | width + 1, n => hex width (n / 16) ++ [hexDigit (n % 16)]

def escapeLetter? (code : Nat) : Option UInt8 :=
  match code with
  | 0x07 => some 0x61
  | 0x08 => some 0x62
  | 0x0C => some 0x66
  | 0x0A => some 0x6E
  | 0x0D => some 0x72
  | 0x09 => some 0x74
  | 0x0B => some 0x76
  | _ => none

def Piece.quoted : Piece → Text
  | .stray byte => text "\\x" ++ hex 2 byte.toNat
  | .scalar code bytes =>
    if code = 0x22 ∨ code = 0x5C then backslash :: bytes
    else if isPrintable code then bytes
    else
      match escapeLetter? code with
      | some letter => [backslash, letter]
      | none =>
        if code < 0x20 ∨ code = 0x7F then text "\\x" ++ hex 2 code
        else if code < 0x10000 then text "\\u" ++ hex 4 code
        else text "\\U" ++ hex 8 code

def quoted (t : Text) : Text := quoteMark :: (pieces t).flatMap Piece.quoted ++ [quoteMark]

end StoneLang.Text
