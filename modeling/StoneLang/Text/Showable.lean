/-
  Showable text.

  A text can be shown on a screen when all its code points are printable or separators.  What remains,
  controls, format characters, private code points and those without a meaning yet, cannot.
-/
import StoneLang.Text.Printable

namespace StoneLang.Text

/-- A code point that separates words, lines or paragraphs. -/
def isSeparator (code : Nat) : Bool :=
  code == 0x20 || code == 0xA0 || code == 0x1680 || (0x2000 ≤ code && code ≤ 0x200A) || code == 0x2028
    || code == 0x2029 || code == 0x202F || code == 0x205F || code == 0x3000

/-- A piece that can be shown; for a stray byte its replacement is. -/
def Piece.isShowable : Piece → Bool
  | .scalar code _ => isPrintable code || isSeparator code
  | .stray _ => true

def isShowable (t : Text) : Bool := (pieces t).all Piece.isShowable

end StoneLang.Text
