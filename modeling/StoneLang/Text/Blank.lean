/-
  White space.

  Two notions live side by side.  Between tokens only five ASCII bytes are blank.  Where a whole text is
  trimmed or cut into words, every code point with the White_Space property is.
-/
import StoneLang.Text.Scalar

namespace StoneLang.Text

/-- A byte that may stand between two tokens: tab, line feed, form feed, carriage return or space. -/
def isTokenBlank (b : UInt8) : Bool := b == 0x09 || b == 0x0A || b == 0x0C || b == 0x0D || b == 0x20

def isBlankScalar (code : Nat) : Bool :=
  (0x09 ≤ code && code ≤ 0x0D) || code == 0x20 || code == 0x85 || code == 0xA0 || code == 0x1680
    || (0x2000 ≤ code && code ≤ 0x200A) || code == 0x2028 || code == 0x2029 || code == 0x202F
    || code == 0x205F || code == 0x3000

def Piece.isBlank : Piece → Bool
  | .scalar code _ => isBlankScalar code
  | .stray _ => false

def ofPieces (ps : List Piece) : Text := ps.flatMap Piece.bytes

/-- `t` without the white space at either end. -/
def trim (t : Text) : Text :=
  ofPieces (((pieces t).dropWhile Piece.isBlank).reverse.dropWhile Piece.isBlank).reverse

/-- The words of a row of pieces, `word` being the bytes of the word under way. -/
def wordsFrom (word : Text) : List Piece → List Text
  | [] => if word = [] then [] else [word]
  | p :: rest =>
    if p.isBlank then
      if word = [] then wordsFrom [] rest else word :: wordsFrom [] rest
    else wordsFrom (word ++ p.bytes) rest

/-- The words of `t`: the longest runs without white space. -/
def words (t : Text) : List Text := wordsFrom [] (pieces t)

end StoneLang.Text
