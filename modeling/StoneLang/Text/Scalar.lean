/-
  Code points in text.

  `Text.pieces` cuts a byte string into its pieces: well-formed UTF-8 sequences, each with its code
  point, and stray bytes that belong to none.  Overlong forms, surrogates and values above 0x10FFFF are
  not well formed, so their bytes are stray.  No byte is lost: the bytes of the pieces, one after the
  other, are the text.

  The cut walks the bytes once with a counter of bytes already accounted for, so it recurses on the
  list itself.
-/
import StoneLang.Text.Basic

namespace StoneLang.Text

/-- A piece of a text: one code point with the bytes that write it, or one byte that writes none. -/
inductive Piece where
  | scalar (code : Nat) (bytes : Text)
  | stray (byte : UInt8)
deriving DecidableEq, Repr

def Piece.bytes : Piece → Text
  | .scalar _ bytes => bytes
  | .stray byte => [byte]

def isContinuation (b : UInt8) : Bool := 0x80 ≤ b && b ≤ 0xBF

def payload (b : UInt8) : Nat := b.toNat % 64

def headPiece (b : UInt8) (rest : Text) : Piece :=
  if b < 0x80 then .scalar b.toNat [b]
  else if 0xC2 ≤ b ∧ b ≤ 0xDF then
    match rest with
    | c :: _ => if isContinuation c then .scalar (b.toNat % 32 * 64 + payload c) [b, c] else .stray b
    | _ => .stray b
  else if 0xE0 ≤ b ∧ b ≤ 0xEF then
    match rest with
    | c :: d :: _ =>
      let low : UInt8 := if b = 0xE0 then 0xA0 else 0x80
      let high : UInt8 := if b = 0xED then 0x9F else 0xBF
      if low ≤ c ∧ c ≤ high ∧ isContinuation d then
        .scalar ((b.toNat % 16 * 64 + payload c) * 64 + payload d) [b, c, d]
      else .stray b
    | _ => .stray b
  else if 0xF0 ≤ b ∧ b ≤ 0xF4 then
    match rest with
    | c :: d :: e :: _ =>
      let low : UInt8 := if b = 0xF0 then 0x90 else 0x80
      let high : UInt8 := if b = 0xF4 then 0x8F else 0xBF
      if low ≤ c ∧ c ≤ high ∧ isContinuation d ∧ isContinuation e then
        .scalar (((b.toNat % 8 * 64 + payload c) * 64 + payload d) * 64 + payload e) [b, c, d, e]
      else .stray b
    | _ => .stray b
  else .stray b

/-- The pieces of a text of which the first `covered` bytes belong to a piece already given. -/
def piecesFrom : Nat → Text → List Piece
  | _, [] => []
  | covered + 1, _ :: rest => piecesFrom covered rest
  | 0, b :: rest =>
    let piece := headPiece b rest
    piece :: piecesFrom (piece.bytes.length - 1) rest

def pieces (t : Text) : List Piece := piecesFrom 0 t

def isUtf8 (t : Text) : Bool := (pieces t).all fun
  | .scalar _ _ => true
  | .stray _ => false

def ofScalar (code : Nat) : Text :=
  if code < 0x80 then [code.toUInt8]
  else if code < 0x800 then [(0xC0 + code / 64).toUInt8, (0x80 + code % 64).toUInt8]
  else if code < 0x10000 then
    [(0xE0 + code / 4096).toUInt8, (0x80 + code / 64 % 64).toUInt8, (0x80 + code % 64).toUInt8]
  else
    [(0xF0 + code / 262144).toUInt8, (0x80 + code / 4096 % 64).toUInt8,
      (0x80 + code / 64 % 64).toUInt8, (0x80 + code % 64).toUInt8]

end StoneLang.Text
