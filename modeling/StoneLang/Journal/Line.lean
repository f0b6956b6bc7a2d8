/-
  Records as lines.

  A record is written as one line of keys and values, the level and the message first.  A value that
  could be misread is quoted: an empty one, or one with a space, an equals sign, a quote or anything that
  is not printable.  Serial numbers are left out, so that equal runs give equal lines.
-/
import StoneLang.Journal.Basic
import StoneLang.Text.Quoted

namespace StoneLang

def Text.Piece.needsQuotes : Piece → Bool
  | .stray _ => true
  | .scalar code _ =>
    if code < 0x80 then code ≤ 0x20 || code == 0x22 || code == 0x3D
    else code == 0xFFFD || !isPrintable code

def Text.inLine (t : Text) : Text :=
  if t = [] || (pieces t).any Piece.needsQuotes then t.quoted else t

namespace Record

/-- A key with its value. -/
def entry (key value : Text) : Text := key.inLine ++ text "=" ++ value.inLine

/-- The line of a record. -/
def line (r : Record) : Text :=
  let shown := r.fields.filter fun (_, value) => !value.isSerial
  Text.join [Text.space]
      (entry (text "level") r.level.label :: entry (text "msg") r.message ::
        shown.map fun (key, value) => entry key value.shown)
    ++ [Text.newline]

def lines (threshold : Level) (records : List Record) : Text :=
  (records.filter fun r => threshold.passes r.level).flatMap line

end Record

end StoneLang
