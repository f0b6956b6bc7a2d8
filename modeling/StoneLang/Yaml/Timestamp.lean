/-
  Points in time.

  A plain scalar such as `2001-12-14` or `2001-12-14T21:59:43.10-05:00` denotes a point in time.  The
  configuration has no use for one, but must tell it from a number or a string.  Month, day, hour,
  minute and second take one or two digits; a zone is needed after `T` and refused after a blank.
-/
import StoneLang.Text.Decimal

namespace StoneLang.Yaml.Timestamp

/-- One or two digits, and what follows them. -/
def number : Text → Option (Nat × Text)
  | a :: b :: rest =>
    if Decimal.isDigit a then
      if Decimal.isDigit b then some (Decimal.value [a, b], rest) else some (Decimal.value [a], b :: rest)
    else none
  | [a] => if Decimal.isDigit a then some (Decimal.value [a], []) else none
  | [] => none

/-- What follows the byte `b`. -/
def after (b : UInt8) : Text → Option Text
  | c :: rest => if c = b then some rest else none
  | [] => none

def daysIn (year month : Nat) : Nat :=
  if month = 2 then if year % 4 = 0 ∧ (year % 100 ≠ 0 ∨ year % 400 = 0) then 29 else 28
  else if month = 4 ∨ month = 6 ∨ month = 9 ∨ month = 11 then 30
  else 31

def date (t : Text) : Option Text := do
  let year := t.takeWhile Decimal.isDigit
  if year.length ≠ 4 then none
  let (month, t) ← number (← after 0x2D (t.drop 4))
  let (day, t) ← number (← after 0x2D t)
  if 1 ≤ month ∧ month ≤ 12 ∧ 1 ≤ day ∧ day ≤ daysIn (Decimal.value year) month then some t else none

def fraction : Text → Text
  | point :: digit :: rest =>
    if (point = 0x2E ∨ point = 0x2C) ∧ Decimal.isDigit digit then rest.dropWhile Decimal.isDigit
    else point :: digit :: rest
  | t => t

def clock (t : Text) : Option Text := do
  let (hour, t) ← number t
  let (minute, t) ← number (← after 0x3A t)
  let (second, t) ← number (← after 0x3A t)
  if hour < 24 ∧ minute < 60 ∧ second < 60 then some (fraction t) else none

def isZone (t : Text) : Bool :=
  match t with
  | [z] => z = 0x5A
  | [sign, h, hh, colon, m, mm] =>
    (sign = 0x2B ∨ sign = 0x2D) && colon = 0x3A && [h, hh, m, mm].all Decimal.isDigit
      && decide (Decimal.value [h, hh] ≤ 24) && decide (Decimal.value [m, mm] ≤ 60)
  | _ => false

def denotes (t : Text) : Bool :=
  match date t with
  | none => false
  | some [] => true
  | some (b :: rest) =>
    if b = 0x54 ∨ b = 0x74 then (clock rest).any isZone
    else if b = Text.space then (clock (rest.dropWhile (· == Text.space))).any (· == [])
    else false

end StoneLang.Yaml.Timestamp
