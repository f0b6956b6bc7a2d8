/-
  Decimal numbers in text.

  Writing: `Decimal.ofNat` and `Decimal.ofInt` give the shortest decimal form, with a minus sign for a
  negative number.  Reading: `Decimal.value` is the number that a run of digits denotes, whatever its
  length; `Decimal.int64?` accepts an optional sign and at least one digit, and refuses a value outside
  the signed 64-bit range.  The range test is made on the exact value, so there is no overflow to speak
  of, and the minimum, which has no positive counterpart, needs no case of its own.
-/
import StoneLang.Text.Basic

namespace StoneLang

namespace Decimal

def digit (n : Nat) : UInt8 := (0x30 + n).toUInt8

/-- The decimal digits of `n`, most significant first, with no leading zero except for zero itself. -/
def ofNat (n : Nat) : Text :=
  if n < 10 then [digit n] else ofNat (n / 10) ++ [digit (n % 10)]

def ofInt (n : Int) : Text :=
  if n < 0 then 0x2D :: ofNat n.natAbs else ofNat n.natAbs

def ofInt64 (n : Int64) : Text := ofInt n.toInt

/-- An ASCII digit. -/
def isDigit (b : UInt8) : Bool := 0x30 ≤ b && b ≤ 0x39

/-- The number that a run of digits denotes. -/
def value (digits : Text) : Nat := digits.foldl (fun v d => 10 * v + (d.toNat - 0x30)) 0

/-- The signed 64-bit integer equal to `n`, if there is one. -/
def toInt64? (n : Int) : Option Int64 :=
  if Int64.minValue.toInt ≤ n ∧ n ≤ Int64.maxValue.toInt then some (Int64.ofInt n) else none

/-- The integer that a nonempty run of digits denotes, if it is in range. -/
def unsigned? (digits : Text) : Option Int64 :=
  if digits ≠ [] ∧ digits.all isDigit then toInt64? (value digits) else none

/-- The exact integer written in `t`: an optional sign and one or more digits. -/
def int? : Text → Option Int
  | [] => none
  | b :: rest =>
    if b = 0x2B then natural rest
    else if b = 0x2D then (natural rest).map (- ·)
    else natural (b :: rest)
where
  /-- A nonempty run of digits. -/
  natural (digits : Text) : Option Int :=
    if digits ≠ [] ∧ digits.all isDigit then some (value digits) else none

/-- The signed 64-bit integer written in `t`: an optional sign and one or more digits, in range. -/
def int64? (t : Text) : Option Int64 := (int? t).bind toInt64?

end Decimal

end StoneLang
