/-
  Decimal fractions at double precision.

  A decimal fraction is rounded to the nearest number of the form `m * 2 ^ q` with `m` below `2 ^ 53`,
  a tie going to the even `m`, and what is kept of it is its whole part.  All arithmetic is exact, on
  natural numbers.
-/
import StoneLang.Text.Decimal

namespace StoneLang.Binary64

/-- The quotient `num / den` rounded to the nearest natural number, a half going to the even one. -/
def roundDiv (num den : Nat) : Nat :=
  let q := num / den
  let twice := 2 * (num % den)
  if den < twice || (twice == den && q % 2 == 1) then q + 1 else q

def wholePart (num den : Nat) : Nat :=
  let size := (num / den).log2
  -- the fraction has `size + 1` bits before the point, so `53 - (size + 1)` bits after it are kept
  if num / den = 0 then
    if 2 * num < den then 0
    else
      -- between a half and one the spacing is `2 ^ -53`
      roundDiv (num <<< 53) den >>> 53
  else if size ≤ 52 then roundDiv (num <<< (52 - size)) den >>> (52 - size)
  else roundDiv num (den <<< (size - 52)) <<< (size - 52)

def overflow : Nat := 1 <<< 1024

/-- The whole part of the double nearest to `digits * 10 ^ exponent`; none if it is too large. -/
def ofScientific? (digits : Nat) (exponent : Int) : Option Nat :=
  if digits = 0 then some 0
  else
    let magnitude := (Decimal.ofNat digits).length + exponent
    if 310 < magnitude then none
    else if magnitude < 0 then some 0
    else
      let whole :=
        if 0 ≤ exponent then wholePart (digits * Nat.pow 10 exponent.toNat) 1
        else wholePart digits (Nat.pow 10 (-exponent).toNat)
      if whole < overflow then some whole else none

end StoneLang.Binary64
