/-
  What a plain scalar denotes.

  A plain scalar is null, a truth value, a whole number, a fraction, a point in time, the key of merged
  entries, or else a string.
  Whole numbers may have a sign, underscores and a base (`0x`, `0o`, `0b`, or a leading zero for octal);
  one that fits neither a signed nor an unsigned 64-bit word is read as a fraction.
-/
import StoneLang.Text.Binary64
import StoneLang.Yaml.Basic
import StoneLang.Yaml.Timestamp

namespace StoneLang.Yaml

/-- A fraction as far as it matters here: its whole part. -/
inductive Fraction where
  | notANumber
  | infinite (negative : Bool)
  | finite (whole : Int)
deriving DecidableEq, Repr

/-- What a scalar denotes. -/
inductive Meaning where
  | null
  | truth (value : Bool)
  | integer (value : Int)
  | fraction (value : Fraction)
  | time
  /-- The key of entries to merge. -/
  | merge
  | string
deriving DecidableEq, Repr

def Meaning.tag : Meaning → Text
  | .null => text "!!null"
  | .truth _ => text "!!bool"
  | .integer _ => text "!!int"
  | .fraction _ => text "!!float"
  | .time => text "!!timestamp"
  | .merge => text "!!merge"
  | .string => text "!!str"

/-- The words with a meaning of their own. -/
def words : List (String × Meaning) :=
  [("", .null), ("~", .null), ("null", .null), ("Null", .null), ("NULL", .null),
    ("true", .truth true), ("True", .truth true), ("TRUE", .truth true),
    ("false", .truth false), ("False", .truth false), ("FALSE", .truth false),
    (".nan", .fraction .notANumber), (".NaN", .fraction .notANumber), (".NAN", .fraction .notANumber),
    (".inf", .fraction (.infinite false)), (".Inf", .fraction (.infinite false)),
    (".INF", .fraction (.infinite false)), ("+.inf", .fraction (.infinite false)),
    ("+.Inf", .fraction (.infinite false)), ("+.INF", .fraction (.infinite false)),
    ("-.inf", .fraction (.infinite true)), ("-.Inf", .fraction (.infinite true)),
    ("-.INF", .fraction (.infinite true)), ("<<", .merge)]

def digitValue? (b : UInt8) : Option Nat :=
  if Decimal.isDigit b then some (b.toNat - 0x30)
  else if 0x61 ≤ b ∧ b ≤ 0x7A then some (b.toNat - 0x57)
  else if 0x41 ≤ b ∧ b ≤ 0x5A then some (b.toNat - 0x37)
  else none

def inBase? (base : Nat) (digits : Text) : Option Nat :=
  digits.foldlM (fun n b => do
    let d ← digitValue? b
    if d < base then some (base * n + d) else none) 0

/-- The number written by a nonempty run of digits, whose first bytes may name the base. -/
def magnitude? : Text → Option Nat
  | [] => none
  | [b] => inBase? 10 [b]
  | z :: b :: rest =>
    if z = 0x30 then
      if rest ≠ [] ∧ (b = 0x78 ∨ b = 0x58) then inBase? 16 rest
      else if rest ≠ [] ∧ (b = 0x6F ∨ b = 0x4F) then inBase? 8 rest
      else if rest ≠ [] ∧ (b = 0x62 ∨ b = 0x42) then inBase? 2 rest
      else inBase? 8 (b :: rest)
    else inBase? 10 (z :: b :: rest)

/-- The whole number written in `t`, if a 64-bit word holds it. -/
def integer? (t : Text) : Option Int :=
  match t with
  | [] => none
  | sign :: rest =>
    if sign = 0x2B then (magnitude? rest).bind fun n => if n ≤ Int64.maxValue.toInt then some n else none
    else if sign = 0x2D then (magnitude? rest).bind fun n => if Int64.minValue.toInt ≤ -n then some (-n) else none
    else (magnitude? t).bind fun n => if n < UInt64.size then some n else none

/-- The whole number written in `t` after the name of its base, if a signed 64-bit word holds it: here the
sign stands between the two. -/
def innerSigned? (t : Text) : Option Int :=
  match t with
  | z :: b :: sign :: digits =>
    let base? : Option Nat := if b = 0x62 then some 2 else if b = 0x6F then some 8 else none
    match base? with
    | some base =>
      if z ≠ 0x30 ∨ digits = [] then none
      else if sign = 0x2B then (inBase? base digits).bind fun n => if n ≤ Int64.maxValue.toInt then some n else none
      else if sign = 0x2D then (inBase? base digits).bind fun n => if Int64.minValue.toInt ≤ -n then some (-n) else none
      else none
    | none => none
  | _ => none

/-- The exponent at the end of a fraction; zero if nothing is left. -/
def exponent? : Text → Option Int
  | [] => some 0
  | e :: rest => if e = 0x65 ∨ e = 0x45 then Decimal.int? rest else none

/-- The whole part of the unsigned fraction written in `t`: digits, a point and digits, an exponent. -/
def unsignedFraction? (t : Text) : Option Nat := do
  let whole := t.takeWhile Decimal.isDigit
  let rest := t.dropWhile Decimal.isDigit
  let (decimals, rest, hasPoint) := match rest with
    | point :: more =>
      if point = 0x2E then (more.takeWhile Decimal.isDigit, more.dropWhile Decimal.isDigit, true)
      else ([], rest, false)
    | [] => ([], [], false)
  if whole = [] ∧ (!hasPoint ∨ decimals = []) then none
  let exponent ← exponent? rest
  Binary64.ofScientific? (Decimal.value (whole ++ decimals)) (exponent - decimals.length)

def fraction? (t : Text) : Option Int :=
  match t with
  | [] => none
  | sign :: rest =>
    if sign = 0x2B then (unsignedFraction? rest).map Int.ofNat
    else if sign = 0x2D then (unsignedFraction? rest).map fun n => -(n : Int)
    else (unsignedFraction? t).map Int.ofNat

/-- What a scalar that starts with a digit or a sign denotes. -/
def numeral (t : Text) : Meaning :=
  if Timestamp.denotes t then .time
  else
    let digits := t.filter (· != 0x5F)
    match integer? digits with
    | some n => .integer n
    | none =>
      match fraction? digits, innerSigned? digits with
      | some whole, _ => .fraction (.finite whole)
      | none, some n => .integer n
      | none, none => .string

/-- Every underscore of `t` stands between two digits; `digit` says whether a digit comes before. -/
def separatesDigits (digit : Bool) : Text → Bool
  | [] => true
  | b :: rest =>
    if b = 0x5F then digit && (rest.head?.any Decimal.isDigit) && separatesDigits false rest
    else separatesDigits (Decimal.isDigit b) rest

def pointed (t : Text) : Meaning :=
  if separatesDigits false t then
    match fraction? (t.filter (· != 0x5F)) with
    | some whole => .fraction (.finite whole)
    | none => .string
  else .string

def meaning (t : Text) : Meaning :=
  match words.find? fun (word, _) => text word == t with
  | some (_, m) => m
  | none =>
    match t with
    | [] => .null
    | b :: _ =>
      if Decimal.isDigit b ∨ b = 0x2B ∨ b = 0x2D then numeral t
      else if b = 0x2E then pointed t
      else .string

end StoneLang.Yaml
