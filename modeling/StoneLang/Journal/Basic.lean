/-
  Records of what the passes do.

  A record is a message with named data.  The passes write records only while they are watched; nothing
  reads them back.
-/
import StoneLang.Text.Decimal

namespace StoneLang

/-- The weight of a record. -/
inductive Level where
  | debug | info | warn | error
deriving DecidableEq, Repr

namespace Level

/-- Every level once, the lightest first. -/
def all : List Level := [.debug, .info, .warn, .error]

def rank : Level → Nat
  | .debug => 0
  | .info => 1
  | .warn => 2
  | .error => 3

def label : Level → Text
  | .debug => text "DEBUG"
  | .info => text "INFO"
  | .warn => text "WARN"
  | .error => text "ERROR"

/-- A journal with the threshold `threshold` keeps records of this level. -/
def passes (threshold level : Level) : Bool := threshold.rank ≤ level.rank

end Level

/-- A value in a record. -/
inductive Datum where
  | text (value : Text)
  | number (value : Int)
  /-- A number that only tells things of one run apart. -/
  | serial (value : Nat)
deriving DecidableEq, Repr

/-- The text of a datum. -/
def Datum.shown : Datum → Text
  | .text value => value
  | .number value => Decimal.ofInt value
  | .serial value => Decimal.ofNat value

def Datum.isSerial : Datum → Bool
  | .serial _ => true
  | _ => false

/-- A message with named data. -/
structure Record where
  level : Level
  message : Text
  fields : List (Text × Datum)
deriving DecidableEq, Repr

def Record.debug (message : String) (fields : List (String × Datum)) : Record :=
  ⟨.debug, StoneLang.text message, fields.map fun (key, value) => (StoneLang.text key, value)⟩

end StoneLang
