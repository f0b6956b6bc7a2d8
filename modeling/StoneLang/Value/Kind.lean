/-
  The kinds of value, by name and by number.
-/
import StoneLang.Text.Decimal

namespace StoneLang

/-- The category of a value. -/
inductive ValueKind where
  | null | integer | string | array | function | nativeFunction | classValue | object | method
deriving DecidableEq, Repr

namespace ValueKind

/-- Every kind once, in the order of their numbers. -/
def all : List ValueKind :=
  [.null, .integer, .string, .array, .function, .nativeFunction, .classValue, .object, .method]

def label : ValueKind → Text
  | .null => text "null"
  | .integer => text "integer"
  | .string => text "string"
  | .array => text "array"
  | .function => text "function"
  | .nativeFunction => text "native_function"
  | .classValue => text "class"
  | .object => text "object"
  | .method => text "method"

/-- The name that belongs to a kind number; a number without a kind shows itself. -/
def labelOfCode (code : Int) : Text :=
  match (if code < 0 then none else all[code.toNat]?) with
  | some kind => kind.label
  | none => text "unknown_kind_" ++ Decimal.ofInt code

end ValueKind

end StoneLang
