/-
  Values.

  Numbers and strings are values by themselves.  Arrays, functions, natives, classes and objects have an
  identity: a value of these kinds is the number of an entry in the store, and two values are equal when
  they are the same entry.  A method is an object together with the definition to run on it.
-/
import StoneLang.Scope.Layout
import StoneLang.Value.Kind

namespace StoneLang

/-- A value of the language. -/
inductive Value where
  | null
  | integer (n : Int64)
  | string (t : Text)
  | array (ref : Nat)
  | function (ref : Nat)
  | native (ref : Nat)
  | classValue (ref : Nat)
  | object (ref : Nat)
  | method (receiver : Nat) (definition : Definition)

namespace Value

/-- The kind of a value. -/
def kind : Value → ValueKind
  | null => .null
  | integer _ => .integer
  | string _ => .string
  | array _ => .array
  | function _ => .function
  | native _ => .nativeFunction
  | classValue _ => .classValue
  | object _ => .object
  | method .. => .method

/-- The truth of a value in a condition: every integer but zero is true, and nothing else is. -/
def isTrue : Value → Bool
  | integer n => n != 0
  | _ => false

/-- Equality as the language has it: by value for null, integers and strings, by identity for the rest.
Two methods are equal when they run the same definition on the same object. -/
def same : Value → Value → Bool
  | null, null => true
  | integer a, integer b => a == b
  | string a, string b => a == b
  | array a, array b => a == b
  | function a, function b => a == b
  | native a, native b => a == b
  | classValue a, classValue b => a == b
  | object a, object b => a == b
  | method a d, method b e => a == b && d.site == e.site
  | _, _ => false

/-- One for true and zero for false. -/
def ofBool (b : Bool) : Value := .integer (if b then 1 else 0)

end Value

end StoneLang
