/-
  Operators.

  Integers are signed and have 64 bits; arithmetic wraps around, division goes toward zero.  Equality is
  defined on all values.  Addition joins texts as soon as one side is no integer.  Every other operator
  wants two integers.
-/
import StoneLang.Render

namespace StoneLang

/-- The value of an operator other than equality on two integers. -/
def integerOperation (operator : Text) (a b : Int64) : Except Cause Value :=
  if operator = text "+" then .ok (.integer (a + b))
  else if operator = text "-" then .ok (.integer (a - b))
  else if operator = text "*" then .ok (.integer (a * b))
  else if operator = text "/" then
    if b = 0 then .error .divisionByZero else .ok (.integer (a / b))
  else if operator = text "%" then
    if b = 0 then .error .moduloByZero else .ok (.integer (a % b))
  else if operator = text "<" then .ok (.ofBool (a < b))
  else if operator = text ">" then .ok (.ofBool (b < a))
  else .error (.unsupportedOperator operator)

def binaryOperation (m : Machine) (operator : Text) (left right : Value) : Except Cause Value :=
  if operator = text "==" then .ok (.ofBool (left.same right))
  else
    match left, right with
    | .integer a, .integer b => integerOperation operator a b
    | _, _ =>
      if operator = text "+" then .ok (.string (m.render left ++ m.render right))
      else .error (.operandKinds operator left.kind right.kind)

def negation : Value → Except Cause Value
  | .integer n => .ok (.integer (-n))
  | value => .error (.cannotNegate value.kind)

namespace Run

def ofCause {α : Type} (line : Int) : Except Cause α → Run α
  | .ok a => return a
  | .error cause => fault cause line

/-- The array and the index that a subscript refers to. -/
def element (target index : Value) (line : Int) : Run (Nat × Nat) := do
  match target, index with
  | .array ref, .integer i =>
    let length := (((← get).arrays[ref]?).getD #[]).size
    if i.toInt < 0 ∨ length ≤ i.toInt then fault (.indexOutOfBounds i length) line
    else return (ref, i.toInt.toNat)
  | .array _, other => fault (.indexKind other.kind) line
  | other, _ => fault (.cannotIndex other.kind) line

/-- The element of an array. -/
def readElement (ref index : Nat) : Run Value := do
  return ((((← get).arrays[ref]?).getD #[])[index]?).getD .null

/-- Replaces an element of an array. -/
def setElement (ref index : Nat) (value : Value) : Run Unit :=
  modify fun m => { m with arrays := m.arrays.modify ref fun a => a.setIfInBounds index value }

end Run

end StoneLang
