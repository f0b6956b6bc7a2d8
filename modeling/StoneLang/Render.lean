/-
  The text of a value, as printing and joining with a string show it.

  An array is shown element by element in brackets.  Arrays may contain each other in circles, so an
  array that is being shown already is not shown again inside itself.  The walk needs at most one level
  for every array of the store, because the arrays that are open are all different.
-/
import StoneLang.Machine

namespace StoneLang

def Function.shownName (f : Function) : Text := if f.name = [] then text "closure" else f.name

namespace Machine

def renderFlat (m : Machine) : Value → Text
  | .null => text "null"
  | .integer n => Decimal.ofInt64 n
  | .string t => t
  | .array _ => text "[...]"
  | .function ref =>
    text "<fun:" ++ ((m.functions[ref]?).map Function.shownName).getD [] ++ text ">"
  | .native ref => text "<native:" ++ ((m.natives[ref]?).map Native.name).getD [] ++ text ">"
  | .classValue ref => text "<class:" ++ ((m.classes[ref]?).map Class.name).getD [] ++ text ">"
  | .object ref => text "<object:" ++ m.className ref ++ text ">"
  | .method receiver d => text "<method:" ++ m.className receiver ++ text "." ++ d.name ++ text ">"

/-- The text of a value inside the arrays `opened`, with `levels` levels left. -/
def renderWithin (m : Machine) : Nat → List Nat → Value → Text
  | levels + 1, opened, .array ref =>
    if opened.contains ref then text "[...]"
    else
      let elements := (m.arrays[ref]?).getD #[]
      text "[" ++ Text.join (text ", ") (elements.toList.map (m.renderWithin levels (ref :: opened)))
        ++ text "]"
  | _, _, value => m.renderFlat value

/-- The text of a value. -/
def render (m : Machine) (value : Value) : Text := m.renderWithin (m.arrays.size + 1) [] value

end Machine

end StoneLang
