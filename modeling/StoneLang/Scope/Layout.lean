/-
  The members of a class.

  A layout lists the fields and the methods of a class, those of its superclass first and in the same
  slots.  A method that is defined again keeps its slot and changes its definition there, so a slot that
  was found in a superclass is right in every class below it.
-/
import StoneLang.Scope.Basic

namespace StoneLang

/-- A function as it is written: a definition in a class, or at the top. -/
structure Definition where
  site : Site
  title : Label
  parameters : List Label
  body : List Node

namespace Definition

def toNode (d : Definition) : Node := .definition d.site d.title d.parameters d.body

/-- The name of a definition. -/
def name (d : Definition) : Text := d.title.text

def parameterNames (d : Definition) : List Text := d.parameters.map Label.text

/-- The definition that a node is, if it is one. -/
def ofNode? : Node → Option Definition
  | .definition site title params body => some ⟨site, title, params, body⟩
  | _ => none

end Definition

/-- The members of a class with their slots. -/
structure Layout where
  fields : List Text
  methods : List Text
  /-- The definition of each method, by slot. -/
  definitions : List Definition

namespace Layout

def empty : Layout := ⟨[], [], []⟩

def fieldCount (l : Layout) : Nat := l.fields.length

/-- The slot of a field. -/
def field? (l : Layout) (name : Text) : Option Nat := l.fields.idxOf? name

def method? (l : Layout) (name : Text) : Option Nat :=
  (l.methods.idxOf? name).filter fun slot => slot < l.definitions.length

/-- The names of the members: the fields, then the methods, each in byte order. -/
def memberNames (l : Layout) : List Text := Text.sort l.fields ++ Text.sort l.methods

/-- The layout with a definition in slot `slot`, which is in use or the first free one. -/
def define (l : Layout) (slot : Nat) (d : Definition) : Layout :=
  if slot < l.definitions.length then { l with definitions := l.definitions.set slot d }
  else { l with definitions := l.definitions ++ [d] }

/-- The layout with one more method, and the slot of that method. -/
def addMethod (l : Layout) (d : Definition) : Nat × Layout :=
  let (slot, table) := Table.add ⟨.methods, l.methods⟩ d.name
  (slot, { l with methods := table.names }.define slot d)

end Layout

end StoneLang
