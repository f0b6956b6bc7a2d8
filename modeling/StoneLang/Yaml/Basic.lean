/-
  YAML values.

  A document of the configuration format is a scalar, a sequence or a mapping; each part knows the line
  on which it starts.  A scalar is plain or quoted: a quoted one is always a string, a plain one is what
  it looks like (`StoneLang.Yaml.Scalar`).
-/
import StoneLang.Text.Basic

namespace StoneLang

/-- A value of a document. -/
inductive Yaml where
  | scalar (line : Nat) (quoted : Bool) (value : Text)
  | sequence (line : Nat) (items : List Yaml)
  | mapping (line : Nat) (entries : List (Yaml × Yaml))

namespace Yaml

/-- The line on which a value starts. -/
def line : Yaml → Nat
  | .scalar line .. => line
  | .sequence line _ => line
  | .mapping line _ => line

def absent (line : Nat) : Yaml := .scalar line false []

/-- The text of a scalar; nothing for a collection. -/
def source : Yaml → Text
  | .scalar _ _ value => value
  | _ => []

/-- Two values have the same shape: scalar, sequence or mapping. -/
def sameShape : Yaml → Yaml → Bool
  | .scalar .., .scalar .. => true
  | .sequence .., .sequence .. => true
  | .mapping .., .mapping .. => true
  | _, _ => false

def sameKey (a b : Yaml) : Bool := a.sameShape b && a.source == b.source

end Yaml

end StoneLang
