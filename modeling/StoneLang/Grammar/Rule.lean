/-
  Rules of a grammar.

  A rule is a row of elements and the shape of the node that their children become.  A grammar gives
  every rule name its rule; the names are a type of their own, so a grammar may be a fixed table over an
  enumeration, as the language's own is, or a book of rules that is still being written.

  Rules refer to each other by name, so a book may be changed in place: `Book.insertChoice` puts an
  alternative in front of what a rule says already, and every rule that mentions it sees the change.
-/
import StoneLang.Token.Stream
import StoneLang.Tree.Build

namespace StoneLang

/-- How strongly an operator binds, and to which side equal ones group. -/
structure Precedence where
  level : Int
  leftAssociative : Bool
deriving DecidableEq, Repr

/-- Operators with their precedence, each spelling once. -/
abbrev Operators := List (Text × Precedence)

namespace Operators

/-- The table with one more operator; an earlier entry of that spelling gives way. -/
def add (ops : Operators) (spelling : Text) (precedence : Precedence) : Operators :=
  (ops.filter fun entry => entry.1 ≠ spelling) ++ [(spelling, precedence)]

def find? (ops : Operators) (spelling : Text) : Option Precedence := ops.lookup spelling

/-- The spellings in byte order. -/
def names (ops : Operators) : List Text := Text.sort (ops.map Prod.fst)

end Operators

/-- The tokens that a leaf element accepts. -/
inductive TokenClass where
  | number
  | string
  /-- An identifier token that is no end of line and none of the given words. -/
  | identifier (reserved : List Text)
deriving DecidableEq, Repr

namespace TokenClass

def accepts : TokenClass → Token → Bool
  | number, t => t.kind == .number
  | string, t => t.kind == .string
  | identifier reserved, t => t.kind == .identifier && !t.isEndOfLine && !reserved.contains t.text

def describe : TokenClass → Text
  | number => text "number"
  | string => text "string"
  | identifier _ => text "identifier"

end TokenClass

/-- What becomes of an accepted token. -/
inductive LeafMaker where
  | number | string | leaf | name
  /-- The token is refused after all. -/
  | refuse (reason : Token → Failure)

def LeafMaker.make (site : Site) (token : Token) : LeafMaker → Except Failure Node
  | .number => .ok (.number ⟨token.text, token.line⟩ token.number)
  | .string => .ok (.string ⟨token.text, token.line⟩)
  | .leaf => .ok (.leaf ⟨token.text, token.line⟩)
  | .name => .ok (.name site ⟨token.text, token.line⟩)
  | .refuse reason => .error (reason token)

/-- A part of a rule. -/
inductive Element (ι : Type) where
  /-- What the rule `r` says. -/
  | phrase (r : ι)
  /-- The first of these rules that fits the next token. -/
  | choice (rules : List ι)
  /-- The rule zero or more times. -/
  | repeated (r : ι)
  /-- The rule at most once. -/
  | optional (r : ι)
  | token (accepted : TokenClass) (maker : LeafMaker)
  /-- One of these spellings, kept as a leaf or dropped. -/
  | spelling (spellings : List Text) (keep : Bool)
  /-- Operands by the rule `operand`, joined by binary operators. -/
  | expression (operand : ι) (operators : Operators) (shape : Shape)

/-- A rule. -/
structure Rule (ι : Type) where
  /-- The name under which traces show the rule; empty for a rule that they leave out. -/
  title : Text
  elements : List (Element ι)
  /-- What the children become; without a shape, a single child stays as it is. -/
  shape : Option Shape

/-- A grammar over the rule names `ι`. -/
structure Grammar (ι : Type) where
  rule : ι → Rule ι
  /-- The number of rules: a longer chain of rules, each first in the one before, repeats itself. -/
  count : Nat

def describeSpelling (spelling : Text) : Text :=
  if spelling = Token.endOfLineText then text "end of line"
  else text "\"" ++ spelling ++ text "\""

def describeChoice (parts : List Text) : Text := Text.join (text " or ") parts

namespace Element

variable {ι : Type}

/-- What an element wants to see first, `recur` saying it for a rule. -/
def describe (recur : ι → Text) : Element ι → Text
  | phrase r | repeated r | optional r | expression r _ _ => recur r
  | choice rules => describeChoice (rules.map recur)
  | token accepted _ => accepted.describe
  | spelling spellings _ => describeChoice (spellings.map describeSpelling)

end Element

namespace Grammar

variable {ι : Type}

/-- What a rule wants to see first, following at most `bound` rules. -/
def describeWithin (g : Grammar ι) : Nat → ι → Text
  | 0, _ => []
  | bound + 1, r =>
    match (g.rule r).elements with
    | [] => text "nothing"
    | element :: _ => element.describe (g.describeWithin bound)

/-- What a rule wants to see first, as a diagnostic names it. -/
def describe (g : Grammar ι) (r : ι) : Text := g.describeWithin g.count r

end Grammar

/-! ## Books of rules -/

/-- Rules under numbers, in the order in which they were begun. -/
structure Book where
  rules : Array (Rule Nat)

namespace Book

def empty : Book := ⟨#[]⟩

/-- The rule under a number. -/
def rule (b : Book) (r : Nat) : Rule Nat := (b.rules[r]?).getD ⟨[], [], none⟩

/-- The grammar that a book is. -/
def grammar (b : Book) : Grammar Nat := ⟨b.rule, b.rules.size⟩

def begin (b : Book) (rule : Rule Nat) : Nat × Book := (b.rules.size, ⟨b.rules.push rule⟩)

def change (b : Book) (r : Nat) (f : Rule Nat → Rule Nat) : Book := ⟨b.rules.modify r f⟩

def append (b : Book) (r : Nat) (element : Element Nat) : Book :=
  b.change r fun rule => { rule with elements := rule.elements ++ [element] }

/-- Gives a rule a name for traces. -/
def name (b : Book) (r : Nat) (title : Text) : Book := b.change r fun rule => { rule with title }

/-- Drops every element of a rule and gives it another shape. -/
def reset (b : Book) (r : Nat) (shape : Option Shape) : Book :=
  b.change r fun rule => { rule with elements := [], shape }

/-- Appends `sub` or, where it does not fit, an empty node of the shape that `sub` has now. -/
def appendMaybe (b : Book) (r sub : Nat) : Book :=
  let model := b.rule sub
  let (nothing, b) := b.begin ⟨model.title, [], model.shape⟩
  b.append r (.choice [sub, nothing])

/-- Makes `sub` the first alternative of a rule.  A rule that does not start with a choice becomes a
choice between `sub` and what it said before. -/
def insertChoice (b : Book) (r sub : Nat) : Book :=
  let rule := b.rule r
  match rule.elements with
  | .choice rules :: rest =>
    b.change r fun rule => { rule with elements := .choice (sub :: rules) :: rest }
  | _ =>
    let (otherwise, b) := b.begin rule
    b.change r fun rule => { rule with elements := [.choice [sub, otherwise]], shape := none }

end Book

end StoneLang
