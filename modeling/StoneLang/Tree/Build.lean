/-
  Checked construction of nodes.

  A rule of a grammar collects children and hands them to a `Shape`.  `Shape.build` puts them into their
  places or says which one does not fit; a node that it returns has the shape its type says.  A primary
  expression of a single child is that child: an operand without suffixes gains no level.
-/
import StoneLang.Diagnostic
import StoneLang.Tree.Basic

namespace StoneLang

/-- What a group of children is to become. -/
inductive Shape where
  | list | binary | negative | block | conditional | loop | empty | parameters | arguments | definition
  | closure | primary | member | array | element | classDefinition | classBody
deriving DecidableEq, Repr

namespace Shape

/-- The kind of node that a shape gives. -/
def kind : Shape → NodeKind
  | .list => .list
  | .binary => .binaryOp
  | .negative => .negativeExpr
  | .block => .blockStatement
  | .conditional => .ifStatement
  | .loop => .whileStatement
  | .empty => .nullStatement
  | .parameters => .parameterList
  | .arguments => .arguments
  | .definition => .defStatement
  | .closure => .closure
  | .primary => .primaryExpr
  | .member => .dot
  | .array => .arrayLiteral
  | .element => .arrayRef
  | .classDefinition => .classStatement
  | .classBody => .classBody

/-- Every shape once. -/
def all : List Shape :=
  [.list, .binary, .negative, .block, .conditional, .loop, .empty, .parameters, .arguments, .definition,
    .closure, .primary, .member, .array, .element, .classDefinition, .classBody]

def ofKind? (kind : NodeKind) : Option Shape := all.find? fun s => s.kind == kind

/-- The line of a count that is wrong: the first line known among the children, else the line of the
last child. -/
def countLine : List Node → Int
  | [] => 0
  | [n] => n.line
  | n :: rest => if 0 < n.line then n.line else countLine rest

def wrongCount (shape : Shape) (wanted : String) (children : List Node) : Diagnostic :=
  ⟨.childCount shape.kind (text wanted) children.length, countLine children⟩

/-- The label that a child is, for a shape that wants one there. -/
def labelOf (shape : Shape) (child : Node) : Except Diagnostic Label :=
  match child.label? with
  | some l => .ok l
  | none => .error ⟨.nameWanted shape.kind child.shown, child.line⟩

def parametersOf (keyword : String) : Node → Except Diagnostic (List Label)
  | .parameters names => .ok names
  | other => .error ⟨.parametersWanted (text keyword), other.line⟩

def blockOf (keyword : String) : Node → Except Diagnostic (List Node)
  | .block statements => .ok statements
  | other => .error ⟨.blockWanted (text keyword), other.line⟩

def suffixOf : Node → Except Diagnostic Suffix
  | .suffix s => .ok s
  | other => .error ⟨.notPostfix other.shown, other.line⟩

/-- The members of a child that is a class body; `line` is where the class starts. -/
def membersOf (line : Int) : Node → Except Diagnostic (List Node)
  | .classBody members => .ok members
  | _ => .error ⟨.classBodyWanted, line⟩

/-- An operand with suffixes, the last one split off; without suffixes, the operand. -/
def operandWith (operand : Node) (suffixes : List Suffix) : Node :=
  match suffixes.getLast? with
  | some last => .primary operand suffixes.dropLast last
  | none => operand

/-- The node of a shape with the given children, at the site `site` if it carries notes. -/
def build (site : Site) (shape : Shape) (children : List Node) : Except Diagnostic Node :=
  match shape, children with
  | .list, _ => .ok (.list children)
  | .binary, [left, operator, right] => do
    let operator ← labelOf shape operator
    return .binary left operator right
  | .binary, _ => .error (shape.wrongCount "3" children)
  | .negative, [operand] => .ok (.negative operand)
  | .negative, _ => .error (shape.wrongCount "1" children)
  | .block, _ => .ok (.block children)
  | .conditional, [condition, consequence] => .ok (.conditional condition consequence none)
  | .conditional, [condition, consequence, alternative] =>
    .ok (.conditional condition consequence (some alternative))
  | .conditional, _ => .error (shape.wrongCount "2 or 3" children)
  | .loop, [condition, body] => .ok (.loop condition body)
  | .loop, _ => .error (shape.wrongCount "2" children)
  | .empty, [] => .ok .empty
  | .empty, _ => .error (shape.wrongCount "0" children)
  | .parameters, _ => do
    let names ← children.mapM (labelOf shape)
    return .parameters names
  | .arguments, _ => .ok (.suffix (.arguments children))
  | .definition, [title, params, body] => do
    let title ← labelOf shape title
    let params ← parametersOf "def" params
    let body ← blockOf "def" body
    return .definition site title params body
  | .definition, _ => .error (shape.wrongCount "3" children)
  | .closure, [params, body] => do
    let params ← parametersOf "fun" params
    let body ← blockOf "fun" body
    return .closure site params body
  | .closure, _ => .error (shape.wrongCount "2" children)
  | .primary, [] => .error (shape.wrongCount "at least 1" children)
  | .primary, operand :: rest => do
    let suffixes ← rest.mapM suffixOf
    return operandWith operand suffixes
  | .member, [title] => do
    let title ← labelOf shape title
    return .suffix (.member site title)
  | .member, _ => .error (shape.wrongCount "1" children)
  | .array, _ => .ok (.array children)
  | .element, [index] => .ok (.suffix (.element index))
  | .element, _ => .error (shape.wrongCount "1" children)
  | .classDefinition, [title, body] => do
    let label ← labelOf shape title
    let members ← membersOf title.line body
    return .classDefinition site label none members
  | .classDefinition, [title, parent, body] => do
    let label ← labelOf shape title
    let parent ← labelOf shape parent
    let members ← membersOf title.line body
    return .classDefinition site label (some parent) members
  | .classDefinition, _ => .error (shape.wrongCount "2 or 3" children)
  | .classBody, _ => .ok (.classBody children)

/-- The node of the children that a rule without a shape collected: a single child as it is, any other
number of them as a group. -/
def gather : List Node → Node
  | [child] => child
  | children => .list children

end Shape

end StoneLang
