/-
  Syntax trees.

  A tree is an immutable value.  What later passes learn about it (where a name lives, how many slots a
  function needs, what a member access found last time) is kept beside it, in tables indexed by `Site`:
  every node that can carry such a note has a number of its own, given when the node is built.

  The shape of each construct is in its type.  An operator is a word, the suffixes of an operand are
  calls, member accesses or subscripts and at least one stands there, a function has parameters and a
  block.  Parts that the grammar builds before they find their place (parameter lists, suffixes, class
  bodies) are nodes too, so that a tree under construction is made of nodes throughout.
-/
import StoneLang.Text.Quoted
import StoneLang.Tree.Kind

namespace StoneLang

/-- The number of a node that carries notes. -/
abbrev Site := Nat

/-- A piece of source text with its line. -/
structure Word where
  text : Text
  line : Int
deriving DecidableEq, Repr

/-- What may stand where the grammar wants a bare word: a word, or a name with a site of its own. -/
inductive Label where
  | plain (word : Word)
  | name (site : Site) (word : Word)
deriving DecidableEq, Repr

/-- The word of a label. -/
def Label.word : Label → Word
  | .plain word => word
  | .name _ word => word

/-- The text of a label. -/
def Label.text (l : Label) : Text := l.word.text

/-- The line of a label. -/
def Label.line (l : Label) : Int := l.word.line

mutual

/-- A syntax tree. -/
inductive Node where
  /-- A token kept as it stands. -/
  | leaf (word : Word)
  | number (word : Word) (value : Int64)
  /-- A string literal with its escapes resolved. -/
  | string (word : Word)
  /-- A variable, function or class that is referred to by name. -/
  | name (site : Site) (word : Word)
  /-- A group without a meaning of its own. -/
  | list (children : List Node)
  | binary (left : Node) (operator : Label) (right : Node)
  | negative (operand : Node)
  | block (statements : List Node)
  | conditional (condition consequence : Node) (alternative : Option Node)
  | loop (condition body : Node)
  /-- The empty statement. -/
  | empty
  | parameters (names : List Label)
  | definition (site : Site) (name : Label) (parameters : List Label) (body : List Node)
  | closure (site : Site) (parameters : List Label) (body : List Node)
  /-- An operand with one or more suffixes, the last one apart. -/
  | primary (operand : Node) (inner : List Suffix) (last : Suffix)
  | suffix (suffix : Suffix)
  | array (elements : List Node)
  | classDefinition (site : Site) (name : Label) (parent : Option Label) (members : List Node)
  | classBody (members : List Node)

/-- What may follow an operand. -/
inductive Suffix where
  | arguments (values : List Node)
  | member (site : Site) (name : Label)
  | element (index : Node)

end

def Label.toNode : Label → Node
  | .plain word => .leaf word
  | .name site word => .name site word

def Node.label? : Node → Option Label
  | .leaf word => some (.plain word)
  | .name site word => some (.name site word)
  | _ => none

/-- The kind of a suffix. -/
def Suffix.kind : Suffix → NodeKind
  | .arguments _ => .arguments
  | .member .. => .dot
  | .element _ => .arrayRef

/-- The kind of a node. -/
def Node.kind : Node → NodeKind
  | .leaf _ => .leaf
  | .number .. => .numberLiteral
  | .string _ => .stringLiteral
  | .name .. => .name
  | .list _ => .list
  | .binary .. => .binaryOp
  | .negative _ => .negativeExpr
  | .block _ => .blockStatement
  | .conditional .. => .ifStatement
  | .loop .. => .whileStatement
  | .empty => .nullStatement
  | .parameters _ => .parameterList
  | .definition .. => .defStatement
  | .closure .. => .closure
  | .primary .. => .primaryExpr
  | .suffix s => s.kind
  | .array _ => .arrayLiteral
  | .classDefinition .. => .classStatement
  | .classBody _ => .classBody

/-- The children of a suffix. -/
def Suffix.children : Suffix → List Node
  | .arguments values => values
  | .member _ name => [name.toNode]
  | .element index => [index]

/-- The children of a node, in source order. -/
def Node.children : Node → List Node
  | .leaf _ | .number .. | .string _ | .name .. | .empty => []
  | .list children => children
  | .binary left operator right => [left, operator.toNode, right]
  | .negative operand => [operand]
  | .block statements => statements
  | .conditional condition consequence alternative => condition :: consequence :: alternative.toList
  | .loop condition body => [condition, body]
  | .parameters names => names.map Label.toNode
  | .definition _ title params body => [title.toNode, .parameters params, .block body]
  | .closure _ params body => [.parameters params, .block body]
  | .primary operand inner last => operand :: inner.map .suffix ++ [.suffix last]
  | .suffix s => s.children
  | .array elements => elements
  | .classDefinition _ title parent members =>
    title.toNode :: (parent.toList.map Label.toNode ++ [.classBody members])
  | .classBody members => members

/-- An empty statement, which does nothing wherever it stands. -/
def Node.isEmpty : Node → Bool
  | .empty => true
  | _ => false

/-! ## Source lines

  The line of a tree is the first line known among its leaves, except that an operation is where its
  operator is.  Zero means that no line is known. -/

@[macro_inline] def orLine (a b : Int) : Int := if 0 < a then a else b

def firstLabelLine : List Label → Int
  | [] => 0
  | l :: rest => orLine l.line (firstLabelLine rest)

mutual

/-- The best-known source line of a node. -/
def Node.line : Node → Int
  | .leaf word | .number word _ | .string word | .name _ word => word.line
  | .list children => firstLine children
  | .binary left operator right => orLine operator.line (orLine left.line (orLine right.line 0))
  | .negative operand => orLine operand.line 0
  | .block statements => firstLine statements
  | .conditional condition consequence none => orLine condition.line (orLine consequence.line 0)
  | .conditional condition consequence (some alternative) =>
    orLine condition.line (orLine consequence.line (orLine alternative.line 0))
  | .loop condition body => orLine condition.line (orLine body.line 0)
  | .empty => 0
  | .parameters names => firstLabelLine names
  | .definition _ title params body =>
    orLine title.line (orLine (firstLabelLine params) (firstLine body))
  | .closure _ params body => orLine (firstLabelLine params) (firstLine body)
  | .primary operand inner last => orLine operand.line (orLine (firstSuffixLine inner) last.line)
  | .suffix s => s.line
  | .array elements => firstLine elements
  | .classDefinition _ title parent members =>
    orLine title.line (orLine (firstLabelLine parent.toList) (firstLine members))
  | .classBody members => firstLine members

/-- The best-known source line of a suffix. -/
def Suffix.line : Suffix → Int
  | .arguments values => firstLine values
  | .member _ name => orLine name.line 0
  | .element index => orLine index.line 0

def firstLine : List Node → Int
  | [] => 0
  | n :: rest => orLine n.line (firstLine rest)

def firstSuffixLine : List Suffix → Int
  | [] => 0
  | s :: rest => orLine s.line (firstSuffixLine rest)

end

/-! ## Text

  Trees are shown with every group in parentheses, so that the grouping can be read off. -/

def group (parts : List Text) : Text := text "(" ++ Text.join (text " ") parts ++ text ")"

def shownParameters (parameters : List Label) : Text := group (parameters.map Label.text)

def shownParent : Option Label → Text
  | none => text "*"
  | some l => if l.text = [] then text "*" else l.text

mutual

/-- The text of a node. -/
def Node.shown : Node → Text
  | .leaf word | .number word _ | .name _ word => word.text
  | .string word => word.text.quoted
  | .list children => group (allShown children)
  | .binary left operator right => group [left.shown, operator.text, right.shown]
  | .negative operand => text "-" ++ operand.shown
  | .block statements => group (allShown statements)
  | .conditional condition consequence none =>
    text "(if " ++ condition.shown ++ text " then " ++ consequence.shown ++ text ")"
  | .conditional condition consequence (some alternative) =>
    text "(if " ++ condition.shown ++ text " then " ++ consequence.shown ++ text " else "
      ++ alternative.shown ++ text ")"
  | .loop condition body => text "(while " ++ condition.shown ++ text " do " ++ body.shown ++ text ")"
  | .empty => text "()"
  | .parameters names => shownParameters names
  | .definition _ title params body =>
    text "(def " ++ title.text ++ text " " ++ shownParameters params ++ text " "
      ++ group (allShown body) ++ text ")"
  | .closure _ params body =>
    text "(fun " ++ shownParameters params ++ text " " ++ group (allShown body) ++ text ")"
  | .primary operand inner last => group (operand.shown :: (allSuffixesShown inner ++ [last.shown]))
  | .suffix s => s.shown
  | .array elements => text "[" ++ Text.join (text ", ") (allShown elements) ++ text "]"
  | .classDefinition _ title parent members =>
    text "(class " ++ title.text ++ text " : " ++ shownParent parent ++ text " "
      ++ group (allShown members) ++ text ")"
  | .classBody members => group (allShown members)

/-- The text of a suffix. -/
def Suffix.shown : Suffix → Text
  | .arguments values => group (allShown values)
  | .member _ name => text "." ++ name.text
  | .element index => text "[" ++ index.shown ++ text "]"

def allShown : List Node → List Text
  | [] => []
  | n :: rest => n.shown :: allShown rest

def allSuffixesShown : List Suffix → List Text
  | [] => []
  | s :: rest => s.shown :: allSuffixesShown rest

end

/-! ## Walking -/

/-- The kind of a label's node. -/
def Label.kind : Label → NodeKind
  | .plain _ => .leaf
  | .name .. => .name

def below (skip : NodeKind → Bool) (kind : NodeKind) (rest : List NodeKind) : List NodeKind :=
  if skip kind then [] else rest

def parametersVisited (skip : NodeKind → Bool) (names : List Label) : List NodeKind :=
  .parameterList :: below skip .parameterList (names.map Label.kind)

mutual

/-- The kinds of the nodes of a tree, each before its children; the children of a node whose kind is
skipped are left out. -/
def Node.visited (skip : NodeKind → Bool) : Node → List NodeKind
  | .leaf _ => [.leaf]
  | .number .. => [.numberLiteral]
  | .string _ => [.stringLiteral]
  | .name .. => [.name]
  | .empty => [.nullStatement]
  | .list children => .list :: below skip .list (allVisited skip children)
  | .binary left operator right =>
    .binaryOp :: below skip .binaryOp
      (left.visited skip ++ operator.kind :: right.visited skip)
  | .negative operand => .negativeExpr :: below skip .negativeExpr (operand.visited skip)
  | .block statements => .blockStatement :: below skip .blockStatement (allVisited skip statements)
  | .conditional condition consequence none =>
    .ifStatement :: below skip .ifStatement (condition.visited skip ++ consequence.visited skip)
  | .conditional condition consequence (some alternative) =>
    .ifStatement :: below skip .ifStatement
      (condition.visited skip ++ consequence.visited skip ++ alternative.visited skip)
  | .loop condition body =>
    .whileStatement :: below skip .whileStatement (condition.visited skip ++ body.visited skip)
  | .parameters names => parametersVisited skip names
  | .definition _ title params body =>
    .defStatement :: below skip .defStatement
      (title.kind :: (parametersVisited skip params
        ++ .blockStatement :: below skip .blockStatement (allVisited skip body)))
  | .closure _ params body =>
    .closure :: below skip .closure
      (parametersVisited skip params
        ++ .blockStatement :: below skip .blockStatement (allVisited skip body))
  | .primary operand inner last =>
    .primaryExpr :: below skip .primaryExpr
      (operand.visited skip ++ allSuffixesVisited skip inner ++ last.visited skip)
  | .suffix s => s.visited skip
  | .array elements => .arrayLiteral :: below skip .arrayLiteral (allVisited skip elements)
  | .classDefinition _ title parent members =>
    .classStatement :: below skip .classStatement
      (title.kind :: (parent.toList.map Label.kind
        ++ .classBody :: below skip .classBody (allVisited skip members)))
  | .classBody members => .classBody :: below skip .classBody (allVisited skip members)

def Suffix.visited (skip : NodeKind → Bool) : Suffix → List NodeKind
  | .arguments values => .arguments :: below skip .arguments (allVisited skip values)
  | .member _ name => .dot :: below skip .dot [name.kind]
  | .element index => .arrayRef :: below skip .arrayRef (index.visited skip)

def allVisited (skip : NodeKind → Bool) : List Node → List NodeKind
  | [] => []
  | n :: rest => n.visited skip ++ allVisited skip rest

def allSuffixesVisited (skip : NodeKind → Bool) : List Suffix → List NodeKind
  | [] => []
  | s :: rest => s.visited skip ++ allSuffixesVisited skip rest

end

end StoneLang
