/-
  The kinds of syntax node, by name.

  Four kinds are leaves, each holding one token; the others group their children.  `list` is the
  anonymous group that a rule without a shape of its own gives.
-/
import StoneLang.Text.Basic

namespace StoneLang

/-- The syntactic variant of a node. -/
inductive NodeKind where
  | leaf | numberLiteral | stringLiteral | name
  | list | binaryOp | negativeExpr | blockStatement | ifStatement | whileStatement | nullStatement
  | parameterList | arguments | defStatement | closure | primaryExpr | dot | arrayLiteral | arrayRef
  | classStatement | classBody
deriving DecidableEq, Repr

namespace NodeKind

/-- Every kind once. -/
def all : List NodeKind :=
  [.leaf, .numberLiteral, .stringLiteral, .name, .list, .binaryOp, .negativeExpr, .blockStatement,
    .ifStatement, .whileStatement, .nullStatement, .parameterList, .arguments, .defStatement, .closure,
    .primaryExpr, .dot, .arrayLiteral, .arrayRef, .classStatement, .classBody]

def label : NodeKind → Text
  | .leaf => text "Leaf"
  | .numberLiteral => text "NumberLiteral"
  | .stringLiteral => text "StringLiteral"
  | .name => text "Name"
  | .list => text "List"
  | .binaryOp => text "BinaryOp"
  | .negativeExpr => text "NegativeExpr"
  | .blockStatement => text "BlockStatement"
  | .ifStatement => text "IfStatement"
  | .whileStatement => text "WhileStatement"
  | .nullStatement => text "NullStatement"
  | .parameterList => text "ParameterList"
  | .arguments => text "Arguments"
  | .defStatement => text "DefStatement"
  | .closure => text "Closure"
  | .primaryExpr => text "PrimaryExpr"
  | .dot => text "Dot"
  | .arrayLiteral => text "ArrayLiteral"
  | .arrayRef => text "ArrayRef"
  | .classStatement => text "ClassStatement"
  | .classBody => text "ClassBody"

def ofLabel? (name : Text) : Option NodeKind := all.find? fun k => k.label == name

end NodeKind

end StoneLang
