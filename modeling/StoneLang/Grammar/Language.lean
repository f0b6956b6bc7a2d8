/-
  The grammar of Stone.

  The language comes in layers.  Basic statements are always there; functions, closures, classes and
  arrays can be left out.  Closures and classes bring functions with them, and arrays take effect only
  together with functions.  A layer adds alternatives in front of those of the layers below, suffixes
  after every operand, and arguments without parentheses after a simple statement.

  `Phrase` names every rule, and `Language.rule` says it for given layers.  A program is a row of units;
  a unit is a statement, a definition, a class or nothing, and ends with a semicolon or a line end.
-/
import StoneLang.Grammar.Parse

namespace StoneLang

/-- The layers of the language above basic statements. -/
structure Layers where
  functions : Bool
  closures : Bool
  classes : Bool
  arrays : Bool
deriving DecidableEq, Repr

namespace Layers

/-- The whole language. -/
def full : Layers := ⟨true, true, true, true⟩

/-- The layers with those that they need. -/
def withNeeds (l : Layers) : Layers :=
  { l with functions := l.functions || l.closures || l.classes }

def hasArrays (l : Layers) : Bool := l.functions && l.arrays

end Layers

namespace Language

/-! ## Words -/

/-- The operators: assignment groups to the right, the others to the left. -/
def operators : Operators :=
  [(text "=", ⟨1, false⟩), (text "==", ⟨2, true⟩), (text ">", ⟨2, true⟩), (text "<", ⟨2, true⟩),
    (text "+", ⟨3, true⟩), (text "-", ⟨3, true⟩), (text "*", ⟨4, true⟩), (text "/", ⟨4, true⟩),
    (text "%", ⟨4, true⟩)]

def keywords : List Text :=
  [text "if", text "else", text "while", text "def", text "class", text "extends", text "fun", text "new"]

def punctuation : List Text :=
  [text ";", text "\x7d", text ")", text "]", text "\x7b", text "(", text "[", text ",", text ".",
    Token.endOfLineText]

def reserved : List Text := keywords ++ punctuation ++ operators.map Prod.fst

/-- The word can never be a name. -/
def isReserved (word : Text) : Bool := reserved.contains word

/-! ## Phrases -/

/-- The rules of the language. -/
inductive Phrase where
  | program | nothing | statement | ifStatement | elsePart | whileStatement | block | statementTail
  | simple | expr | factor | negation | primary | parenthesized | numberOperand | nameOperand
  | stringOperand
  | definition | parameter | parameters | parameterTail | noParameters | parameterList
  | arguments | argumentTail | noArguments | suffix | call
  | closure
  | classDefinition | superclass | classBody | memberTail | member | dot | memberName | newName
  | arrayOperand | elements | elementTail | noElements | subscript
deriving DecidableEq, Repr

/-- One spelling, dropped. -/
def drop (spelling : String) : Element Phrase := .spelling [text spelling] false

/-- What stands between statements: a semicolon or a line end. -/
def separator : Element Phrase := .spelling [text ";", Token.endOfLineText] false

/-- A name, kept as a word. -/
def word : Element Phrase := .token (.identifier reserved) .leaf

/-- A rule without a name or a shape. -/
def plain (elements : List (Element Phrase)) : Rule Phrase := ⟨[], elements, none⟩

def titled (title : String) (elements : List (Element Phrase)) : Rule Phrase :=
  ⟨text title, elements, none⟩

def shaped (shape : Shape) (elements : List (Element Phrase)) : Rule Phrase := ⟨[], elements, some shape⟩

/-- A rule with a name and a shape. -/
def full (title : String) (shape : Shape) (elements : List (Element Phrase)) : Rule Phrase :=
  ⟨text title, elements, some shape⟩

def layer {α : Type} (present : Bool) (items : List α) : List α := if present then items else []

def callElements : List (Element Phrase) :=
  [drop "(", .choice [.arguments, .noArguments], drop ")"]

/-- The rule of a phrase, for given layers. -/
def rule (l : Layers) : Phrase → Rule Phrase
  -- units and statements
  | .program =>
    titled "program"
      [.choice (layer l.classes [.classDefinition] ++ layer l.functions [.definition]
        ++ [.statement, .nothing]), separator]
  | .nothing => shaped .empty []
  | .statement => titled "statement" [.choice [.ifStatement, .whileStatement, .simple]]
  | .ifStatement =>
    shaped .conditional [drop "if", .phrase .expr, .phrase .block, .optional .elsePart]
  | .elsePart => plain [drop "else", .phrase .block]
  | .whileStatement => shaped .loop [drop "while", .phrase .expr, .phrase .block]
  | .block =>
    full "block" .block [drop "\x7b", .optional .statement, .repeated .statementTail, drop "\x7d"]
  | .statementTail => plain [separator, .optional .statement]
  | .simple =>
    full "simple" .primary (.phrase .expr :: layer l.functions [.optional .arguments])
  -- expressions
  | .expr => titled "expr" [.expression .factor operators .binary]
  | .factor => titled "factor" [.choice [.negation, .primary]]
  | .negation => shaped .negative [drop "-", .phrase .primary]
  | .primary =>
    full "primary" .primary
      (.choice (layer l.hasArrays [.arrayOperand] ++ layer l.closures [.closure]
        ++ [.parenthesized, .numberOperand, .nameOperand, .stringOperand])
        :: layer l.functions [.repeated .suffix])
  | .parenthesized => plain [drop "(", .phrase .expr, drop ")"]
  | .numberOperand => plain [.token .number .number]
  | .nameOperand => plain [.token (.identifier reserved) .name]
  | .stringOperand => plain [.token .string .string]
  -- functions
  | .definition =>
    full "def" .definition [drop "def", word, .phrase .parameterList, .phrase .block]
  | .parameter => plain [word]
  | .parameters => shaped .parameters [.phrase .parameter, .repeated .parameterTail]
  | .parameterTail => plain [drop ",", .phrase .parameter]
  | .noParameters => shaped .parameters []
  | .parameterList => plain [drop "(", .choice [.parameters, .noParameters], drop ")"]
  | .arguments => full "args" .arguments [.phrase .expr, .repeated .argumentTail]
  | .argumentTail => plain [drop ",", .phrase .expr]
  | .noArguments => full "args" .arguments []
  | .suffix =>
    -- with a second kind of suffix the rule is a choice, and calls become a rule of their own
    if l.classes || l.hasArrays then
      titled "postfix"
        [.choice (layer l.hasArrays [.subscript] ++ layer l.classes [.dot] ++ [.call])]
    else titled "postfix" callElements
  | .call => titled "postfix" callElements
  -- closures
  | .closure => full "fun" .closure [drop "fun", .phrase .parameterList, .phrase .block]
  -- classes
  | .classDefinition =>
    full "class" .classDefinition [drop "class", word, .optional .superclass, .phrase .classBody]
  | .superclass => plain [drop "extends", word]
  | .classBody =>
    full "class_body" .classBody [drop "\x7b", .optional .member, .repeated .memberTail, drop "\x7d"]
  | .memberTail => plain [separator, .optional .member]
  | .member => titled "member" [.choice [.definition, .simple]]
  | .dot => shaped .member [drop ".", .choice [.memberName, .newName]]
  | .memberName => plain [word]
  | .newName => plain [.spelling [text "new"] true]
  -- arrays
  | .arrayOperand => plain [drop "[", .choice [.elements, .noElements], drop "]"]
  | .elements => shaped .array [.phrase .expr, .repeated .elementTail]
  | .elementTail => plain [drop ",", .phrase .expr]
  | .noElements => shaped .array []
  | .subscript => shaped .element [drop "[", .phrase .expr, drop "]"]

def phraseCount : Nat := 42

/-- The grammar with the given layers. -/
def grammar (l : Layers) : Grammar Phrase := ⟨rule l.withNeeds, phraseCount⟩

/-! ## Programs -/

def atEnd : Parse Bool := do
  let token ← Parse.peek
  return token.isEndOfInput

/-- Reads one unit with the token that ends it. -/
def parseUnit (l : Layers) (settings : ParseSettings) : Parse Node :=
  (grammar l).parse settings .program

/-- What reading a whole stream gives: the units before the first failure, and that failure. -/
structure Units where
  units : List Node
  failure : Option Failure

/-- Reads units up to the end of the stream, at most `bound` of them. -/
def parseUnits (l : Layers) (settings : ParseSettings) : Nat → Reading → Units × Reading
  | 0, r => (⟨[], some .unfinished⟩, r)
  | bound + 1, r =>
    match atEnd r with
    | .error failure r => (⟨[], some failure⟩, r)
    | .ok true r => (⟨[], none⟩, r)
    | .ok false r =>
      match parseUnit l settings r with
      | .error failure r => (⟨[], some failure⟩, r)
      | .ok unit r =>
        let (rest, r) := parseUnits l settings bound r
        (⟨unit :: rest.units, rest.failure⟩, r)

/-- Reads units up to the end of the stream. -/
def parseAll (l : Layers) (settings : ParseSettings) (r : Reading) : Units × Reading :=
  parseUnits l settings r.bound r

end Language

end StoneLang
