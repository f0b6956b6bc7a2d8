/-
  Reading by rules.

  Every decision looks at one token.  A rule fits when its first element does; a choice takes the first
  rule that fits and never comes back; a repetition goes on as long as its rule fits.  Operators are read
  by precedence climbing.

  Nesting is bounded: `parseWithin` recurses on the number of levels left, and a rule entered without one
  fails as too deep.  The loops inside a level are bounded by the tokens that the stream had at the start,
  because a round that takes no token would never end; the failure for that, `unfinished`, is no answer
  of the parser, and no rule of the language's grammar meets it.

  A watched parse notes each named rule as it is entered, with the token that comes next.  To see that
  token it asks the stream, and a failure of the stream at this moment is dropped.
-/
import StoneLang.Grammar.Rule
import StoneLang.Journal.Basic

namespace StoneLang

/-- The state of a parse. -/
structure Reading where
  stream : Stream
  /-- More than the tokens that the stream had at the start. -/
  bound : Nat
  /-- The next free site. -/
  nextSite : Site
  /-- The rules entered so far, if the parse is watched. -/
  trace : Array Record

/-- The state in which the parse of a stream starts. -/
def Reading.start (stream : Stream) (nextSite : Site) : Reading := ⟨stream, stream.size + 1, nextSite, #[]⟩

/-- How a parse is run. -/
structure ParseSettings where
  maxDepth : Nat
  /-- The rules that are entered are noted. -/
  watched : Bool
deriving DecidableEq, Repr

def defaultMaxDepth : Nat := 10000

/-- The bound on nesting for a configured number, of which only a positive one counts. -/
def depthLimit (configured : Int) : Nat :=
  if configured ≤ 0 then defaultMaxDepth else configured.toNat

/-- Reading with failure; the state is kept when it fails. -/
abbrev Parse := EStateM Failure Reading

namespace Parse

def onStream {α : Type} (action : EStateM Failure Stream α) : Parse α := fun r =>
  match action r.stream with
  | .ok a stream => .ok a { r with stream }
  | .error failure stream => .error failure { r with stream }

/-- The next token. -/
def peek : Parse Token := onStream (Stream.peek 0)

/-- Takes the next token. -/
def read : Parse Token := onStream Stream.read

/-- The next token, whatever the stream says; where it fails, an end of input on no line. -/
def peekAnyway : Parse Token := fun r =>
  match peek r with
  | .ok token r => .ok token r
  | .error _ r => .ok (.endOfInput 0) r

def freshSite : Parse Site := modifyGet fun r => (r.nextSite, { r with nextSite := r.nextSite + 1 })

def mismatch {α : Type} (expected : Text) : Parse α := do
  let token ← peek
  throw (.atLine (.unexpected expected token.describe token.isEndOfInput) token.line)

/-- A node of a shape, or the fault of its children. -/
def build (shape : Shape) (children : List Node) : Parse Node := do
  let site ← freshSite
  match shape.build site children with
  | .ok node => return node
  | .error d => throw (.diagnostic d)

/-- A bound for loops that take a token in every round. -/
def rounds : Parse Nat := do
  let r ← get
  return r.bound

end Parse

open Parse

/-! ## Fitting -/

/-- The token is an identifier with one of the spellings. -/
def isSpelled (spellings : List Text) (token : Token) : Bool :=
  token.kind == .identifier && spellings.contains token.text

/-- The first of `rules` that fits, `fits` telling it for one. -/
def firstFitting {ι : Type} (fits : ι → Parse Bool) : List ι → Parse (Option ι)
  | [] => return none
  | r :: rest => do
    if ← fits r then return some r else firstFitting fits rest

/-- An element fits the next token, `fits` telling it for a rule. -/
def Element.fitsWith {ι : Type} (fits : ι → Parse Bool) : Element ι → Parse Bool
  | .phrase r | .repeated r | .optional r | .expression r _ _ => fits r
  | .choice rules => do
    let chosen ← firstFitting fits rules
    return chosen.isSome
  | .token accepted _ => do
    let token ← peek
    return accepted.accepts token
  | .spelling spellings _ => do
    let token ← peek
    return isSpelled spellings token

namespace Grammar

variable {ι : Type}

/-- A rule fits the next token, following at most `bound` rules.  A rule without elements fits any. -/
def fitsWithin (g : Grammar ι) : Nat → ι → Parse Bool
  | 0, _ => throw .unfinished
  | bound + 1, r =>
    match (g.rule r).elements with
    | [] => return true
    | element :: _ => element.fitsWith (g.fitsWithin bound)

/-- A rule fits the next token. -/
def fits (g : Grammar ι) (r : ι) : Parse Bool := g.fitsWithin g.count r

end Grammar

/-! ## Operators -/

/-- The precedence of the next token, if it is an operator. -/
def nextOperator (operators : Operators) : Parse (Option Precedence) := do
  let token ← peek
  return if token.kind = .identifier then operators.find? token.text else none

/-- To the right of an operator of level `level`, the operator `next` takes the operand before it. -/
def bindsTighter (level : Int) (next : Precedence) : Bool :=
  if next.leftAssociative then level < next.level else level ≤ next.level

/-- Joins `left` with what follows, as long as the next operator takes it. -/
def climb (operand : Parse Node) (operators : Operators) (shape : Shape) :
    Nat → (Precedence → Bool) → Node → Parse Node
  | 0, _, _ => throw .unfinished
  | bound + 1, takes, left => do
    match ← nextOperator operators with
    | none => return left
    | some precedence =>
      if takes precedence then
        let token ← read
        let right ← operand
        let right ← climb operand operators shape bound (bindsTighter precedence.level) right
        let joined ← build shape [left, .leaf ⟨token.text, token.line⟩, right]
        climb operand operators shape bound takes joined
      else return left

/-! ## Elements and rules -/

/-- An anonymous group without children, which a repetition drops. -/
def isBlankGroup : Node → Bool
  | .list [] => true
  | _ => false

/-- Reads by a rule as long as it fits; `before` are the nodes so far, the newest first. -/
def repeatWhile (fits : Parse Bool) (parse : Parse Node) : Nat → List Node → Parse (List Node)
  | 0, _ => throw .unfinished
  | bound + 1, before => do
    if ← fits then
      let node ← parse
      repeatWhile fits parse bound (if isBlankGroup node then before else node :: before)
    else return before.reverse

namespace Grammar

variable {ι : Type}

/-- Reads by an element, `recur` reading by a rule, and appends what it gives to `children`. -/
def parseElement (g : Grammar ι) (recur : ι → Parse Node) (children : List Node) :
    Element ι → Parse (List Node)
  | .phrase r => do
    let node ← recur r
    return children ++ [node]
  | .choice rules => do
    match ← firstFitting g.fits rules with
    | none => mismatch (describeChoice (rules.map g.describe))
    | some r =>
      let node ← recur r
      return children ++ [node]
  | .repeated r => do
    let bound ← rounds
    let nodes ← repeatWhile (g.fits r) (recur r) bound []
    return children ++ nodes
  | .optional r => do
    if ← g.fits r then
      let node ← recur r
      return if isBlankGroup node then children else children ++ [node]
    else return children
  | .token accepted maker => do
    let token ← peek
    if accepted.accepts token then
      let _ ← read
      let site ← freshSite
      match maker.make site token with
      | .ok node => return children ++ [node]
      | .error failure => throw (failure.withLine token.line)
    else mismatch accepted.describe
  | .spelling spellings keep => do
    let token ← peek
    if isSpelled spellings token then
      let _ ← read
      return if keep then children ++ [.leaf ⟨token.text, token.line⟩] else children
    else mismatch (describeChoice (spellings.map describeSpelling))
  | .expression operand operators shape => do
    let bound ← rounds
    let left ← recur operand
    let node ← climb (recur operand) operators shape bound (fun _ => true) left
    return children ++ [node]

def parseElements (g : Grammar ι) (recur : ι → Parse Node) :
    List (Element ι) → List Node → Parse (List Node)
  | [], children => return children
  | element :: rest, children => do
    let children ← g.parseElement recur children element
    g.parseElements recur rest children

/-- Notes that a named rule is entered at depth `depth`, if the parse is watched. -/
def noteEntry (settings : ParseSettings) (title : Text) (depth : Nat) : Parse Unit := do
  if settings.watched && title != [] then
    let token ← peekAnyway
    modify fun r => { r with trace := r.trace.push (Record.debug "enter rule"
      [("rule", .text title), ("depth", .number depth), ("token", .text token.describe),
        ("line", .number token.line)]) }

/-- Reads by a rule with `levels` levels left. -/
def parseWithin (g : Grammar ι) (settings : ParseSettings) : Nat → ι → Parse Node
  | 0, _ => do
    let token ← peekAnyway
    throw (.atLine (.tooDeep (text "parser") settings.maxDepth) token.line)
  | levels + 1, r => do
    let rule := g.rule r
    noteEntry settings rule.title (settings.maxDepth - levels)
    let children ← g.parseElements (g.parseWithin settings levels) rule.elements []
    match rule.shape with
    | some shape => build shape children
    | none => return Shape.gather children

/-- Reads one match of a rule. -/
def parse (g : Grammar ι) (settings : ParseSettings) (r : ι) : Parse Node :=
  g.parseWithin settings settings.maxDepth r

end Grammar

end StoneLang
