/-
  Token streams with lookahead.

  A stream scans its text one line at a time, and only when a token of that line is asked for.  A line
  with a bad token is reported once, at the moment it is scanned: the tokens before the bad one stay in
  the queue, the line gets no end-of-line token, and the stream goes on with the next line.  At the end
  of the text the stream gives end-of-input tokens for ever; a text whose reader fails gives that
  failure for ever instead, and its unfinished last line is lost.

  `tokenize` says the same without a stream: the tokens of a whole text, line by line.
-/
import StoneLang.Token.Scan

namespace StoneLang

/-- A source of tokens. -/
structure Stream where
  /-- The lines not yet scanned. -/
  pending : List Text
  /-- How reading fails after the last line, if it does not simply end. -/
  broken : Option Text
  /-- The tokens scanned and not yet read. -/
  queue : List Token
  /-- The number of lines scanned. -/
  line : Nat
deriving DecidableEq, Repr

namespace Stream

/-- The lines that a reader of `source` delivers before it ends, or fails with `broken`. -/
def deliveredLines (source : Text) (broken : Option Text) : List Text :=
  let (lines, last) := source.splitLines
  if last = [] ∨ broken.isSome then lines else lines ++ [last]

/-- The stream of a text, or of a reader that fails with `broken` after it. -/
def ofText (source : Text) (broken : Option Text) : Stream :=
  ⟨deliveredLines source broken, broken, [], 0⟩

/-- The stream of a text. -/
def ofSource (source : Text) : Stream := ofText source none

/-- Scans lines until the queue holds a token at place `i`, or there is no line left. -/
@[grind =] def fillFrom (broken : Option Text) (i : Nat) :
    List Text → List Token → Nat → EStateM.Result Failure Stream Unit
  | [], queue, line =>
    match broken with
    | some reason =>
      if i < queue.length then .ok () ⟨[], broken, queue, line⟩
      else .error (.plain reason) ⟨[], broken, queue, line⟩
    | none => .ok () ⟨[], broken, queue, line⟩
  | content :: rest, queue, line =>
    if i < queue.length then .ok () ⟨content :: rest, broken, queue, line⟩
    else
      match Token.scanLine (line + 1) content with
      | (tokens, none) =>
        fillFrom broken i rest (queue ++ tokens ++ [Token.endOfLine (line + 1)]) (line + 1)
      | (tokens, some cause) =>
        .error (.atLine cause (line + 1)) ⟨rest, broken, queue ++ tokens, line + 1⟩

/-- Makes the token at place `i` available, if the stream has one. -/
def fill (i : Nat) : EStateM Failure Stream Unit := fun s =>
  fillFrom s.broken i s.pending s.queue s.line

/-- The token `i` places ahead; nothing is consumed. -/
def peek (i : Nat) : EStateM Failure Stream Token := do
  fill i
  let s ← get
  return (s.queue[i]?).getD (.endOfInput s.line)

/-- Takes the next token. -/
def read : EStateM Failure Stream Token := do
  fill 0
  let s ← get
  match s.queue with
  | [] => return .endOfInput s.line
  | token :: rest =>
    set { s with queue := rest }
    return token

/-- A bound on the number of tokens that can still be read before the end of the input: every byte of a
line gives at most one token, and its end one more. -/
def size (s : Stream) : Nat := s.queue.length + (s.pending.flatten.length + s.pending.length)

/-- The texts of the remaining tokens, at most `bound` of them, and the failure that cut the reading
short, if any. -/
def drain : Nat → Stream → List Text × Option Failure × Stream
  | 0, s => ([], none, s)
  | bound + 1, s =>
    match read s with
    | .error failure s => ([], some failure, s)
    | .ok token s =>
      if token.isEndOfInput then ([], none, s)
      else
        let (more, failure, s) := drain bound s
        (token.text :: more, failure, s)

/-- The texts of the remaining tokens up to the end of the input or the first failure. -/
def rest (s : Stream) : List Text × Option Failure × Stream := drain (s.size + 1) s

end Stream

namespace Token

/-- The tokens of the lines after the first `line` ones, up to the first bad line. -/
@[grind =] def tokenizeLines (broken : Option Text) : Nat → List Text → List Token × Option Failure
  | line, [] =>
    match broken with
    | some reason => ([], some (.plain reason))
    | none => ([endOfInput line], none)
  | line, content :: rest =>
    match scanLine (line + 1) content with
    | (tokens, none) =>
      let (more, failure) := tokenizeLines broken (line + 1) rest
      (tokens ++ endOfLine (line + 1) :: more, failure)
    | (_, some cause) => ([], some (.atLine cause (line + 1)))

/-- The tokens of a text with the end-of-input token last; or those of the lines before the first bad
one, and its fault. -/
def tokenize (source : Text) : List Token × Option Failure :=
  tokenizeLines none 0 (Stream.deliveredLines source none)

end Token

end StoneLang
