/-
  The interactive loop.

  The loop reads lines and evaluates them.  While what has been read ends too early, the next line is
  added to it; otherwise its value or failure is shown.  A line that starts with a colon is a command.

  The loop is a function on its state: `Loop.step` takes one line, `Loop.run` a whole script.  What the
  session prints, what the loop prints and the prompts are kept in one list, in the order in which they
  appear.
-/
import StoneLang.Session
import StoneLang.Source

namespace StoneLang.Repl

/-- What the line reader answers to a prompt. -/
inductive Answer where
  | line (content : Text)
  /-- The line was given up. -/
  | aborted
  /-- The reader failed. -/
  | broken (reason : Text)
deriving DecidableEq, Repr

/-- What the loop shows. -/
inductive Shown where
  | prompt (content : Text)
  | output (content : Text)
deriving DecidableEq, Repr

/-- What is shown, as bytes. -/
def Shown.content : Shown → Text
  | .prompt content => content
  | .output content => content

/-- What a loop needs from outside. -/
structure Setting where
  config : Config
  /-- What each new session may read. -/
  input : Input
  watched : Bool
  /-- The program in a file. -/
  load : Text → Except Failure Source
  /-- The prompts that the line reader does not show. -/
  refuses : Text → Bool

/-- The state of the loop. -/
structure Loop where
  session : Session
  /-- The lines that do not make a unit yet. -/
  unfinished : Text
  shown : Array Shown
  /-- The units and commands that were entered. -/
  entered : Array Text
  records : Array Record
  /-- The number of sessions so far. -/
  sessions : Nat

def help : Text :=
  text ":help          show this message\n"
    ++ text ":quit, :exit   leave the loop\n"
    ++ text ":load FILE     run FILE in this session\n"
    ++ text ":reset         discard every definition\n"

namespace Setting

/-- A new session; its classes are numbered from `nextClass` on. -/
def newSession (s : Setting) (nextClass : Nat) : Session :=
  .start s.config s.watched s.input none nextClass

end Setting

namespace Loop

/-- The loop before the first line. -/
def start (s : Setting) : Loop :=
  let session := s.newSession 1
  { session := { session with machine := { session.machine with records := #[] } }
    unfinished := []
    shown := #[]
    entered := #[]
    records := session.machine.records
    sessions := 1 }

/-- Shows a text. -/
def print (l : Loop) (t : Text) : Loop := { l with shown := l.shown.push (.output t) }

def absorb (l : Loop) (session : Session) : Loop :=
  let machine := session.machine
  { l with
    session := { session with machine := { machine with output := .empty machine.output.limit, records := #[] } }
    shown := l.shown ++ machine.output.chunks.map .output
    records := l.records ++ machine.records }

def printFailure (l : Loop) (f : Failure) : Loop := l.print (text "error: " ++ f.message ++ [Text.newline])

def printValue (l : Loop) (v : Value) : Loop :=
  l.print (text "=> " ++ l.session.render v ++ [Text.newline])

/-- Notes what was entered, on one line, and makes the loop ready for the next unit. -/
def enter (l : Loop) (source : Text) : Loop :=
  { l with
    unfinished := []
    entered :=
      if source.trim = [] then l.entered
      else l.entered.push (source.replaceByte Text.newline Text.space) }

/-- A new session in place of the old one. -/
def reset (s : Setting) (l : Loop) : Loop :=
  ({ l with sessions := l.sessions + 1 } : Loop).absorb (s.newSession l.session.machine.nextClass)
    |>.print (text "session reset\n")

def load (s : Setting) (l : Loop) (path : Text) : Loop :=
  match s.load path with
  | .error f => l.printFailure f
  | .ok source =>
    let (outcome, session) := l.session.run source.name source.content
    let l := l.absorb session
    match outcome with
    | .ok v => l.printValue v
    | .error f => l.printFailure f

/-- Carries out a command, given by its words; tells whether the loop goes on. -/
def command (s : Setting) (l : Loop) (words : List Text) : Loop × Bool :=
  match words with
  | [] => (l, true)
  | name :: arguments =>
    if name = text ":quit" ∨ name = text ":exit" then (l, false)
    else if name = text ":help" then (l.print help, true)
    else if name = text ":reset" then (l.reset s, true)
    else if name = text ":load" then
      match arguments with
      | [path] => (l.load s path, true)
      | _ => (l.print (text "usage: :load FILE\n"), true)
    else (l.print (text "unknown command " ++ name ++ [Text.newline]), true)

/-- What is evaluated once a line has been read: the line, after the unfinished ones. -/
def sourceWith (l : Loop) (line : Text) : Text :=
  if l.unfinished = [] then line else l.unfinished ++ Text.newline :: line

def isCommand (source : Text) : Bool := source.trim.head? == some 0x3A

def wantedFile? (l : Loop) (line : Text) : Option Text :=
  match (l.sourceWith line).words with
  | [name, path] => if name = text ":load" then some path else none
  | _ => none

/-- Evaluates a source.  One that ends too early stays as it is, to be continued. -/
def evaluate (l : Loop) (source : Text) : Loop :=
  let (outcome, session) := l.session.evalLine (source ++ [Text.newline])
  let l := l.absorb session
  match outcome with
  | .error f => if f.isIncomplete then { l with unfinished := source } else (l.printFailure f).enter source
  | .ok v => (if source.trim = [] then l else l.printValue v).enter source

/-- Takes one answer of the line reader; tells whether the loop goes on. -/
def step (s : Setting) (l : Loop) : Answer → Loop × Bool
  | .line line =>
    let source := l.sourceWith line
    if isCommand source then (l.enter source).command s source.words else (l.evaluate source, true)
  | .aborted => ({ l with unfinished := [] }, true)
  | .broken reason => ((l.print (text "error: " ++ reason ++ [Text.newline])).print [Text.newline], false)

/-- The prompt for the next line. -/
def prompt (s : Setting) (l : Loop) : Text :=
  if l.unfinished = [] then s.config.repl.prompt else s.config.repl.continuation

def ask (s : Setting) (l : Loop) : Loop := { l with shown := l.shown.push (.prompt (l.prompt s)) }

/-- What the line reader answers to a prompt that it does not show. -/
def refusal : Answer := .broken (text "invalid prompt")

/-- The loop after the line reader has refused the prompt, if it does. -/
def refused? (s : Setting) (l : Loop) : Option Loop :=
  if s.refuses (l.prompt s) then some (l.step s refusal).1 else none

def finish (l : Loop) : Loop := l.print [Text.newline]

/-- Takes one line of a source that the sessions of the loop read from as well; the loop, the source, and
whether the loop goes on. -/
def stepShared (s : Setting) (l : Loop) (line : Text) (b : Buffered) : Loop × Buffered × Bool :=
  let machine := l.session.machine
  let lent := { machine.input with source := { machine.input.source with rest := b.rest } }
  let l := { l with session := { l.session with machine := { machine with input := lent } } }
  let (l, goesOn) := l.step { s with input := .ofText b.rest } (.line line)
  (l, { b with rest := l.session.machine.input.source.rest }, goesOn)

/-- Runs the loop on a source that its sessions read from as well, for at most `bound` lines. -/
def runShared (s : Setting) : Nat → Loop → Buffered → Loop
  | 0, l, _ => l
  | bound + 1, l, b =>
    match l.refused? s with
    | some l => l
    | none =>
      let l := l.ask s
      match b.line? with
      | none => l.finish
      | some (line, b) =>
        match l.stepShared s line b with
        | (l, b, true) => runShared s bound l b
        | (l, _, false) => l

/-- Takes the answers of a script until the loop ends; the loop then, and the answers left. -/
def run (s : Setting) : Loop → List Answer → Loop × List Answer
  | l, [] => ((l.refused? s).getD (l.ask s).finish, [])
  | l, answer :: rest =>
    match l.refused? s with
    | some l => (l, answer :: rest)
    | none =>
      match (l.ask s).step s answer with
      | (l, true) => run s l rest
      | (l, false) => (l, rest)

def printed (l : Loop) : Text :=
  l.shown.toList.flatMap fun
    | .output content => content
    | .prompt _ => []

def prompts (l : Loop) : List Text :=
  l.shown.toList.filterMap fun
    | .prompt content => some content
    | .output _ => none

def screen (l : Loop) : Text := l.shown.toList.flatMap Shown.content

end Loop

end StoneLang.Repl
