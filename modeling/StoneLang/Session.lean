/-
  Sessions.

  A session is a machine with a grammar.  The units that it runs share one global scope.

  A source is run unit by unit: each unit is parsed, then executed, then the next one is parsed, and the
  first failure ends the run.  A line is parsed as a whole before any of it is executed, so that a line
  that is not finished yet has no effect and can be tried again with more text.  Both ways skip empty
  units and give the value of the last unit.
-/
import StoneLang.Config.Basic
import StoneLang.Eval.Evaluate

namespace StoneLang

/-- The bound on the rounds of one loop: more than a run can ever make. -/
def defaultRounds : Nat := 4611686018427387904

namespace Run

def parseSettings (m : Machine) : ParseSettings := ⟨m.settings.maxDepth, m.settings.watched⟩

def beginReading (stream : Stream) : Run Reading := do
  return .start stream (← get).nextSite

def absorb (r : Reading) : Run Reading :=
  modifyGet fun m =>
    ({ r with trace := #[] }, { m with nextSite := r.nextSite, records := m.records ++ r.trace })

def parseStream (layers : Layers) (stream : Stream) : Run Language.Units := do
  let r ← beginReading stream
  let (units, r) := Language.parseAll layers (parseSettings (← get)) r
  let _ ← absorb r
  return units

/-- Executes units in order, `last` being the value before the first; empty ones are passed over. -/
def executeAll : List Node → Value → Run Value
  | [], last => return last
  | unit :: rest, last => do
    if unit.isEmpty then executeAll rest last
    else
      let value ← execute unit
      executeAll rest value

/-- Executes every unit in order, the empty ones too; the value of the last one, if there is one. -/
def executeEach : List Node → Option Value → Run (Option Value)
  | [], last => return last
  | unit :: rest, _ => do
    let value ← execute unit
    executeEach rest (some value)

/-- Parses and executes the units of a source one at a time, at most `bound` of them. -/
def runUnits (layers : Layers) (source : Text) : Nat → Reading → Value → Nat → Run Value
  | 0, _, _, _ => throw .unfinished
  | bound + 1, r, last, count => do
    match Language.atEnd r with
    | .error failure r =>
      let _ ← absorb r
      throw failure
    | .ok true r =>
      let _ ← absorb r
      note (Record.debug "source finished" [("source", .text source), ("units", .number count)])
      return last
    | .ok false r =>
      match Language.parseUnit layers (parseSettings (← get)) r with
      | .error failure r =>
        let _ ← absorb r
        throw failure
      | .ok unit r =>
        let r ← absorb r
        if unit.isEmpty then runUnits layers source bound r last count
        else
          note (Record.debug "execute unit"
            [("source", .text source), ("line", .number unit.line), ("node", .text unit.kind.label)])
          let value ← execute unit
          runUnits layers source bound r value (count + 1)

def labelled {α : Type} (name : Text) (action : Run α) : Run α := fun m =>
  match action m with
  | .ok a m => .ok a m
  | .error failure m => .error (failure.label name) m

end Run

/-- A machine with a grammar. -/
structure Session where
  layers : Layers
  machine : Machine

namespace Session

/-- A new session.  `watched` says whether its journal is kept, `nextClass` with which number its classes
start. -/
def start (config : Config) (watched : Bool) (input : Input) (limit : Option Nat) (nextClass : Nat) :
    Session where
  layers := config.layers
  machine :=
    (Machine.start ⟨depthLimit config.maxDepth, config.placesNames, watched, defaultRounds⟩ input limit
      nextClass).installNatives config.natives

/-- The outcome of an action on the machine, and the session after it. -/
def perform {α : Type} (s : Session) (action : Run α) : Except Failure α × Session :=
  match action s.machine with
  | .ok a machine => (.ok a, { s with machine })
  | .error failure machine => (.error failure, { s with machine })

/-- Runs a stream unit by unit; a failure is labelled with the name of the source. -/
def runStream (s : Session) (name : Text) (stream : Stream) : Except Failure Value × Session :=
  s.perform (.labelled name do
    let r ← Run.beginReading stream
    Run.runUnits s.layers name (stream.size + 1) r .null 0)

/-- Runs a source. -/
def run (s : Session) (name source : Text) : Except Failure Value × Session := s.runStream name (.ofSource source)

/-- Parses all of `source`, then executes it. -/
def evalLine (s : Session) (source : Text) : Except Failure Value × Session :=
  s.perform do
    let parsed ← Run.parseStream s.layers (.ofSource source)
    match parsed.failure with
    | some failure => throw failure
    | none => Run.executeAll parsed.units .null

/-- The units of a source, without running them. -/
def parse (s : Session) (source : Text) : Language.Units × Session :=
  match Run.parseStream s.layers (.ofSource source) s.machine with
  | .ok units machine => (units, { s with machine })
  | .error failure machine => (⟨[], some failure⟩, { s with machine })

/-- The text of a value. -/
def render (s : Session) (value : Value) : Text := s.machine.render value

/-- The value of a global name or a native. -/
def global? (s : Session) (name : Text) : Option Value :=
  s.machine.frames.get? name Machine.globalEnv

end Session

end StoneLang
