/-
  Natives: the functions that the host provides.

  The standard ones print, read a line, measure, convert to an integer and keep a stopwatch.  A host may
  register others.
-/
import StoneLang.Render

namespace StoneLang

namespace Native

def standard : List Native :=
  [⟨text "length", 1, .length⟩, ⟨text "print", 1, .print⟩, ⟨text "read", 0, .read⟩,
    ⟨text "time_end", 0, .timeEnd⟩, ⟨text "time_start", 0, .timeStart⟩, ⟨text "to_int", 1, .toInt⟩]

def standard? (name : Text) : Option Native := standard.find? fun n => n.name == name

end Native

/-- The machine with one of the standard natives, if there is one of that name. -/
def Machine.installNative (m : Machine) (name : Text) : Machine :=
  match Native.standard? name with
  | some native => m.registerNative native
  | none => m.note (Record.debug "skipping unknown native" [("name", .text name)])

/-- The machine with the standard natives of the given names, or with all if none is given. -/
def Machine.installNatives (m : Machine) (names : List Text) : Machine :=
  (if names = [] then Native.standard.map Native.name else names).foldl Machine.installNative m

namespace Run

/-- Writes to the output; `writer` is the native that does. -/
def write (writer : String) (t : Text) : Run Unit := do
  if (← get).output.hasRoom t then modify fun m => { m with output := m.output.write t }
  else throw (.label (text writer) (.plain (text "output closed")))

/-- Reads a line, without the bytes that end it; null at the end of the input. -/
def readLine : Run Value := do
  let input := (← get).input
  let use (count : Nat) : Run Unit :=
    modify fun m => { m with input := { m.input with source := m.input.source.use count } }
  match input.source.all.cutLine with
  | (line, some _) =>
    use (line.length + 1)
    return .string line.chomp
  | (line, none) =>
    use line.length
    match input.broken with
    | some reason => throw (.label (text "read") (.plain reason))
    | none => if line = [] then return .null else return .string line.chomp

def lengthOf (value : Value) (line : Int) : Run Value := do
  match value with
  | .string t => return .integer (Int64.ofNat t.length)
  | .array ref => return .integer (Int64.ofNat (((← get).arrays[ref]?).getD #[]).size)
  | other => fault (.noLength other.kind) line

def integerOf (value : Value) (line : Int) : Run Value := do
  match value with
  | .integer n => return .integer n
  | .string t =>
    match Decimal.int64? t.trim with
    | some n => return .integer n
    | none => fault (.notAnInteger t) line
  | other => fault (.noInteger other.kind) line

def hostAction (action : HostAction) (env : Env) (line : Int) (arguments : List Value) : Run Value := do
  match action with
  | .count => return .integer (Int64.ofNat arguments.length)
  | .nothing => return .null
  | .callLine => return .integer (Int64.ofInt line)
  | .lookUp name => return ((← get).frames.get? name env).getD .null
  | .collect => newArray arguments.toArray
  | .fail failure => throw failure

/-- What a native does with its arguments, at a line, in the environment of the call. -/
def nativeAction (action : NativeAction) (env : Env) (line : Int) (arguments : List Value) :
    Run Value := do
  match action with
  | .print =>
    let shown := (← get).render (arguments.head?.getD .null)
    write "print" (shown ++ [Text.newline])
    return .null
  | .read => readLine
  | .length => lengthOf (arguments.head?.getD .null) line
  | .toInt => integerOf (arguments.head?.getD .null) line
  | .timeStart =>
    -- no time passes while a program runs
    modify fun m => { m with stopwatch := text "0" }
    return .null
  | .timeEnd =>
    let reading := (← get).stopwatch
    write "time_end" (text "cost time = " ++ reading ++ text "s\n")
    return .null
  | .host action => hostAction action env line arguments

/-- Calls a native.  A failure that has no line yet gets the line of the call. -/
def callNative (native : Native) (env : Env) (line : Int) (arguments : List Value) : Run Value := fun m =>
  match nativeAction native.action env line arguments m with
  | .ok value m => .ok value m
  | .error failure m => .error (failure.withLine line) m

end Run

end StoneLang
