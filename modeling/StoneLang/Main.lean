/-
  The command line against the file system and the standard streams.

  A program may read the standard input, but is a function of it.  So it runs on what has been typed so
  far; if it asks for more, what it printed until then is shown, one more line is read, and it runs again
  from the start.  Equal input gives equal output, so what has been shown already is not shown again.
-/
import StoneLang.CommandLine.Execute

namespace StoneLang.CommandLine

def ofBytes (b : ByteArray) : Text := b.data.toList

def toBytes (t : Text) : ByteArray := ⟨t.toArray⟩

def systemPath (t : Text) : String := (String.fromUTF8? (toBytes t)).getD ""

def foundOf : IO.Error → Except FileFault Entry
  | .noFileOrDirectory .. => .error .missing
  | .inappropriateType _ code _ => if code = 21 then .ok .directory else .error .notDirectory
  | .permissionDenied .. => .error (.other (text "permission denied"))
  | .invalidArgument _ code _ => .error (if code = 36 then .nameTooLong else .unusableName)
  | other => .error (.other (text other.toString))

def findFile (path : Text) : IO (Except FileFault Entry) := do
  try
    return .ok (.file (ofBytes (← IO.FS.readBinFile (systemPath path))))
  catch e =>
    return foundOf e

def createFile (path content : Text) : IO Unit := do
  try
    IO.FS.writeBinFile (systemPath path) (toBytes content)
  catch _ =>
    return

def writeTo (stream : IO.FS.Stream) (t : Text) : IO Unit := do
  stream.write (toBytes t)
  stream.flush

/-- The next line of the standard input with its line feed; empty at the end. -/
partial def readLine (stream : IO.FS.Stream) (line : Text) : IO Text := do
  let bytes ← stream.read 1
  match ofBytes bytes with
  | [] => return line
  | b :: _ => if b = Text.newline then return line ++ [b] else readLine stream (line ++ [b])

/-- All of the standard input. -/
partial def readAll (stream : IO.FS.Stream) (known : ByteArray) : IO Text := do
  let bytes ← stream.read 65536
  if bytes.isEmpty then return ofBytes known else readAll stream (known ++ bytes)

def awaited : Text := text "more input is awaited"

def awaitsInput : Failure → Bool
  | .plain message => message == awaited
  | .labelled _ inner => awaitsInput inner
  | _ => false

/-- Carries out an activity on the standard input, of which `known` has been read; `shown` bytes of its
output have been printed. -/
partial def feedFrom (input output errors : IO.FS.Stream) (activity : Input → Report) (known : Text)
    (shown : Nat) : IO Nat := do
  let attempt := activity ⟨.ofText known, some awaited⟩
  writeTo output (attempt.output.drop shown)
  if (attempt.failure.map awaitsInput).getD false then
    let shown := attempt.output.length
    let line ← readLine input []
    if line.getLast? = some Text.newline then feedFrom input output errors activity (known ++ line) shown
    else
      let last := activity (.ofText (known ++ line))
      writeTo output (last.output.drop shown)
      writeTo errors last.complaint
      return last.exit
  else
    writeTo errors attempt.complaint
    return attempt.exit

/-- Runs the interactive loop from a state on, printing what it shows as it goes.  `refill` gets more
input where none is left. -/
partial def converseFrom (output errors : IO.FS.Stream) (refill : Buffered → IO Buffered)
    (load : Text → IO (Except Failure Source)) (config : Config) (l : Repl.Loop) (b : Buffered) :
    IO (List Text) := do
  let setting (loaded : Except Failure Source) := loopSetting config [] fun _ => loaded
  let unloaded := setting (.error (.plain []))
  let display (l : Repl.Loop) : IO Repl.Loop := do
    writeTo output l.screen
    writeTo errors (Record.lines config.level l.records.toList)
    return { l with shown := #[], records := #[] }
  if let some l := l.refused? unloaded then
    return (← display l).entered.toList
  let l ← display (l.ask unloaded)
  match (← refill b).line? with
  | none => return (← display l.finish).entered.toList
  | some (line, b) =>
    let loaded ← match l.wantedFile? line with
      | some path => load path
      | none => pure (.error (.plain []))
    let (l, b, goesOn) := l.stepShared (setting loaded) line b
    let l ← display l
    if goesOn then converseFrom output errors refill load config l b else return l.entered.toList

/-- The host that acts on the file system and the standard streams. -/
def systemHost : IO (Host IO) := do
  let input ← IO.getStdin
  let output ← IO.getStdout
  let errors ← IO.getStderr
  let directory := text (← IO.currentDir).toString
  let load (target : Text) : IO (Except Failure Source) := do
    let path := Path.absolute directory target
    return Source.ofEntry target path (← findFile path)
  return {
    directory := directory
    home := text ((← IO.getEnv "HOME").getD "")
    find := findFile
    create := createFile
    print := writeTo output
    complain := writeTo errors
    input := readAll input .empty
    feed := fun activity => feedFrom input output errors activity [] 0
    converse := fun config => do
      let begin (known : Text) := Repl.Loop.start (loopSetting config known fun _ => .error (.plain []))
      if ← input.isTty then
        let refill (b : Buffered) : IO Buffered := do
          if b.all = [] then return .ofText (← readLine input []) else return b
        converseFrom output errors refill load config (begin []) (.ofText [])
      else
        let known ← readAll input .empty
        converseFrom output errors pure load config (begin known) (.ofText known)
  }

end StoneLang.CommandLine

/-- Runs the command line. -/
def main (arguments : List String) : IO UInt32 := do
  let host ← StoneLang.CommandLine.systemHost
  return (← StoneLang.CommandLine.execute host (arguments.map StoneLang.text)).toUInt32
