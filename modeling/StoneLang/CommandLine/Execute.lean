/-
  Carrying out a command.

  A command acts on the world outside through a `Host`: it looks up files, writes one, prints, and lets a
  program or the interactive loop use the standard input.  The host is a parameter, so the same commands
  run against the file system and against a world that is a value.
-/
import StoneLang.CommandLine.Command
import StoneLang.Config.Decode
import StoneLang.History
import StoneLang.Journal.Line
import StoneLang.Repl
import StoneLang.Text.Showable

namespace StoneLang.CommandLine

def success : Nat := 0

def failed : Nat := 1

def misused : Nat := 2

/-- What a finished activity leaves. -/
structure Report where
  output : Text
  complaint : Text
  exit : Nat
  /-- The failure that ended the activity, if any. -/
  failure : Option Failure

/-- The world outside. -/
structure Host (m : Type → Type) where
  /-- The directory in which relative paths start. -/
  directory : Text
  /-- The home directory; empty if there is none. -/
  home : Text
  /-- What an absolute path leads to. -/
  find : Text → m (Except FileFault Entry)
  /-- Writes a file if that is possible. -/
  create : Text → Text → m Unit
  print : Text → m Unit
  complain : Text → m Unit
  /-- All of the standard input. -/
  input : m Text
  /-- Carries out an activity that reads the standard input. -/
  feed : (Input → Report) → m Nat
  /-- Runs the interactive loop on the standard input; what was entered. -/
  converse : Config → m (List Text)

/-- How the interactive loop runs.  Its line reader refuses a prompt that cannot be shown; `input` is what
its first session may read. -/
def loopSetting (config : Config) (input : Text) (load : Text → Except Failure Source) : Repl.Setting :=
  ⟨config, .ofText input, config.isVerbose, load, fun prompt => !prompt.isShowable⟩

def configName : Text := text "stone.yml"

def configOfEntry (path : Text) (found : Except FileFault Entry) : Except Failure Config :=
  let inFile := text "config: " ++ path
  match found with
  | .ok (.file content) =>
    match Config.decode content with
    | .ok config => .ok { config with path }
    | .error failure => .error (failure.label inFile)
  | .ok .directory =>
    .error (.plain (inFile ++ text ": parse: yaml: input error: " ++ FileFault.readingDirectory path))
  | .error fault => .error (.plain (text "config: open " ++ path ++ text ": " ++ fault.opening path))

section

variable {m : Type → Type} [Monad m] (host : Host m)

def searchConfig : List Text → m (Except Failure Config)
  | [] => return .ok Config.default
  | directory :: above => do
    let path := Path.join directory configName
    let found ← host.find path
    match found with
    | .ok (.file _) => return configOfEntry path found
    | .ok .directory => searchConfig above
    | .error .missing => searchConfig above
    | .error fault =>
      return .error (.plain (text "config: stat " ++ path ++ text ": stat " ++ path ++ text ": " ++ fault.message))

/-- The configuration for a directory: the one that the options name, or else the nearest one above. -/
def loadConfig (options : Options) (directory : Text) : m (Except Failure Config) := do
  let config ←
    if options.config ≠ [] then do
      let path := Path.absolute host.directory options.config
      pure (configOfEntry path (← host.find path))
    else searchConfig host (Path.ancestors (Path.absolute host.directory directory))
  return config.map fun c => if options.verbose then { c with logLevel := text "debug" } else c

def loadFile (target : Text) : m (Except Failure Source) := do
  let path := Path.absolute host.directory target
  return Source.ofEntry target path (← host.find path)

def fail (failure : Failure) : m Nat := do
  host.complain (text "error: " ++ failure.message ++ [Text.newline])
  return failed

def runReport (config : Config) (source : Source) (input : Input) : Report :=
  let (outcome, session) :=
    (Session.start config config.isVerbose input none 1).run source.name source.content
  let journal := Record.lines config.level session.machine.records.toList
  let output := session.machine.output.text
  match outcome with
  | .ok _ => ⟨output, journal, success, none⟩
  | .error f => ⟨output, journal ++ text "error: " ++ f.message ++ [Text.newline], failed, some f⟩

def inputName : Text := text "<stdin>"

/-- The program that a command runs; on the standard input it leaves nothing to read. -/
def loadTarget (options : Options) (target : Text) : m (Except Failure Source) := do
  if options.repository ≠ [] then
    if options.repository.trim = [] then return .error (.plain (text "source: git url is required"))
    else
      return .error (.plain (text "git clone " ++ options.repository ++ text ": no transport available"))
  else if target = text "-" then return .ok ⟨inputName, ← host.input, Path.here⟩
  else loadFile host target

def runProgram (options : Options) (target : Text) : m Nat := do
  match ← loadTarget host options target with
  | .error f => fail host f
  | .ok source =>
    match ← loadConfig host options source.directory with
    | .error f => fail host f
    | .ok config => host.feed (runReport config source)

def printTokens (target : Text) : m Nat := do
  match ← loadFile host target with
  | .error f => fail host f
  | .ok source =>
    let (tokens, failure) := Token.tokenize source.content
    host.print (tokens.flatMap fun t => t.shown ++ [Text.newline])
    match failure with
    | some f => fail host (f.label source.name)
    | none => return success

def printTrees (options : Options) (target : Text) : m Nat := do
  match ← loadFile host target with
  | .error f => fail host f
  | .ok source =>
    match ← loadConfig host options source.directory with
    | .error f => fail host f
    | .ok config =>
      let (parsed, session) :=
        (Session.start config config.isVerbose (.ofText []) none 1).parse source.content
      host.complain (Record.lines config.level session.machine.records.toList)
      host.print (parsed.units.flatMap fun u => u.shown ++ [Text.newline])
      match parsed.failure with
      | some f => fail host (f.label source.name)
      | none => return success

def loadHistory (path : Text) : m (List Text) := do
  if path = [] then return []
  match ← host.find path with
  | .ok (.file content) => return History.ofText content
  | _ => return []

def startLoop (options : Options) : m Nat := do
  match ← loadConfig host options Path.here with
  | .error f => fail host f
  | .ok config =>
    let path := History.path host.home config.repl.history
    let history ← loadHistory host path
    host.print (programVersion ++ text " (:help for commands)\n")
    let entered ← host.converse config
    if path ≠ [] then host.create path (History.toText (entered.foldl History.append history))
    return success

/-- Carries out a command line. -/
def execute (arguments : List Text) : m Nat := do
  match Command.parse arguments with
  | .error complaint =>
    host.complain complaint
    return misused
  | .ok .usage =>
    host.print programUsage
    return success
  | .ok .version =>
    host.print (programVersion ++ [Text.newline])
    return success
  | .ok (.run options target) => runProgram host options target
  | .ok (.loop options) => startLoop host options
  | .ok (.tokens _ target) => printTokens host target
  | .ok (.trees options target) => printTrees host options target

end

end StoneLang.CommandLine
