/-
  Commands.

  A command line names a command, then its flags, then its other arguments.  Without a name the command
  is the interactive loop if there are no arguments, and to run a program if there are.
-/
import StoneLang.CommandLine.Flags

namespace StoneLang.CommandLine

/-- What the flags of a command say. -/
structure Options where
  /-- The configuration file; empty to look for one. -/
  config : Text := []
  verbose : Bool := false
  /-- The repository to take the program from; empty for none. -/
  repository : Text := []
  revision : Text := []
deriving DecidableEq, Repr

/-- A command. -/
inductive Command where
  | usage
  | version
  | run (options : Options) (target : Text)
  | loop (options : Options)
  | tokens (options : Options) (target : Text)
  | trees (options : Options) (target : Text)
deriving DecidableEq, Repr

def programVersion : Text := text "stone 0.1.0-dev"

def programUsage : Text :=
  text "usage:\n"
    ++ text "  stone [run] [-config FILE] [-v] FILE|-      run a program\n"
    ++ text "  stone run -git URL [-ref REV] PATH         run a program from a git repository\n"
    ++ text "  stone repl [-config FILE] [-v]             start the interactive loop\n"
    ++ text "  stone tokens FILE                          print the token stream\n"
    ++ text "  stone ast FILE                             print the parsed units\n"
    ++ text "  stone version\n"

def configFlag : Flag Options :=
  ⟨text "config", some (text "string"), text "path to stone.yml", fun value o => some { o with config := value }⟩

def repositoryFlag : Flag Options :=
  ⟨text "git", some (text "string"), text "clone this repository and run PATH from it",
    fun value o => some { o with repository := value }⟩

def revisionFlag : Flag Options :=
  ⟨text "ref", some (text "string"), text "revision to read with -git (default HEAD)",
    fun value o => some { o with revision := value }⟩

def verboseFlag : Flag Options :=
  ⟨text "v", none, text "log at debug level",
    fun value o => (switchValue? value).map fun b => { o with verbose := b }⟩

/-- The flags of every command, in the order of their names. -/
def commonFlags : List (Flag Options) := [configFlag, verboseFlag]

/-- The flags of the command that runs a program, in the order of their names. -/
def runFlags : List (Flag Options) := [configFlag, repositoryFlag, revisionFlag, verboseFlag]

/-- Reads the flags of a command; a fault becomes the text that reports it. -/
def optionsOf (command : String) (flags : List (Flag Options)) (arguments : List Text) :
    Except Text (Options × List Text) :=
  match readFlags flags {} arguments with
  | .ok result => .ok result
  | .error fault => .error (fault.report (text command) flags)

namespace Command

def ofRun (arguments : List Text) : Except Text Command := do
  match ← optionsOf "run" runFlags arguments with
  | (options, [target]) => .ok (.run options target)
  | _ => .error (text "stone run requires exactly one source file\n" ++ programUsage)

def ofLoop (arguments : List Text) : Except Text Command := do
  match ← optionsOf "repl" commonFlags arguments with
  | (options, []) => .ok (.loop options)
  | (_, rest) => .error (text "unexpected arguments: " ++ Text.join [Text.space] rest ++ [Text.newline])

def ofDump (name : String) (command : Options → Text → Command) (arguments : List Text) :
    Except Text Command := do
  match ← optionsOf name commonFlags arguments with
  | (options, [target]) => .ok (command options target)
  | _ => .error (text "stone " ++ text name ++ text " requires exactly one source file\n")

/-- The command of a command line, or what to say about one that is not understood. -/
def parse (arguments : List Text) : Except Text Command :=
  match arguments with
  | [] => ofLoop []
  | name :: rest =>
    let isOneOf (names : List String) : Bool := names.any (text · == name)
    if isOneOf ["--help", "-h", "help"] then .ok .usage
    else if isOneOf ["--version", "-V", "version"] then .ok .version
    else if isOneOf ["run"] then ofRun rest
    else if isOneOf ["repl"] then ofLoop rest
    else if isOneOf ["tokens"] then ofDump "tokens" .tokens rest
    else if isOneOf ["ast"] then ofDump "ast" .trees rest
    else ofRun arguments

end Command

end StoneLang.CommandLine
