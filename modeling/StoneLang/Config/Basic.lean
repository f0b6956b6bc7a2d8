/-
  The configuration of a session.

  A configuration says how deep things may nest, whether names are placed, which layers and natives the
  language has, how much the journal keeps, and how the interactive loop looks.  `Config.issues` lists
  the rules that a configuration breaks, in the order of its parts; one that breaks none is valid.
-/
import StoneLang.Eval.Natives
import StoneLang.Grammar.Language

namespace StoneLang

/-- How the interactive loop looks. -/
structure Prompts where
  prompt : Text
  continuation : Text
  /-- The file that keeps the lines; empty for none. -/
  history : Text
deriving DecidableEq, Repr

/-- The configuration of a session. -/
structure Config where
  /-- The file that the configuration comes from, if any. -/
  path : Text
  maxDepth : Int
  placesNames : Bool
  logLevel : Text
  layers : Layers
  /-- The natives that are installed; all of them if none is listed. -/
  natives : List Text
  repl : Prompts
deriving DecidableEq, Repr

def Level.ofName? (name : Text) : Option Level :=
  if name = text "debug" then some .debug
  else if name = text "info" then some .info
  else if name = text "warn" ∨ name = text "warning" then some .warn
  else if name = text "error" then some .error
  else none

namespace Config

/-- The configuration where there is no other. -/
def default : Config where
  path := []
  maxDepth := defaultMaxDepth
  placesNames := true
  logLevel := text "warn"
  layers := .full
  natives := []
  repl := ⟨text "> ", text "... ", text ".stone_history"⟩

def level (c : Config) : Level := (Level.ofName? c.logLevel).getD .warn

def isVerbose (c : Config) : Bool := c.level.passes .debug

/-- What is wrong with the native listed at place `i`, after the names `seen`. -/
def nativeIssue? (i : Nat) (name : Text) (seen : List Text) : Option Text :=
  let entry := text "natives[" ++ Decimal.ofNat i ++ text "]: "
  if (Native.standard? name).isNone then some (entry ++ text "unknown native " ++ name.quoted)
  else if seen.contains name then some (entry ++ name.quoted ++ text " listed twice")
  else none

/-- What is wrong with the natives listed from place `i` on. -/
def nativeIssues (i : Nat) (seen : List Text) : List Text → List Text
  | [] => []
  | name :: rest =>
    (nativeIssue? i name seen).toList ++ nativeIssues (i + 1) (name :: seen) rest

def issues (c : Config) : List Text :=
  (if c.maxDepth ≤ 0 then
    [text "max_depth must be positive, got " ++ Decimal.ofInt c.maxDepth] else [])
  ++ (if (Level.ofName? c.logLevel).isNone then
    [text "log_level " ++ c.logLevel.quoted ++ text " must be one of debug, info, warn, error"] else [])
  ++ (if !c.layers.functions && (c.layers.closures || c.layers.classes) then
    [text "grammar.functions cannot be disabled while closures or classes are enabled"] else [])
  ++ nativeIssues 0 [] c.natives
  ++ (if c.repl.prompt = [] then [text "repl.prompt must not be empty"] else [])

def validate (c : Config) : Except Failure Config :=
  if c.issues = [] then .ok c else .error (.invalid c.issues)

end Config

end StoneLang
