/-
  Reading a configuration.

  A configuration file is a mapping; every entry that it has replaces a default, and an entry without a
  value replaces nothing.  Decoding does not stop at the first fault: it collects a complaint for every
  unknown field, repeated key and value of the wrong type, in the order of the document, and fails with
  all of them.  What decodes is then validated.
-/
import StoneLang.Config.Basic
import StoneLang.Text.Lower
import StoneLang.Yaml.Merge
import StoneLang.Yaml.Read
import StoneLang.Yaml.Scalar

namespace StoneLang

namespace Yaml

def denotes (quoted : Bool) (value : Text) : Meaning := if quoted then .string else meaning value

/-- Decoding, with the complaints so far. -/
abbrev Decode := StateT (List Text) (Except Failure)

namespace Decode

def complain (line : Nat) (complaint : Text) : Decode Unit :=
  modify fun complaints => complaints ++ [text "line " ++ Decimal.ofNat line ++ text ": " ++ complaint]

/-- The value of a scalar in a complaint: cut when it is long. -/
def clipped (value : Text) : Text := if 10 < value.length then value.take 7 ++ text "..." else value

def mismatch (wanted : String) (y : Yaml) : Decode Unit :=
  let shown := match y with
    | .scalar _ quoted value => (denotes quoted value).tag ++ text " `" ++ clipped value ++ text "`"
    | .sequence .. => text "!!seq"
    | .mapping .. => text "!!map"
  complain y.line (text "cannot unmarshal " ++ shown ++ text " into " ++ text wanted)

/-- Complains about every key that repeats an earlier one; tells whether there is any. -/
def refuseRepeats : List (Yaml × Yaml) → Decode Bool
  | [] => return false
  | (key, _) :: rest => do
    let again := rest.filter fun entry => key.sameKey entry.1
    for (other, _) in again do
      complain other.line
        (text "mapping key " ++ other.source.quoted ++ text " already defined at line " ++ Decimal.ofNat key.line)
    return (← refuseRepeats rest) || !again.isEmpty

/-- Complains about a mapping or a sequence where a scalar is wanted. -/
def refuseCollection (wanted : String) (y : Yaml) : Decode Unit := do
  match y with
  | .mapping _ entries => if !(← refuseRepeats entries) then mismatch wanted y
  | _ => mismatch wanted y

def scalar {α : Type} (wanted : String) (value? : Meaning → Text → Option α) (y : Yaml) :
    Decode (Option α) := do
  match y with
  | .scalar _ quoted source =>
    let m := denotes quoted source
    if m = .null then return none
    match value? m source with
    | some value => return some value
    | none =>
      mismatch wanted y
      return none
  | _ =>
    refuseCollection wanted y
    return none

/-- The whole number nearest to a fraction toward zero.  One below the signed 64-bit range becomes its
least number, one above is refused. -/
def wholeOf : Fraction → Option Int
  | .notANumber => none
  | .infinite negative => if negative then some Int64.minValue.toInt else none
  | .finite whole =>
    if Int64.maxValue.toInt + 1 < whole then none
    else if Int64.minValue.toInt ≤ whole ∧ whole ≤ Int64.maxValue.toInt then some whole
    else some Int64.minValue.toInt

/-- A whole number. -/
def integer : Yaml → Decode (Option Int) :=
  scalar "int" fun m _ =>
    match m with
    | .integer n => if n ≤ Int64.maxValue.toInt then some n else none
    | .fraction f => wholeOf f
    | _ => none

def affirmations : List String := ["y", "Y", "yes", "Yes", "YES", "on", "On", "ON"]

def negations : List String := ["n", "N", "no", "No", "NO", "off", "Off", "OFF"]

/-- A truth value; besides the scalars that denote one, a few words are understood. -/
def truth : Yaml → Decode (Option Bool) :=
  scalar "bool" fun m source =>
    match m with
    | .truth b => some b
    | _ =>
      if affirmations.any (text · == source) then some true
      else if negations.any (text · == source) then some false
      else none

/-- A string: the source of any scalar. -/
def string : Yaml → Decode (Option Text) := scalar "string" fun _ source => some source

def strings (y : Yaml) : Decode (List Text) := do
  match y with
  | .sequence _ items => items.filterMapM string
  | .scalar _ quoted source =>
    if denotes quoted source ≠ .null then mismatch "[]string" y
    return []
  | .mapping .. =>
    refuseCollection "[]string" y
    return []

/-- How decoding fails where something is merged that is no mapping. -/
def unmergeable : Failure :=
  .plain (text "parse: yaml: map merge requires map or sequence of maps as the value")

/-- The name of an entry with this key, if the key denotes a string. -/
def entryName? : Yaml → Option Text
  | .scalar _ quoted source =>
    match denotes quoted source with
    | .string => some source
    | .merge => some source
    | _ => none
  | _ => none

/-- Decodes the entries of one mapping of known fields onto `a`, except those with a name in `done`.
Gives the names that are done then, too. -/
def entryFields {α : Type} (wanted : String) (field : Text → Option (Yaml → α → Decode α))
    (entries : List (Yaml × Yaml)) (a : α) (done : List Text) : Decode (α × List Text) := do
  if ← refuseRepeats entries then return (a, done)
  entries.foldlM (fun (a, done) (key, value) => do
    if key.isMergeKey then return (a, done)
    match ← string key with
    | none => return (a, done)
    | some name =>
      if done.contains name then return (a, done)
      match field name with
      | some set => return (← set value a, name :: done)
      | none =>
        complain key.line (text "field " ++ name ++ text " not found in type " ++ text wanted)
        return (a, name :: done)) (a, done)

/-- Decodes a mapping of known fields onto `a`.  `field` says how a field changes it. -/
def fields {α : Type} (wanted : String) (field : Text → Option (Yaml → α → Decode α)) (y : Yaml) (a : α) :
    Decode α := do
  match y with
  | .mapping _ entries =>
    match y.overlays with
    | none => throw unmergeable
    | some overlays =>
      let (a, _) ← entryFields wanted field entries a []
      let names := entries.filterMap fun entry => entryName? entry.1
      let (a, _) ← (overlays.drop 1).foldlM (fun (a, done) entries => entryFields wanted field entries a done)
        (a, names)
      return a
  | .scalar _ quoted source =>
    if denotes quoted source ≠ .null then mismatch wanted y
    return a
  | .sequence .. =>
    mismatch wanted y
    return a

def update {α β : Type} (decode : Yaml → Decode (Option β)) (set : α → β → α) (y : Yaml) (a : α) :
    Decode α := do
  match ← decode y with
  | some value => return set a value
  | none => return a

end Decode

end Yaml

open Yaml.Decode in
/-- The fields of the section on the layers of the language. -/
def Layers.field (name : Text) : Option (Yaml → Layers → Yaml.Decode Layers) :=
  if name = text "functions" then some (update truth fun l b => { l with functions := b })
  else if name = text "closures" then some (update truth fun l b => { l with closures := b })
  else if name = text "classes" then some (update truth fun l b => { l with classes := b })
  else if name = text "arrays" then some (update truth fun l b => { l with arrays := b })
  else none

open Yaml.Decode in
/-- The fields of the section on the interactive loop. -/
def Prompts.field (name : Text) : Option (Yaml → Prompts → Yaml.Decode Prompts) :=
  if name = text "prompt" then some (update string fun p t => { p with prompt := t })
  else if name = text "continuation" then some (update string fun p t => { p with continuation := t })
  else if name = text "history" then some (update string fun p t => { p with history := t })
  else none

namespace Config

open Yaml.Decode in
/-- The fields of a configuration. -/
def field (name : Text) : Option (Yaml → Config → Yaml.Decode Config) :=
  if name = text "max_depth" then some (update integer fun c n => { c with maxDepth := n })
  else if name = text "resolve" then some (update truth fun c b => { c with placesNames := b })
  else if name = text "log_level" then
    some (update string fun c t => if t = [] then c else { c with logLevel := t.trim.lower })
  else if name = text "grammar" then
    some fun y c => return { c with layers := ← fields "driver.grammarFile" Layers.field y c.layers }
  else if name = text "natives" then
    some fun y c => return { c with natives := c.natives ++ (← strings y) }
  else if name = text "repl" then
    some fun y c => return { c with repl := ← fields "driver.replFile" Prompts.field y c.repl }
  else none

def undecodable (complaints : List Text) : Failure :=
  .plain (text "parse: yaml: unmarshal errors:" ++ complaints.flatMap fun c => text "\n  " ++ c)

def decode (source : Text) : Except Failure Config :=
  match Yaml.read? source with
  | none => .error (.plain (text "parse: yaml: malformed document"))
  | some none => default.validate
  | some (some y) =>
    match Yaml.Decode.fields "driver.configFile" field y default [] with
    | .ok (config, []) => config.validate
    | .ok (_, complaints) => .error (undecodable complaints)
    | .error failure => .error failure

end Config

end StoneLang
