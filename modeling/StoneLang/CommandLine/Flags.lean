/-
  Flags.

  A command takes flags before its other arguments.  A flag is written with one dash or two; its value
  follows an equals sign or is the next argument, and a switch needs no value.  A lone dash is an
  argument like any other, and two dashes alone end the flags.
-/
import StoneLang.Text.Quoted

namespace StoneLang.CommandLine

/-- A flag that changes a record of options. -/
structure Flag (α : Type) where
  name : Text
  /-- The word for the value in the usage text; none for a switch. -/
  argument : Option Text
  usage : Text
  /-- The options with the flag set to a value; nothing if the value is not understood. -/
  set : Text → α → Option α

/-- Why flags are not understood. -/
inductive FlagFault where
  /-- The usage text was asked for. -/
  | help
  | malformed (argument : Text)
  | unknown (name : Text)
  | valueMissing (name : Text)
  | badSwitch (name value : Text)
deriving DecidableEq, Repr

/-- The wording of a fault; none if the usage text is all that is shown. -/
def FlagFault.message : FlagFault → Option Text
  | .help => none
  | .malformed argument => some (text "bad flag syntax: " ++ argument)
  | .unknown name => some (text "flag provided but not defined: -" ++ name)
  | .valueMissing name => some (text "flag needs an argument: -" ++ name)
  | .badSwitch name value =>
    some (text "invalid boolean value " ++ value.quoted ++ text " for -" ++ name ++ text ": parse error")

def switchValue? (value : Text) : Option Bool :=
  if ["1", "t", "T", "true", "TRUE", "True"].any (text · == value) then some true
  else if ["0", "f", "F", "false", "FALSE", "False"].any (text · == value) then some false
  else none

/-- What an argument is at a place where flags may stand. -/
inductive ArgumentShape where
  /-- Not a flag. -/
  | ordinary
  /-- The end of the flags. -/
  | endOfFlags
  | flag (name : Text) (value : Option Text)
  | malformed
deriving DecidableEq, Repr

def shapeOf (argument : Text) : ArgumentShape :=
  match argument with
  | dash :: second :: rest =>
    if dash ≠ 0x2D then .ordinary
    else if second = 0x2D ∧ rest = [] then .endOfFlags
    else
      match if second = 0x2D then rest else second :: rest with
      | [] => .malformed
      | first :: more =>
        if first = 0x2D ∨ first = 0x3D then .malformed
        else
          match Text.cutAt 0x3D more with
          | some (name, value) => .flag (first :: name) (some value)
          | none => .flag (first :: more) none
  | _ => .ordinary

def Flag.assign {α : Type} (f : Flag α) (value : Text) (options : α) : Except FlagFault α :=
  match f.set value options with
  | some options => .ok options
  | none => .error (.badSwitch f.name value)

/-- Reads the flags at the head of the arguments; the options then, and the other arguments. -/
def readFlags {α : Type} (flags : List (Flag α)) (options : α) :
    List Text → Except FlagFault (α × List Text)
  | [] => .ok (options, [])
  | argument :: rest =>
    match shapeOf argument with
    | .ordinary => .ok (options, argument :: rest)
    | .endOfFlags => .ok (options, rest)
    | .malformed => .error (.malformed argument)
    | .flag name value =>
      match flags.find? fun f => f.name == name with
      | none => .error (if name = text "help" ∨ name = text "h" then .help else .unknown name)
      | some f => do
        match f.argument, value with
        | none, _ => readFlags flags (← f.assign (value.getD (text "true")) options) rest
        | some _, some value => readFlags flags (← f.assign value options) rest
        | some _, none =>
          match rest with
          | [] => .error (.valueMissing name)
          | value :: rest => readFlags flags (← f.assign value options) rest

/-- The usage text of one flag: on one line if the flag is short. -/
def Flag.usageText {α : Type} (f : Flag α) : Text :=
  let head := text "  -" ++ f.name ++ (match f.argument with
    | some argument => text " " ++ argument
    | none => [])
  head ++ (if head.length ≤ 4 then text "\t" else text "\n    \t") ++ f.usage ++ [Text.newline]

def usageText {α : Type} (command : Text) (flags : List (Flag α)) : Text :=
  text "Usage of " ++ command ++ text ":\n" ++ flags.flatMap Flag.usageText

def FlagFault.report {α : Type} (fault : FlagFault) (command : Text) (flags : List (Flag α)) : Text :=
  (match fault.message with
    | some message => message ++ [Text.newline]
    | none => []) ++ usageText command flags

end StoneLang.CommandLine
