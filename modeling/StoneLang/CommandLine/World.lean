/-
  A world as a value.

  Everything that a command can see or change: files, directories to start from, the standard input, and
  what has been printed.  Commands run against it without any effect outside.
-/
import StoneLang.CommandLine.Execute

namespace StoneLang.CommandLine

/-- The world outside, as a value. -/
structure World where
  files : FileTree
  directory : Text
  home : Text
  input : Text
  output : Text := []
  complaints : Text := []

namespace World

/-- Prints to the standard output. -/
def print (t : Text) : StateM World Unit := modify fun w => { w with output := w.output ++ t }

def complain (t : Text) : StateM World Unit := modify fun w => { w with complaints := w.complaints ++ t }

/-- Carries out an activity on what is left of the standard input. -/
def feed (activity : Input → Report) : StateM World Nat := do
  let report := activity (.ofText (← get).input)
  print report.output
  complain report.complaint
  return report.exit

def load (w : World) (target : Text) : Except Failure Source :=
  let path := Path.absolute w.directory target
  Source.ofEntry target path (w.files.find path)

/-- Runs the interactive loop on the lines of the standard input, which its sessions read from as well. -/
def converse (config : Config) : StateM World (List Text) := do
  let w ← get
  let setting := loopSetting config w.input w.load
  let l := Repl.Loop.runShared setting (w.input.length + 1) (.start setting) (.ofText w.input)
  print l.screen
  complain (Record.lines config.level l.records.toList)
  return l.entered.toList

def host (w : World) : Host (StateM World) where
  directory := w.directory
  home := w.home
  find path := return (← get).files.find path
  create path content := modify fun w => { w with files := (w.files.create? path content).getD w.files }
  print := print
  complain := complain
  input := modifyGet fun w => (w.input, { w with input := [] })
  feed := feed
  converse := converse

/-- Carries out a command line; what it ends with, and the world then. -/
def execute (w : World) (arguments : List Text) : Nat × World := CommandLine.execute w.host arguments w

end World

end StoneLang.CommandLine
