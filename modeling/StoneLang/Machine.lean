/-
  The state of a running program.

  A machine holds everything that a program can change or depend on: the frames of its variables, the
  entries that values refer to, what is known about its trees, its input and output, and the journal.
  Entries are never removed, so a number that a value carries stays good.

  Classes are numbered by a counter that the machine is given at its start, because the numbers go on
  from one session to the next; they serve as identities and for nothing else.
-/
import StoneLang.Grammar.Parse
import StoneLang.Text.BufferedLine
import StoneLang.Value.Environment

namespace StoneLang

/-- A function or closure with the environment it was made in. -/
structure Function where
  /-- The name of the definition; empty for a closure. -/
  name : Text
  parameters : List Text
  body : Node
  env : Env
  /-- The number of slots of a call, if the names in the body have been placed. -/
  size : Option Nat

/-- What a native that the host registers does. -/
inductive HostAction where
  /-- Gives the number of its arguments. -/
  | count
  /-- Gives no value. -/
  | nothing
  /-- Gives the line of the call. -/
  | callLine
  /-- Gives the value of a name at the place of the call, null if it has none. -/
  | lookUp (name : Text)
  /-- Gives an array of its arguments. -/
  | collect
  | fail (failure : Failure)

/-- What a native does. -/
inductive NativeAction where
  | print | read | length | toInt | timeStart | timeEnd
  | host (action : HostAction)

/-- A function of the host.  A negative arity takes any number of arguments. -/
structure Native where
  name : Text
  arity : Int
  action : NativeAction

/-- An evaluated class. -/
structure Class where
  /-- The number of the class, by which member accesses recognise it. -/
  id : Nat
  name : Text
  /-- The superclasses, the nearest first. -/
  parents : List Nat
  layout : Layout
  members : List Node
  env : Env

/-- An instance of a class, with one slot for every field. -/
structure Object where
  classRef : Nat
  fields : Array Value

/-- What a program may still read. -/
structure Input where
  source : Buffered
  /-- How reading fails at the end, if it does not simply end. -/
  broken : Option Text
deriving DecidableEq, Repr

/-- The input that gives a text and then simply ends. -/
def Input.ofText (t : Text) : Input := ⟨.ofText t, none⟩

/-- What a program has written. -/
structure Output where
  /-- What has been written, write by write. -/
  chunks : Array Text
  /-- The number of bytes written. -/
  written : Nat
  /-- The number of bytes after which the output is closed. -/
  limit : Option Nat
deriving Repr

namespace Output

def empty (limit : Option Nat) : Output := ⟨#[], 0, limit⟩

/-- All that has been written. -/
def text (o : Output) : Text := o.chunks.toList.flatten

def hasRoom (o : Output) (t : Text) : Bool :=
  match o.limit with
  | some limit => o.written + t.length ≤ limit
  | none => true

def write (o : Output) (t : Text) : Output :=
  { o with chunks := o.chunks.push t, written := o.written + t.length }

end Output

/-- How a machine runs. -/
structure Settings where
  maxDepth : Nat
  /-- Names are placed before a unit is evaluated. -/
  placesNames : Bool
  /-- What happens is noted in the journal. -/
  watched : Bool
  /-- The bound on the rounds of one loop. -/
  rounds : Nat
deriving DecidableEq, Repr

/-- The state of a running program. -/
structure Machine where
  settings : Settings
  frames : Frames
  arrays : Array (Array Value)
  functions : Array Function
  natives : Array Native
  classes : Array Class
  objects : Array Object
  notes : Notes
  input : Input
  output : Output
  records : Array Record
  /-- The next free site. -/
  nextSite : Site
  /-- The number of the next class. -/
  nextClass : Nat
  /-- What the stopwatch shows, in seconds.  One that was never started shows the longest duration. -/
  stopwatch : Text

/-- Running with failure; the state is kept when it fails. -/
abbrev Run := EStateM Failure Machine

namespace Machine

def builtinFrame : Nat := 0

def globalFrame : Nat := 1

/-- The environment of a unit. -/
def globalEnv : Env := [globalFrame, builtinFrame]

/-- The reading of a stopwatch that was never started: 2^63 - 1 nanoseconds. -/
def longestDuration : Text := text "9223372036.854776"

/-- A machine before anything has run, without natives. -/
def start (settings : Settings) (input : Input) (limit : Option Nat) (nextClass : Nat) : Machine where
  settings := settings
  frames := #[.builtins [], .globals [] #[]]
  arrays := #[]
  functions := #[]
  natives := #[]
  classes := #[]
  objects := #[]
  notes := .empty
  input := input
  output := .empty limit
  records := #[]
  nextSite := 0
  nextClass := nextClass
  stopwatch := longestDuration

/-- The declared global names, in slot order. -/
def globalNames (m : Machine) : List Text :=
  match m.frames[globalFrame]? with
  | some (.globals names _) => names
  | _ => []

/-- The global names that hold a value, in slot order. -/
def heldGlobalNames (m : Machine) : List Text :=
  match m.frames[globalFrame]? with
  | some (.globals names values) => Frame.heldNames names values
  | _ => []

def withGlobalNames (m : Machine) (names : List Text) : Machine :=
  { m with frames := m.frames.modify globalFrame fun
      | .globals _ values => .globals names values
      | frame => frame }

/-- The machine with one more native, which hides an earlier one of that name. -/
def registerNative (m : Machine) (native : Native) : Machine :=
  let value := Value.native m.natives.size
  { m with
    natives := m.natives.push native
    frames := m.frames.define [builtinFrame] native.name value }

def nativeNames (m : Machine) : List Text :=
  match m.frames[builtinFrame]? with
  | some (.builtins bindings) => Text.sort (bindings.map Prod.fst)
  | _ => []

/-- The native of a name. -/
def native? (m : Machine) (name : Text) : Option Native :=
  match m.frames.get? name [builtinFrame] with
  | some (.native ref) => m.natives[ref]?
  | _ => none

/-- The class of an object. -/
def classOf? (m : Machine) (object : Nat) : Option Class :=
  (m.objects[object]?).bind fun o => m.classes[o.classRef]?

def className (m : Machine) (object : Nat) : Text :=
  match m.classOf? object with
  | some c => c.name
  | none => []

/-- The numbers of a class and its superclasses, the root first. -/
def lineage (m : Machine) (ref : Nat) : List Nat :=
  match m.classes[ref]? with
  | some c => (ref :: c.parents).reverse
  | none => []

/-- The class `ref` is the class `other` or derives from it. -/
def isSubclass (m : Machine) (ref other : Nat) : Bool := (m.lineage ref).contains other

def note (m : Machine) (record : Record) : Machine :=
  if m.settings.watched then { m with records := m.records.push record } else m

end Machine

namespace Run

def fault {α : Type} (cause : Cause) (line : Int) : Run α := throw (.atLine cause line)

def newFrame (frame : Frame) : Run Nat :=
  modifyGet fun m => (m.frames.size, { m with frames := m.frames.push frame })

def newArray (elements : Array Value) : Run Value :=
  modifyGet fun m => (.array m.arrays.size, { m with arrays := m.arrays.push elements })

def newFunction (function : Function) : Run Value :=
  modifyGet fun m => (.function m.functions.size, { m with functions := m.functions.push function })

def newObject (object : Object) : Run Nat :=
  modifyGet fun m => (m.objects.size, { m with objects := m.objects.push object })

def note (record : Record) : Run Unit := modify fun m => m.note record

end Run

end StoneLang
