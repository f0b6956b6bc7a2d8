/-
  Scopes at run time.

  Variables live in frames, and an environment is a chain of frame numbers, the innermost first.  There
  are four kinds of frame:

  * `builtins` binds names to natives and is the outermost;
  * `globals` has a slot for every declared name, some of them still empty, and grows when needed;
  * `slots` is the frame of a call whose names have been placed: a fixed row of slots;
  * `byName` is the frame of a call whose names have not: bindings by name.

  Placed names are read and written by hops and slot, the others by name.  A frame of slots passes an
  access by name on to the frames around it.  An assignment by name changes the nearest by-name frame
  that binds the name, without crossing a frame of another kind; so code in a call never assigns to a
  global.

  An access that finds no slot has a fault of its own, `SlotFault`, and changes nothing.
-/
import StoneLang.Value.Basic

namespace StoneLang

/-- Bindings by name, each name once. -/
abbrev Bindings := List (Text × Value)

namespace Bindings

def set (name : Text) (value : Value) : Bindings → Bindings
  | [] => [(name, value)]
  | (other, old) :: rest =>
    if other = name then (name, value) :: rest else (other, old) :: set name value rest

/-- The value of a name. -/
def get? (bindings : Bindings) (name : Text) : Option Value := bindings.lookup name

end Bindings

/-- A scope at run time. -/
inductive Frame where
  | builtins (bindings : Bindings)
  | byName (bindings : Bindings)
  | slots (values : Array (Option Value))
  | globals (names : List Text) (values : Array (Option Value))

/-- All frames. -/
abbrev Frames := Array Frame

/-- The numbers of the frames in sight, the innermost first. -/
abbrev Env := List Nat

/-- Why a slot cannot be written. -/
inductive SlotFault where
  /-- The chain of frames ends `hops` hops too early. -/
  | chainTooShort (hops : Int)
  | builtinsHaveNone
  | byNameHasNone
  | outside (index : Int) (size : Nat)
  | negative (index : Int)
deriving DecidableEq, Repr

/-- The text of a fault. -/
def SlotFault.message : SlotFault → Text
  | chainTooShort hops => text "runtime: scope chain shorter than " ++ Decimal.ofInt hops
  | builtinsHaveNone => text "runtime: builtin scope has no slots"
  | byNameHasNone => text "runtime: by-name scope has no slots"
  | outside index size =>
    text "runtime: slot " ++ Decimal.ofInt index ++ text " outside a scope of " ++ Decimal.ofNat size
  | negative index => text "runtime: negative global slot " ++ Decimal.ofInt index

/-- The value in a slot; a slot that does not exist is empty. -/
def slotAt (values : Array (Option Value)) (index : Int) : Option Value :=
  if index < 0 then none else (values[index.toNat]?).join

def grow (values : Array (Option Value)) (n : Nat) : Array (Option Value) :=
  values ++ Array.replicate (n - values.size) none

namespace Frame

def ofSize (size : Nat) : Frame := .slots (Array.replicate size none)

def setSlot (index : Nat) (value : Value) : Frame → Frame
  | .slots values => .slots (values.setIfInBounds index (some value))
  | .globals names values => .globals names ((grow values (index + 1)).setIfInBounds index (some value))
  | frame => frame

/-- The frame with a name bound; a frame of slots has no names. -/
def bind (name : Text) (value : Value) : Frame → Frame
  | .builtins bindings => .builtins (bindings.set name value)
  | .byName bindings => .byName (bindings.set name value)
  | .globals names values =>
    let (slot, table) := Table.add ⟨.globals, names⟩ name
    .globals table.names ((grow values (slot + 1)).setIfInBounds slot (some value))
  | .slots values => .slots values

def heldNames (names : List Text) (values : Array (Option Value)) : List Text :=
  (names.zipIdx.filter fun (_, slot) => (slotAt values slot).isSome).map Prod.fst

end Frame

namespace Frames

/-! ## By name -/

/-- The value of a name, from the inside out. -/
def get? (frames : Frames) (name : Text) : Env → Option Value
  | [] => none
  | f :: outer =>
    match frames[f]? with
    | some (.builtins bindings) => bindings.get? name
    | some (.byName bindings) =>
      match bindings.get? name with
      | some value => some value
      | none => get? frames name outer
    | some (.slots _) => get? frames name outer
    | some (.globals names values) =>
      match (names.idxOf? name).bind fun slot => slotAt values slot with
      | some value => some value
      | none => get? frames name outer
    | none => none

/-- The nearest by-name frame that binds a name, with nothing but by-name frames before it. -/
def holder? (frames : Frames) (name : Text) : Env → Option Nat
  | [] => none
  | f :: outer =>
    match frames[f]? with
    | some (.byName bindings) =>
      if (bindings.get? name).isSome then some f else holder? frames name outer
    | _ => none

def assignee? (frames : Frames) (name : Text) : Env → Option Nat
  | [] => none
  | f :: outer =>
    match frames[f]? with
    | some (.byName _) => some ((holder? frames name (f :: outer)).getD f)
    | some (.slots _) => assignee? frames name outer
    | some (.builtins _) | some (.globals ..) => some f
    | none => none

/-- The frame in which a definition by name is made, if any. -/
def definer? (frames : Frames) (name : Text) : Env → Option Nat
  | [] => none
  | f :: outer =>
    match frames[f]? with
    | some (.slots _) => assignee? frames name outer
    | some _ => some f
    | none => none

def bindIn (frames : Frames) (target : Option Nat) (name : Text) (value : Value) : Frames :=
  match target with
  | some f => frames.modify f (Frame.bind name value)
  | none => frames

/-- Assigns to a name. -/
def put (frames : Frames) (env : Env) (name : Text) (value : Value) : Frames :=
  frames.bindIn (frames.assignee? name env) name value

/-- Defines a name in the innermost frame that takes names. -/
def define (frames : Frames) (env : Env) (name : Text) (value : Value) : Frames :=
  frames.bindIn (frames.definer? name env) name value

/-! ## By slot -/

/-- The value in the slot `index` of the frame `nest` hops outward. -/
def getAt? (frames : Frames) : Env → Int → Int → Option Value
  | [], _, _ => none
  | f :: outer, nest, index =>
    match frames[f]? with
    | some (.builtins _) => none
    | some (.byName _) => if nest = 0 then none else getAt? frames outer (nest - 1) index
    | some (.slots values) | some (.globals _ values) =>
      if 0 < nest then getAt? frames outer (nest - 1) index else slotAt values index
    | none => none

def checkSlot (frames : Frames) (f : Nat) (index : Int) : Except SlotFault Nat :=
  match frames[f]? with
  | some (.slots values) =>
    if 0 ≤ index ∧ index < values.size then .ok f else .error (.outside index values.size)
  | some (.globals ..) => if index < 0 then .error (.negative index) else .ok f
  | some (.byName _) => .error .byNameHasNone
  | some (.builtins _) | none => .error .builtinsHaveNone

def slotOwner (frames : Frames) : Env → Int → Int → Except SlotFault Nat
  | [], nest, _ => .error (.chainTooShort nest)
  | f :: outer, nest, index =>
    match frames[f]? with
    | some (.builtins _) | none => .error .builtinsHaveNone
    | some (.byName _) =>
      if nest = 0 ∨ outer = [] then .error .byNameHasNone else slotOwner frames outer (nest - 1) index
    | some (.slots _) =>
      -- from a frame of slots the hops are made first, whatever frames lie between
      if 0 < nest then
        match outer.drop (nest.toNat - 1) with
        | target :: _ => frames.checkSlot target index
        | [] => .error (.chainTooShort (nest - outer.length))
      else frames.checkSlot f index
    | some (.globals ..) =>
      if 0 < nest then
        if outer = [] then .error (.chainTooShort nest) else slotOwner frames outer (nest - 1) index
      else frames.checkSlot f index

def write (frames : Frames) (f : Nat) (index : Int) (value : Value) : Frames :=
  frames.modify f (Frame.setSlot index.toNat value)

/-- Writes the slot `index` of the frame `nest` hops outward. -/
def putAt (frames : Frames) (env : Env) (nest index : Int) (value : Value) : Except SlotFault Frames :=
  match frames.slotOwner env nest index with
  | .ok f => .ok (frames.write f index value)
  | .error fault => .error fault

end Frames

end StoneLang
