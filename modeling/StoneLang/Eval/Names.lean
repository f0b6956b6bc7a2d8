/-
  Reading and assigning names.

  A name with a location is reached by it; a name without one is searched by name.  A location among the
  members of a class needs a receiver: the object in slot zero of the scope that the location points to.
-/
import StoneLang.Machine

namespace StoneLang.Run

def receiver (env : Env) (hops : Nat) (word : Word) : Run Nat := do
  match (← get).frames.getAt? env hops 0 with
  | some (.object ref) => return ref
  | _ => fault (.noReceiver word.text) word.line

/-- Fails because the class of an object has no such member. -/
def noMember {α : Type} (object : Nat) (word : Word) : Run α := do
  fault (.noMember ((← get).className object) word.text) word.line

def fieldAt? (m : Machine) (object index : Nat) : Option Value :=
  (m.objects[object]?).bind fun o => o.fields[index]?

def methodAt? (m : Machine) (object index : Nat) : Option Definition :=
  (m.classOf? object).bind fun c => c.layout.definitions[index]?

def setField (object index : Nat) (value : Value) : Run Unit :=
  modify fun m => { m with objects := m.objects.modify object fun o =>
    { o with fields := o.fields.setIfInBounds index value } }

/-- The value of a name. -/
def readName (site : Site) (word : Word) (env : Env) : Run Value := do
  match (← get).notes.places.get? site with
  | none =>
    match (← get).frames.get? word.text env with
    | some value => return value
    | none => fault (.undefinedName word.text) word.line
  | some (.lexical nest index) =>
    match (← get).frames.getAt? env nest index with
    | some value => return value
    | none => fault (.undefinedName word.text) word.line
  | some (.field index hops) =>
    let object ← receiver env hops word
    match fieldAt? (← get) object index with
    | some value => return value
    | none => noMember object word
  | some (.method index hops) =>
    let object ← receiver env hops word
    match methodAt? (← get) object index with
    | some d => return .method object d
    | none => noMember object word

/-- Assigns to a name. -/
def assignName (site : Site) (word : Word) (value : Value) (env : Env) : Run Unit := do
  match (← get).notes.places.get? site with
  | none =>
    let target := (← get).frames.assignee? word.text env
    modify fun m => { m with frames := m.frames.bindIn target word.text value }
  | some (.lexical nest index) =>
    match (← get).frames.slotOwner env nest index with
    | .ok f => modify fun m => { m with frames := m.frames.write f index value }
    | .error reason => fault (.slotRefused word.text reason.message) word.line
  | some (.field index hops) =>
    let object ← receiver env hops word
    match fieldAt? (← get) object index with
    | some _ => setField object index value
    | none => noMember object word
  | some (.method ..) => fault (.methodAssignment word.text) word.line

/-- Binds a definition in its slot, or by name if it has none. -/
def bind (env : Env) (slot : Option Nat) (name : Text) (value : Value) (line : Int) : Run Unit := do
  match slot with
  | none =>
    let target := (← get).frames.assignee? name env
    modify fun m => { m with frames := m.frames.bindIn target name value }
  | some index =>
    match (← get).frames.slotOwner env 0 index with
    | .ok f => modify fun m => { m with frames := m.frames.write f index value }
    | .error reason => fault (.bindingRefused name reason.message) line

end StoneLang.Run
