/-
  Scopes at compile time.

  A scope is a chain of tables, the innermost first.  Function bodies and the global level have a table
  of slots.  A class adds three: its methods, its fields, and the place of the receiver.  Tables of
  members are no scopes at run time, so a search passes through them without counting a hop; instead, a
  member found there remembers how many hops away the receiver is.

  `Scope.get?` finds a name from the inside out.  `Scope.put` finds the place that an assignment writes
  to, and declares the name where no table in sight has it.  Only the global level itself assigns to
  global names: from inside, an assignment looks past them and makes the name local.
-/
import StoneLang.Tree.Notes

namespace StoneLang

/-- The role of a table. -/
inductive TableKind where
  | globals
  /-- The parameters and variables of a function or closure. -/
  | locals
  | fields
  | methods
  /-- The scope of field initializers, which holds the receiver alone. -/
  | receiver
deriving DecidableEq, Repr

/-- Names with their slots: the slot of a name is its place in the list. -/
structure Table where
  kind : TableKind
  names : List Text
deriving DecidableEq, Repr

/-- The name of the receiver. -/
def thisName : Text := text "this"

namespace Table

def find? (t : Table) (name : Text) : Option Nat := t.names.idxOf? name

/-- Declares a name: its slot, the old one if it has one, and the table with it. -/
def add (t : Table) (name : Text) : Nat × Table :=
  match t.find? name with
  | some slot => (slot, t)
  | none => (t.names.length, { t with names := t.names ++ [name] })

def addAll (t : Table) (names : List Text) : Table := names.foldl (fun t name => (t.add name).2) t

/-- The number of slots. -/
def size (t : Table) : Nat := t.names.length

def isMembers (t : Table) : Bool := t.kind == .fields || t.kind == .methods

/-- The location of slot `slot` as seen from the table itself. -/
def locate (t : Table) (slot : Nat) : Location :=
  match t.kind with
  | .globals | .locals | .receiver => .lexical 0 slot
  | .fields => .field slot 0
  | .methods => .method slot 0

/-- The table of the receiver. -/
def ofReceiver : Table := ⟨.receiver, [thisName]⟩

end Table

/-- A chain of tables, the innermost first. -/
abbrev Scope := List Table

namespace Scope

/-- A location as seen from a function body, given how it looks from the scope `outer` around it.  The
receiver of a method sits in the method's own scope, so directly around the body there is no hop. -/
def fromBody (outer : Scope) : Location → Location
  | .lexical nest index => .lexical (nest + 1) index
  | .field index receiver => .field index (if startsWithMembers outer then receiver else receiver + 1)
  | .method index receiver => .method index (if startsWithMembers outer then receiver else receiver + 1)
where
  /-- The innermost table holds members. -/
  startsWithMembers : Scope → Bool
    | [] => false
    | t :: _ => t.isMembers

/-- A location as seen from a field initializer, given how it looks from the fields. -/
def fromInitializer : Location → Location
  | .lexical nest index => .lexical (nest + 1) index
  | member => member

/-- The location of a name, from the inside out; global names count only if `globalsToo`. -/
@[grind =] def lookup (globalsToo : Bool) (name : Text) : Scope → Option Location
  | [] => none
  | t :: outer =>
    match t.kind with
    | .globals => if globalsToo then (t.find? name).map t.locate else none
    | .locals =>
      match t.find? name with
      | some slot => some (t.locate slot)
      | none => (lookup globalsToo name outer).map (fromBody outer)
    | .fields | .methods =>
      match t.find? name with
      | some slot => some (t.locate slot)
      | none => lookup globalsToo name outer
    | .receiver =>
      match t.find? name with
      | some slot => some (t.locate slot)
      | none => (lookup globalsToo name outer).map fromInitializer

/-- The location of a name that is read. -/
def get? (s : Scope) (name : Text) : Option Location := lookup true name s

def declare (t : Table) (outer : Scope) (name : Text) : Location × Scope :=
  let (slot, t) := t.add name
  (t.locate slot, t :: outer)

/-- The location that an assignment to a name writes, and the scope with the name declared. -/
@[grind =] def put (name : Text) : Scope → Location × Scope
  | [] => (.lexical 0 0, [])
  | t :: outer =>
    match t.kind with
    | .globals => declare t outer name
    | .locals | .fields | .methods =>
      match lookup false name (t :: outer) with
      | some location => (location, t :: outer)
      | none => declare t outer name
    | .receiver =>
      match t.find? name with
      | some slot => (t.locate slot, t :: outer)
      | none =>
        let (location, outer) := put name outer
        (location, t :: outer)

/-- The names of the outermost table. -/
def outermostNames (s : Scope) : List Text :=
  match s.getLast? with
  | some t => t.names
  | none => []

end Scope

/-! ## Scopes that share tables

  Several scopes may have the same scope around them.  A `ScopeForest` keeps each table once, with the
  number of the table around it, so that a declaration is seen from every scope inside. -/

/-- Tables, each with the number of the one around it, which is smaller than its own. -/
structure ScopeForest where
  tables : Array (Table × Option Nat)

namespace ScopeForest

def empty : ScopeForest := ⟨#[]⟩

def plant (f : ScopeForest) (t : Table) (outer : Option Nat) : Nat × ScopeForest :=
  (f.tables.size, ⟨f.tables.push (t, outer)⟩)

/-- The numbers of the tables of a scope, at most `bound` of them, the innermost first. -/
def chainWithin (f : ScopeForest) : Nat → Nat → List Nat
  | 0, _ => []
  | bound + 1, i =>
    match f.tables[i]? with
    | some (_, some outer) => i :: f.chainWithin bound outer
    | some (_, none) => [i]
    | none => []

/-- The numbers of the tables of a scope, the innermost first. -/
def chain (f : ScopeForest) (i : Nat) : List Nat := f.chainWithin f.tables.size i

/-- The scope that starts with a table. -/
def scope (f : ScopeForest) (i : Nat) : Scope :=
  (f.chain i).filterMap fun j => (f.tables[j]?).map Prod.fst

def replant (f : ScopeForest) (numbers : List Nat) (tables : List Table) : ScopeForest :=
  (numbers.zip tables).foldl
    (fun f (i, t) => ⟨f.tables.modify i fun (_, outer) => (t, outer)⟩) f

def table? (f : ScopeForest) (i : Nat) : Option Table := (f.tables[i]?).map Prod.fst

def add (f : ScopeForest) (i : Nat) (name : Text) : Option Nat × ScopeForest :=
  match f.table? i with
  | none => (none, f)
  | some t =>
    let (slot, t) := t.add name
    (some slot, f.replant [i] [t])

/-- The location of a name that is read in a scope. -/
def get? (f : ScopeForest) (i : Nat) (name : Text) : Option Location := (f.scope i).get? name

/-- The location of a name that is assigned in a scope, and the forest with the name declared. -/
def put (f : ScopeForest) (i : Nat) (name : Text) : Location × ScopeForest :=
  let (location, tables) := (f.scope i).put name
  (location, f.replant (f.chain i) tables)

end ScopeForest

end StoneLang
