/-
  Placing names.

  Before a unit is evaluated, every name in it is placed: `resolve` walks the tree and notes where each
  name lives, in which slot each definition is bound, and how many slots each function needs.  A name
  that is in no table keeps no location and is looked up by name when it is evaluated.

  The right side of an assignment is placed before its target, because a name that is declared there
  must not be in sight of its own value.  The members of a class wait until the class is evaluated: only
  then is its superclass known.  `resolveClass` then lays out the members and places the names in the
  class body.

  The walk is bounded in depth, and every node counts, leaves included.
-/
import StoneLang.Diagnostic
import StoneLang.Journal.Basic
import StoneLang.Scope.Layout

namespace StoneLang

/-- The state of the walk. -/
structure Resolving where
  scope : Scope
  notes : Notes
  records : Array Record

/-- How the walk is run. -/
structure ResolveSettings where
  maxDepth : Nat
  /-- What the walk meets is noted in the journal. -/
  watched : Bool
deriving DecidableEq, Repr

/-- Walking with failure; the state is kept when it fails. -/
abbrev Resolve := EStateM Failure Resolving

namespace Resolve

def note (settings : ResolveSettings) (record : Record) : Resolve Unit :=
  modify fun s => if settings.watched then { s with records := s.records.push record } else s

/-- The location of a name that is read. -/
def get? (name : Text) : Resolve (Option Location) := do
  let s ← get
  return s.scope.get? name

/-- The location of a name that is assigned. -/
def put (name : Text) : Resolve Location :=
  modifyGet fun s =>
    let (location, scope) := s.scope.put name
    (location, { s with scope })

def annotate (f : Notes → Notes) : Resolve Unit := modify fun s => { s with notes := f s.notes }

def place (site : Site) (location : Location) : Resolve Unit :=
  annotate fun n => { n with places := n.places.set site location }

def unplace (site : Site) : Resolve Unit :=
  annotate fun n => { n with places := n.places.clear site }

def noteSlot (site : Site) (slot : Nat) : Resolve Unit :=
  annotate fun n => { n with slots := n.slots.set site slot }

def noteSize (site : Site) (size : Nat) : Resolve Unit :=
  annotate fun n => { n with sizes := n.sizes.set site size }

def enter (t : Table) : Resolve Unit := modify fun s => { s with scope := t :: s.scope }

def leave : Resolve Nat :=
  modifyGet fun s =>
    match s.scope with
    | [] => (0, s)
    | t :: outer => (t.size, { s with scope := outer })

end Resolve

open Resolve

def visitAll (visit : Node → Resolve Unit) : List Node → Resolve Unit
  | [] => return ()
  | node :: rest => do
    visit node
    visitAll visit rest

/-- Places the names of a function in a table that holds its parameters after `first`, and gives the
number of slots that it needs. -/
def visitFunction (visit : Node → Resolve Unit) (first : List Text) (params : List Label)
    (body : List Node) : Resolve Nat := do
  enter (Table.addAll ⟨.locals, first⟩ (params.map Label.text))
  visit (.block body)
  leave

/-- Places the names of a node, `visit` doing so for the nodes inside. -/
def visitNode (settings : ResolveSettings) (visit : Node → Resolve Unit) : Node → Resolve Unit
  | .name site word => do
    match ← Resolve.get? word.text with
    | some location => place site location
    | none =>
      unplace site
      note settings
        (Record.debug "unresolved name" [("name", .text word.text), ("line", .number word.line)])
  | .binary left operator right => do
    if operator.text = text "=" then
      visit right
      match left with
      | .name site word =>
        let location ← Resolve.put word.text
        place site location
      | _ => visit left
    else
      visit left
      visit operator.toNode
      visit right
  | .definition site title params body => do
    let location ← Resolve.put title.text
    noteSlot site location.index
    let size ← visitFunction visit [] params body
    noteSize site size
  | .closure site params body => do
    let size ← visitFunction visit [] params body
    noteSize site size
  | .classDefinition site title _ _ => do
    let location ← Resolve.put title.text
    noteSlot site location.index
  | .parameters _ | .suffix (.member ..) => return ()
  | node => visitAll visit node.children

def visitWithin (settings : ResolveSettings) : Nat → Node → Resolve Unit
  | 0, node => throw (.atLine (.tooDeep (text "resolver") settings.maxDepth) node.line)
  | levels + 1, node => visitNode settings (visitWithin settings levels) node

def visit (settings : ResolveSettings) (node : Node) : Resolve Unit :=
  visitWithin settings settings.maxDepth node

/-! ## Units -/

/-- Places the names of a unit against the global names, which grow by what the unit declares. -/
def resolve (settings : ResolveSettings) (unit : Node) (globals : List Text) (notes : Notes) :
    EStateM.Result Failure Resolving Unit :=
  visit settings unit ⟨[⟨.globals, globals⟩], notes, #[]⟩

/-! ## Classes -/

/-- Gives every method its slot, in the order of the class body. -/
def layOutMethods : List Node → Layout → Resolve Layout
  | [], layout => return layout
  | member :: rest, layout =>
    match Definition.ofNode? member with
    | none => layOutMethods rest layout
    | some d => do
      let (slot, layout) := layout.addMethod d
      noteSlot d.site slot
      layOutMethods rest layout

def visitInitializers (settings : ResolveSettings) : List Node → Resolve Unit
  | [] => return ()
  | member :: rest => do
    if (Definition.ofNode? member).isNone then visit settings member
    visitInitializers settings rest

/-- Places the names of the methods, each in a scope that starts with the receiver. -/
def visitMethods (settings : ResolveSettings) : List Node → Resolve Unit
  | [] => return ()
  | member :: rest => do
    if let some d := Definition.ofNode? member then
      let size ← visitFunction (visit settings) [thisName] d.parameters d.body
      noteSize d.site size
    visitMethods settings rest

/-- Lays out a class on top of `base`, the layout of its superclass, and places the names in its body.
Around the class are the global names. -/
def layOutClass (settings : ResolveSettings) (title : Text) (members : List Node) (base : Layout) :
    Resolve Layout := do
  let layout ← layOutMethods members base
  enter ⟨.methods, layout.methods⟩
  enter ⟨.fields, layout.fields⟩
  enter .ofReceiver
  visitInitializers settings members
  let _ ← leave
  visitMethods settings members
  let s ← get
  let fields := match s.scope with
    | t :: _ => t.names
    | [] => []
  note settings (Record.debug "resolved class"
    [("class", .text title), ("fields", .number fields.length),
      ("methods", .number layout.methods.length)])
  return { layout with fields }

/-- Lays out a class and places the names in its body, against the global names. -/
def resolveClass (settings : ResolveSettings) (title : Text) (members : List Node)
    (base : Option Layout) (globals : List Text) (notes : Notes) :
    EStateM.Result Failure Resolving Layout :=
  layOutClass settings title members (base.getD .empty) ⟨[⟨.globals, globals⟩], notes, #[]⟩

end StoneLang
