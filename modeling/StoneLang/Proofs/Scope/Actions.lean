/-
  The walk that places names, over the actions that it takes on its scope.

  `ScopeActions ρ` lists what the walk asks of a state of type `ρ`: to place a name that is read or
  assigned, to declare a definition, to enter and leave the table of a function.  `visitWithin` is the
  walk with these actions left open.  With the resolver's own actions it is the resolver
  (`ScopeActions.visitWithin_resolver`); with others it is the same walk over a state that knows more,
  for instance one that remembers in which table each name was found.
-/
import StoneLang.Proofs.Result
import StoneLang.Proofs.Scope.Walk

namespace StoneLang

/-- What the walk asks of its scope. -/
structure ScopeActions (ρ : Type) where
  /-- Places a name that is read. -/
  read : Site → Word → EStateM Failure ρ Unit
  /-- Places a name that is assigned, and declares it if it is new. -/
  assign : Site → Word → EStateM Failure ρ Unit
  /-- Declares the name of a definition and notes its slot. -/
  declare : Site → Label → EStateM Failure ρ Unit
  /-- Enters the table of a function, which holds some names and then its parameters. -/
  enterFunction : Site → List Text → List Label → EStateM Failure ρ Unit
  /-- Leaves the table of a function and notes its size. -/
  leaveFunction : Site → EStateM Failure ρ Unit

namespace ScopeActions

section
variable {ρ : Type} (A : ScopeActions ρ) (visit : Node → EStateM Failure ρ Unit)

def visitAll : List Node → EStateM Failure ρ Unit
  | [] => return ()
  | node :: rest => do
    visit node
    visitAll rest

def visitFunction (site : Site) (first : List Text) (params : List Label) (body : List Node) :
    EStateM Failure ρ Unit := do
  A.enterFunction site first params
  visit (.block body)
  A.leaveFunction site

/-- Places the names of a node, `visit` doing so for the nodes inside. -/
def visitNode : Node → EStateM Failure ρ Unit
  | .name site word => A.read site word
  | .binary left operator right => do
    if operator.text = text "=" then
      visit right
      match left with
      | .name site word => A.assign site word
      | _ => visit left
    else
      visit left
      visit operator.toNode
      visit right
  | .definition site title params body => do
    A.declare site title
    visitFunction A visit site [] params body
  | .closure site params body => visitFunction A visit site [] params body
  | .classDefinition site title _ _ => A.declare site title
  | .parameters _ | .suffix (.member ..) => return ()
  | node => visitAll visit node.children

end

def visitWithin {ρ : Type} (A : ScopeActions ρ) (settings : ResolveSettings) :
    Nat → Node → EStateM Failure ρ Unit
  | 0, node => throw (.atLine (.tooDeep (text "resolver") settings.maxDepth) node.line)
  | levels + 1, node => visitNode A (visitWithin A settings levels) node

theorem visitNode_row (A : ScopeActions ρ) (visit : Node → EStateM Failure ρ Unit)
    (h : node.isRow) : visitNode A visit node = visitAll visit node.children := by
  unfold visitNode
  split <;> first | rfl | simp [Node.isRow] at h

/-! ## The resolver's own actions -/

open Resolve

def resolver (settings : ResolveSettings) : ScopeActions Resolving where
  read site word := do
    match ← Resolve.get? word.text with
    | some location => place site location
    | none =>
      unplace site
      note settings
        (Record.debug "unresolved name" [("name", .text word.text), ("line", .number word.line)])
  assign site word := do
    let location ← Resolve.put word.text
    place site location
  declare site title := do
    let location ← Resolve.put title.text
    noteSlot site location.index
  enterFunction _ first params := enter (Table.addAll ⟨.locals, first⟩ (params.map Label.text))
  leaveFunction site := do
    let size ← leave
    noteSize site size

section
variable (settings : ResolveSettings) (visit : Node → Resolve Unit)

theorem visitAll_resolver (nodes : List Node) : visitAll visit nodes = StoneLang.visitAll visit nodes := by
  induction nodes with
  | nil => rfl
  | cons node rest ih => simp only [visitAll, StoneLang.visitAll, ih]

/-- Visiting a function and noting its size are one step here and two in the resolver. -/
theorem visitFunction_resolver (site : Site) (first : List Text) (params : List Label)
    (body : List Node) :
    visitFunction (resolver settings) visit site first params body = (do
      let size ← StoneLang.visitFunction visit first params body
      noteSize site size) := by
  simp only [visitFunction, StoneLang.visitFunction, resolver, bind_assoc]

theorem visitNode_resolver (node : Node) :
    visitNode (resolver settings) visit node = StoneLang.visitNode settings visit node := by
  unfold visitNode StoneLang.visitNode
  split <;> (try simp only [visitFunction_resolver, visitAll_resolver]) <;> rfl

end

theorem visitWithin_resolver (settings : ResolveSettings) (levels : Nat) (node : Node) :
    visitWithin (resolver settings) settings levels node = StoneLang.visitWithin settings levels node := by
  induction levels generalizing node with
  | zero => rfl
  | succ levels ih =>
    have hrec : visitWithin (resolver settings) settings levels = StoneLang.visitWithin settings levels := by
      funext node
      exact ih node
    simp only [visitWithin, StoneLang.visitWithin, hrec, visitNode_resolver]

/-! ## What the resolver's actions do -/

section
variable (settings : ResolveSettings) (site : Site) (s : Resolving)

theorem resolver_read (word : Word) :
    ∃ records, (resolver settings).read site word s = .ok () { s with
      notes := { s.notes with places := s.notes.places.put site (s.scope.get? word.text) }, records } := by
  simp only [resolver, Resolve.get?, bind_assoc, pure_bind, get_bind_apply]
  cases hplace : s.scope.get? word.text with
  | some location => exact ⟨s.records, rfl⟩
  | none =>
    cases hwatched : settings.watched with
    | true =>
      refine ⟨s.records.push (Record.debug "unresolved name"
        [("name", .text word.text), ("line", .number word.line)]), ?_⟩
      simp only [Resolve.note, hwatched]
      rfl
    | false =>
      refine ⟨s.records, ?_⟩
      simp only [Resolve.note, hwatched]
      rfl

theorem resolver_assign (word : Word) :
    (resolver settings).assign site word s = .ok () { s with
      scope := (s.scope.put word.text).2
      notes := { s.notes with places := s.notes.places.set site (s.scope.put word.text).1 } } :=
  rfl

theorem resolver_declare (title : Label) :
    (resolver settings).declare site title s = .ok () { s with
      scope := (s.scope.put title.text).2
      notes := { s.notes with slots := s.notes.slots.set site (s.scope.put title.text).1.index } } :=
  rfl

theorem resolver_enter (first : List Text) (params : List Label) :
    (resolver settings).enterFunction site first params s = .ok () { s with
      scope := Table.addAll ⟨.locals, first⟩ (params.map Label.text) :: s.scope } :=
  rfl

theorem resolver_leave (h : s.scope = t :: outer) :
    (resolver settings).leaveFunction site s = .ok () { s with
      scope := outer
      notes := { s.notes with sizes := s.notes.sizes.set site t.size } } := by
  obtain ⟨scope, notes, records⟩ := s
  cases h
  rfl

end

end ScopeActions

end StoneLang
