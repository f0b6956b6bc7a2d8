/-
  A walk that remembers its tables.

  `ScopeActions.tracked` are the actions of the resolver on a state that remembers more: for whom each
  table of the scope is made, and in whose table each name has been placed.  The resolver itself is not
  changed, it runs inside.

  `tracking` takes the two walks through a tree in step.  Every name that is placed is found, where its
  location points to, in the table of its home (`Nest.Noted`).  Two things depend on how the code names
  its parameters and on what it does with `this`, and an `Aim` says which of them are asked for.
-/
import StoneLang.Proofs.Addresses.Nests
import StoneLang.Proofs.Grammar.Units
import StoneLang.Proofs.Scope.Members

namespace StoneLang

/-- The state of a walk, with what is remembered about its tables. -/
structure Tracking where
  resolving : Resolving
  /-- For whom the tables of the scope are made. -/
  owners : List Owner
  /-- In whose table each name has been placed. -/
  homes : SiteMap Owner

/-- What the resolver does, and what is remembered about it. -/
def ScopeActions.tracked (settings : ResolveSettings) : ScopeActions Tracking where
  read site word s := onState
    (fun after => { s with
      resolving := after
      homes := s.homes.put site (Scope.home? true word.text s.resolving.scope s.owners) })
    ((resolver settings).read site word s.resolving)
  assign site word s := onState
    (fun after => { s with
      resolving := after
      homes := s.homes.put site
        (Scope.home? s.resolving.scope.isGlobal word.text after.scope s.owners) })
    ((resolver settings).assign site word s.resolving)
  declare site title s := onState (fun after => { s with resolving := after })
    ((resolver settings).declare site title s.resolving)
  enterFunction site first params s := onState
    (fun after => { s with resolving := after, owners := .function site :: s.owners })
    ((resolver settings).enterFunction site first params s.resolving)
  leaveFunction site s := onState
    (fun after => { s with resolving := after, owners := s.owners.tail })
    ((resolver settings).leaveFunction site s.resolving)

/-! ## What is asked of code -/

/-- What is to be shown of calls, and so what is asked of the code. -/
structure Aim where
  /-- Every call has room for its arguments: parameters are all different. -/
  room : Bool
  /-- Every method finds its receiver: class bodies leave `this` alone. -/
  receiver : Bool
  /-- A read at the second site is to find what an assignment at the first has written. -/
  follows : Site → Site → Prop := fun _ _ => False

namespace Aim

variable (aim : Aim)

def AsksUse (inClass : Bool) : Use → Prop
  | .assign _ word => aim.receiver = true → inClass = true → word.text ≠ thisName
  | _ => True

/-- The parameters of a function are all different; it stands in a class body if the code around it
does. -/
def AsksFunction (inClass : Bool) (_ : Site) (params : List Label) (inside : Bool) : Prop :=
  (aim.room = true → (params.map Label.text).Nodup) ∧ inside = inClass

def AsksPlain (inClass : Bool) (u : Use) : Prop := u.isPlain ∧ aim.AsksUse inClass u

def AsksMember (member : Node) : Prop :=
  match Definition.ofNode? member with
  | none => member.Every aim.AsksUse aim.AsksFunction true
  | some d => (aim.room = true → (thisName :: d.parameterNames).Nodup) ∧
      AllEvery aim.AsksUse aim.AsksFunction true d.body

def Asks : Node → Prop
  | .definition _ _ params body => (aim.room = true → (params.map Label.text).Nodup) ∧
      AllEvery aim.AsksUse aim.AsksFunction false body
  | .classDefinition _ _ _ members => ∀ member ∈ members, aim.AsksMember member
  | unit => unit.Every aim.AsksUse aim.AsksFunction false

/-- Nothing is aimed at, and nothing is asked. -/
def none : Aim := { room := false, receiver := false }

/-- Everything is aimed at. -/
def all : Aim := { room := true, receiver := true }

def roomy : Aim := { room := true, receiver := false }

def received : Aim := { room := false, receiver := true }

theorem every_none (inClass : Bool) (node : Node) : node.Every none.AsksUse none.AsksFunction inClass :=
  Node.every_of_forall (fun _ u => by cases u <;> first | trivial | exact nofun)
    (fun c _ _ => ⟨c, nofun, rfl⟩) inClass node

theorem asks_none (unit : Node) : none.Asks unit := by
  have hall : ∀ inClass nodes, AllEvery none.AsksUse none.AsksFunction inClass nodes :=
    fun inClass nodes => (allEvery_iff _ _).mpr fun node _ => every_none inClass node
  cases unit with
  | definition site title params body => exact ⟨nofun, hall false body⟩
  | classDefinition site title parent members =>
    intro member _
    unfold AsksMember
    split
    · exact every_none true member
    · exact ⟨nofun, hall true _⟩
  | _ => exact every_none false _

variable {aim}

theorem every_of_asks (hplain : unit.Plain) (h : aim.Asks unit) : unit.Every aim.AsksUse aim.AsksFunction false := by
  cases unit with
  | definition | classDefinition => simp [Node.Plain, Node.Every, Use.isPlain] at hplain
  | _ => exact h

theorem every_plain {node : Node} (hplain : node.Plain) (h : node.Every aim.AsksUse aim.AsksFunction inClass) :
    node.Every aim.AsksPlain aim.AsksFunction inClass :=
  Node.Every.merge (R := fun _ c c' => c' = c) (S := fun _ => True)
    (by rintro _ c _ u rfl _ hu hasks; exact ⟨hu, hasks⟩)
    (by rintro _ c _ site params _ inside rfl _ _ hinside; exact ⟨inside, hinside, rfl⟩)
    node () inClass inClass rfl (fun _ _ => trivial) hplain h

end Aim

/-! ## What is noted of a name -/

/-- What is noted at a site: a location, in whose table it is, and a number of slots. -/
structure SiteNote where
  place : Option Location
  home : Option Owner
  size : Option Nat

namespace Nest

def IsInside (n : Nest) : Prop := n.inner ≠ [] ∨ n.members.isSome

/-- The names of a nest as a walk goes on: inside, it declares no global. -/
def Widens (n n' : Nest) : Prop := n.Grows n' ∧ (n.IsInside → n'.globals = n.globals)

variable {n n' : Nest}

theorem Grows.isInside (h : n.Grows n') : n'.IsInside ↔ n.IsInside := by
  have hlength := h.length
  unfold IsInside
  rw [h.isSome_members, ← List.length_pos_iff, ← List.length_pos_iff, hlength]

theorem Widens.refl (n : Nest) : n.Widens n := ⟨.refl n, fun _ => rfl⟩

theorem Widens.trans {n'' : Nest} (h : n.Widens n') (h' : n'.Widens n'') : n.Widens n'' :=
  ⟨h.1.trans h'.1, fun hinside => (h'.2 (h.1.isInside.mpr hinside)).trans (h.2 hinside)⟩

variable (aim : Aim)

/-- A use has been placed: its name is found where its location points to.  A name that is assigned inside
is not found among the globals. -/
def Noted (n : Nest) (note : SiteNote) : Use → Prop
  | .read _ word => ∀ location, note.place = some location →
      ∃ home, note.home = some home ∧ n.Found word.text home location
  | .assign _ word => ∃ location home, note.place = some location ∧ note.home = some home ∧
      n.Found word.text home location ∧
      (n.inner ≠ [] → ∀ nest index, location = .lexical nest index → nest < n.inner.length) ∧
      (aim.receiver = true → n.members.isSome → word.text ≠ thisName)
  | .definition .. | .classDefinition .. => True

theorem Noted.later {aim : Aim} (hle : n.Grows n') {note : SiteNote} {u : Use} (h : n.Noted aim note u) :
    n'.Noted aim note u := by
  cases u with
  | read site word =>
    intro location hplace
    obtain ⟨home, hhome, hfound⟩ := h location hplace
    exact ⟨home, hhome, hfound.later hle⟩
  | assign site word =>
    obtain ⟨location, home, hplace, hhome, hfound, hinside, hthis⟩ := h
    refine ⟨location, home, hplace, hhome, hfound.later hle, ?_, by rwa [hle.isSome_members]⟩
    rw [← List.length_pos_iff, hle.length, List.length_pos_iff]
    exact hinside
  | _ => trivial

/-- A function has been given its table, in which its parameters have room. -/
def Entered (n : Nest) (site : Site) (params : List Label) (p : Nest) : Prop :=
  ∃ t, p = n.push (.function site) t ∧ t.kind = .locals ∧ (aim.room = true → params.length ≤ t.size)

end Nest

/-! ## The walk in step with the resolver -/

namespace ScopeActions

variable (settings : ResolveSettings) (site : Site) (s : Tracking)

theorem tracked_read (word : Word) : ∃ records,
    (tracked settings).read site word s = .ok () { s with
      resolving := { s.resolving with
        notes := { s.resolving.notes with
          places := s.resolving.notes.places.put site (s.resolving.scope.get? word.text) }
        records }
      homes := s.homes.put site (Scope.home? true word.text s.resolving.scope s.owners) } ∧
    (resolver settings).read site word s.resolving = .ok () { s.resolving with
      notes := { s.resolving.notes with
        places := s.resolving.notes.places.put site (s.resolving.scope.get? word.text) }
      records } := by
  obtain ⟨records, hread⟩ := resolver_read settings site s.resolving word
  exact ⟨records, congrArg (onState _) hread, hread⟩

theorem tracked_assign (word : Word) :
    (tracked settings).assign site word s = .ok () { s with
      resolving := { s.resolving with
        scope := (s.resolving.scope.put word.text).2
        notes := { s.resolving.notes with
          places := s.resolving.notes.places.set site (s.resolving.scope.put word.text).1 } }
      homes := s.homes.put site
        (Scope.home? s.resolving.scope.isGlobal word.text (s.resolving.scope.put word.text).2 s.owners) } :=
  rfl

theorem tracked_enter (first : List Text) (params : List Label) :
    (tracked settings).enterFunction site first params s = .ok () { s with
      resolving := { s.resolving with
        scope := Table.addAll ⟨.locals, first⟩ (params.map Label.text) :: s.resolving.scope }
      owners := .function site :: s.owners } :=
  rfl

theorem tracked_leave {t : Table} {outer : Scope} (h : s.resolving.scope = t :: outer) :
    (tracked settings).leaveFunction site s = .ok () { s with
      resolving := { s.resolving with
        scope := outer
        notes := { s.resolving.notes with sizes := s.resolving.notes.sizes.set site t.size } }
      owners := s.owners.tail } := by
  unfold tracked
  dsimp only
  rw [resolver_leave settings site s.resolving h]
  rfl

end ScopeActions

open ScopeActions in
def tracking (settings : ResolveSettings) (aim : Aim) : Lockstep (tracked settings) (resolver settings) where
  κ := Nest
  le := Nest.Widens
  refl := .refl
  trans := .trans
  related n s t := s.resolving = t ∧ t.scope = n.scope ∧ s.owners = n.owners
  broken n s t := s.resolving = t ∧ n.globals <+: t.scope.outermostNames
  broken_of_related {n s t} h := by
    refine ⟨h.1, ?_⟩
    rw [h.2.1]
    simp [Scope.outermostNames, Nest.scope]
  broken_earlier hle h := ⟨h.1, hle.1.globals.trans h.2⟩
  Note := SiteNote
  note site s t := ⟨t.notes.places.get? site, s.homes.get? site, t.notes.sizes.get? site⟩
  ι := Bool
  demand := aim.AsksPlain
  inside := aim.AsksFunction
  suits inClass n := n.Ready ∧ n.members.isSome = inClass
  suits_later hle h := ⟨h.1.later hle.1, hle.1.isSome_members.trans h.2⟩
  learned note _ l u := u.isPlain ∧ l.Noted aim note u
  learned_wider _ hl h := ⟨h.1, h.2.later hl.1⟩
  learnedInner note _ l site params p q := p.Grows q ∧ ∃ (outer : Nest) (t : Table), outer.Grows l ∧
    q = outer.push (.function site) t ∧ t.kind = .locals ∧ (aim.room = true → params.length ≤ t.size) ∧
    note.size = some t.size
  learnedInner_wider _ hl h := by
    obtain ⟨hpq, outer, t, houter, rest⟩ := h
    exact ⟨hpq, outer, t, houter.trans hl.1, rest⟩
  entered n site params p := n.Entered aim site params p
  broken_outside h hbroken := by
    obtain ⟨t, rfl, -⟩ := h
    exact hbroken
  no_definition _ _ _ _ _ := by simp [Aim.AsksPlain, Use.isPlain]
  no_class _ _ _ _ _ := by simp [Aim.AsksPlain, Use.isPlain]
  read {j n s t} site word h hsuits := by
    obtain ⟨rfl, hscope, howners⟩ := h
    obtain ⟨records, htracked, hresolver⟩ := tracked_read settings site s word
    refine ⟨n, _, _, htracked, hresolver, .refl n, ⟨rfl, hscope, howners⟩, ?_, rfl, ?_⟩
    · intro other hne
      simp only [SiteMap.get?_put, if_neg hne]
    · intro location hplace
      simp only [SiteMap.get?_put, if_true, hscope, howners] at hplace ⊢
      exact Nest.found_of_get? hsuits.1 hplace
  assign {j n s t} site word h hsuits hdemand := by
    obtain ⟨rfl, hscope, howners⟩ := h
    obtain ⟨n', home, hgrows, hput, hhome, hfound, hinside⟩ := Nest.found_of_put hsuits.1 word.text
    have hwidens : n.Widens n' := by
      refine ⟨hgrows, fun hin => ?_⟩
      -- code in a class stands inside a method or a field initializer
      rcases hin with hin | hin
      · exact (hinside hin).1
      · refine (hinside fun hnone => ?_).1
        have hready := hsuits.1
        unfold Nest.Ready at hready
        rw [hnone] at hready
        cases hready with
        | outside hmembers => simp [hmembers] at hin
    refine ⟨n', _, _, tracked_assign settings site s word, resolver_assign settings site s.resolving word,
      hwidens, ⟨rfl, ?_, ?_⟩, ?_, rfl, ?_⟩
    · show (s.resolving.scope.put word.text).2 = n'.scope
      rw [hscope, hput]
    · simp only [howners, Nest.owners, hgrows.innerOwners]
    · intro other hne
      simp only [SiteMap.get?_put, SiteMap.get?_set, if_neg hne]
    · rw [hscope]
      refine ⟨_, home, by simp only [SiteMap.get?_set, if_true], ?_, hfound, ?_, ?_⟩
      · simp only [SiteMap.get?_put, if_true]
        rw [hput, howners, ← hhome, Nest.owners, Nest.owners, hgrows.innerOwners]
      · rw [← List.length_pos_iff, hgrows.length, List.length_pos_iff]
        exact fun hin => (hinside hin).2
      · intro haim hclass
        rw [hgrows.isSome_members, hsuits.2] at hclass
        exact hdemand.2 haim hclass
  enter {j j' n s t} site params h hsuits hinside := by
    obtain ⟨rfl, hscope, howners⟩ := h
    obtain ⟨hnodup, rfl⟩ := hinside
    have hkind := (Table.addAll_grows (t := ⟨.locals, []⟩) rfl (params.map Label.text)).kind
    refine ⟨n.push (.function site) (Table.addAll ⟨.locals, []⟩ (params.map Label.text)), _, _,
      tracked_enter settings site s [] params, resolver_enter settings site s.resolving [] params,
      ⟨_, rfl, hkind, fun haim => ?_⟩, ⟨rfl, congrArg (_ :: ·) hscope, congrArg (_ :: ·) howners⟩,
      ⟨hsuits.1.push _ hkind, hsuits.2⟩, fun _ => rfl⟩
    rw [Table.addAll_of_nodup _ _ (by simpa using hnodup haim)]
    simp [Table.size]
  leave {n p q s t} site params hentered hle h := by
    obtain ⟨rfl, hscope, howners⟩ := h
    obtain ⟨table, rfl, hkind, hparams⟩ := hentered
    obtain ⟨inner, members, globals⟩ := q
    obtain ⟨hgrows, hfixed⟩ := hle
    have hinner := hgrows.inner
    cases hinner with
    | @cons _ head _ rest hhead hrest =>
      obtain ⟨owner, table'⟩ := head
      obtain ⟨rfl, htable⟩ := hhead
      have hglobals : globals = n.globals := hfixed (.inl (List.cons_ne_nil _ _))
      refine ⟨⟨rest, members, globals⟩, _, _, tracked_leave settings site s hscope,
        resolver_leave settings site s.resolving hscope, ⟨⟨hrest, hgrows.members, hgrows.globals⟩, fun _ => hglobals⟩,
        ⟨rfl, rfl, congrArg List.tail howners⟩, ?_, hgrows, ⟨rest, members, globals⟩, table', .refl _, rfl,
        htable.kind.trans hkind, fun haim => Nat.le_trans (hparams haim) htable.names.length_le, ?_⟩
      · intro other hne
        simp only [SiteMap.get?_set, if_neg hne]
      · simp only [SiteMap.get?_set, if_true]

end StoneLang
