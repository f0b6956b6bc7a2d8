/-
  Tables and what they are made for.

  A table of names belongs to something: the globals, a function, the field initializers of a class, or
  the fields or methods of one.  `Scope.home?` finds out in whose table a name is found.  A `Nest` is a
  scope with the owners of its tables: those that are scopes at run time, the members of the class around
  them, and the globals.

  `Nest.Found` says where a location points to in a nest: a lexical one to a slot of one of the tables, a
  member to the class, with the receiver in the outermost of the tables inside it.  Whatever a search finds
  is found there, in the table that `Scope.home?` names (`Nest.found_of_get?`, `Nest.found_of_put`).
-/
import StoneLang.Proofs.Scope.Tables

namespace StoneLang

/-- What a table of names is made for. -/
inductive Owner where
  | natives
  | globals
  /-- The function, closure or method at a site. -/
  | function (site : Site)
  /-- The field initializers of the class at a site. -/
  | initializers (site : Site)
  | fields (site : Site)
  | methods (site : Site)
deriving DecidableEq, Repr

/-- The owner of the first table that has a name, from the inside out; global names count only if
`globalsToo`. -/
def Scope.home? (globalsToo : Bool) (name : Text) : Scope → List Owner → Option Owner
  | t :: outer, owner :: owners =>
    if t.kind = .globals ∧ globalsToo = false then none
    else if name ∈ t.names then some owner
    else home? globalsToo name outer owners
  | _, _ => none

/-- The members of the class at a site. -/
structure Members where
  site : Site
  fields : List Text
  methods : List Text

/-- A scope with the owners of its tables. -/
structure Nest where
  /-- The tables that are scopes at run time, the innermost first. -/
  inner : List (Owner × Table)
  /-- The members of the class around them. -/
  members : Option Members
  globals : List Text

namespace Members

def tables (c : Members) : Scope := [⟨.fields, c.fields⟩, ⟨.methods, c.methods⟩]

def owners (c : Members) : List Owner := [.fields c.site, .methods c.site]

/-- The class may have more fields, after the old ones. -/
structure Grows (c c' : Members) : Prop where
  site : c'.site = c.site
  fields : c.fields <+: c'.fields
  methods : c'.methods = c.methods

theorem Grows.refl (c : Members) : c.Grows c := ⟨rfl, List.prefix_rfl, rfl⟩

theorem Grows.trans {c c' c'' : Members} (h : c.Grows c') (h' : c'.Grows c'') : c.Grows c'' :=
  ⟨h'.site.trans h.site, h.fields.trans h'.fields, h'.methods.trans h.methods⟩

end Members

namespace Nest

def tables (n : Nest) : Scope := n.inner.map Prod.snd ++ n.members.elim [] Members.tables

def innerOwners (n : Nest) : List Owner := n.inner.map Prod.fst ++ n.members.elim [] Members.owners

/-- All tables. -/
def scope (n : Nest) : Scope := n.tables ++ [⟨.globals, n.globals⟩]

def owners (n : Nest) : List Owner := n.innerOwners ++ [.globals]

def push (n : Nest) (owner : Owner) (t : Table) : Nest := { n with inner := (owner, t) :: n.inner }

/-- Where a location points to: the table with the given owner has the name in that slot. -/
def Found (n : Nest) (name : Text) (home : Owner) : Location → Prop
  | .lexical nest index =>
    (∃ t, n.inner[nest]? = some (home, t) ∧ t.names[index]? = some name) ∨
      (nest = n.inner.length ∧ home = .globals ∧ n.globals[index]? = some name)
  | .field index hops => ∃ c, n.members = some c ∧ hops + 1 = n.inner.length ∧ home = .fields c.site ∧
      c.fields[index]? = some name
  | .method index hops => ∃ c, n.members = some c ∧ hops + 1 = n.inner.length ∧ home = .methods c.site ∧
      c.methods[index]? = some name

/-! ## Growing nests -/

/-- The nest may have more names, after the old ones in their tables. -/
structure Grows (n n' : Nest) : Prop where
  inner : List.Forall₂ (fun p p' : Owner × Table => p'.1 = p.1 ∧ p.2.Grows p'.2) n.inner n'.inner
  members : Option.Rel Members.Grows n.members n'.members
  globals : n.globals <+: n'.globals

namespace Grows

variable {n n' n'' : Nest}

theorem refl (n : Nest) : n.Grows n := by
  refine ⟨List.forall₂_same.mpr fun p _ => ⟨rfl, .refl p.2⟩, ?_, List.prefix_rfl⟩
  cases n.members with
  | none => exact .none
  | some c => exact .some (.refl c)

section
variable (h : n.Grows n')

include h

theorem trans (h' : n'.Grows n'') : n.Grows n'' := by
  refine ⟨?_, ?_, h.globals.trans h'.globals⟩
  · have hfirst := h.inner
    have hsecond := h'.inner
    generalize n''.inner = inner at hsecond ⊢
    generalize n'.inner = inner' at hfirst hsecond
    generalize n.inner = inner₀ at hfirst ⊢
    induction hfirst generalizing inner with
    | nil => exact hsecond
    | cons hhead _ ih =>
      cases hsecond with
      | cons hhead' htail' =>
        exact .cons ⟨hhead'.1.trans hhead.1, hhead.2.trans hhead'.2⟩ (ih _ htail')
  · have hfirst := h.members
    have hsecond := h'.members
    generalize n''.members = c'' at hsecond ⊢
    generalize n'.members = c' at hfirst hsecond
    generalize n.members = c at hfirst ⊢
    cases hfirst with
    | none => exact hsecond
    | some hc =>
      cases hsecond with
      | some hc' => exact .some (hc.trans hc')

theorem length : n'.inner.length = n.inner.length := h.inner.length_eq.symm

theorem getElem? {i : Nat} (hi : n.inner[i]? = some (owner, t)) :
    ∃ t', n'.inner[i]? = some (owner, t') ∧ t.Grows t' := by
  have hinner := h.inner
  generalize n'.inner = inner' at hinner ⊢
  generalize n.inner = inner at hinner hi
  induction hinner generalizing i with
  | nil => simp at hi
  | @cons p p' _ _ hhead _ ih =>
    cases i with
    | zero =>
      cases hi
      obtain ⟨owner', t'⟩ := p'
      obtain ⟨rfl, hgrows⟩ := hhead
      exact ⟨t', rfl, hgrows⟩
    | succ i => exact ih hi

theorem some_members (hc : n.members = some c) : ∃ c', n'.members = some c' ∧ c.Grows c' := by
  have hrel := h.members
  rw [hc] at hrel
  generalize n'.members = res at hrel ⊢
  cases hrel with
  | some hgrows => exact ⟨_, rfl, hgrows⟩

theorem isSome_members : n'.members.isSome = n.members.isSome := by
  have hrel := h.members
  generalize n'.members = c' at hrel ⊢
  generalize n.members = c at hrel ⊢
  cases hrel <;> rfl

theorem innerOwners : n'.innerOwners = n.innerOwners := by
  have hinner : n'.inner.map Prod.fst = n.inner.map Prod.fst := by
    have hall := h.inner
    generalize n'.inner = inner' at hall ⊢
    generalize n.inner = inner at hall ⊢
    induction hall with
    | nil => rfl
    | cons hhead _ ih => rw [List.map_cons, List.map_cons, hhead.1, ih]
  have hmembers : n'.members.elim [] Members.owners = n.members.elim [] Members.owners := by
    have hrel := h.members
    generalize n'.members = c' at hrel ⊢
    generalize n.members = c at hrel ⊢
    cases hrel with
    | none => rfl
    | some hc => simp only [Option.elim_some, Members.owners, hc.site]
  rw [Nest.innerOwners, Nest.innerOwners, hinner, hmembers]

theorem push (owner : Owner) (ht : t.Grows t') : (n.push owner t).Grows (n'.push owner t') :=
  ⟨.cons ⟨rfl, ht⟩ h.inner, h.members, h.globals⟩

end

end Grows

theorem Found.later {n n' : Nest} (hle : n.Grows n')
    (h : n.Found name home location) : n'.Found name home location := by
  cases location with
  | lexical nest index =>
    rcases h with ⟨t, hat, hname⟩ | ⟨hnest, hhome, hname⟩
    · obtain ⟨t', hat', hgrows⟩ := hle.getElem? hat
      exact .inl ⟨t', hat', getElem?_of_isPrefix hgrows.names hname⟩
    · exact .inr ⟨hnest.trans hle.length.symm, hhome, getElem?_of_isPrefix hle.globals hname⟩
  | field index hops =>
    obtain ⟨c, hc, hhops, rfl, hname⟩ := h
    obtain ⟨c', hc', hgrows⟩ := hle.some_members hc
    exact ⟨c', hc', hhops.trans hle.length.symm, by rw [hgrows.site],
      getElem?_of_isPrefix hgrows.fields hname⟩
  | method index hops =>
    obtain ⟨c, hc, hhops, rfl, hname⟩ := h
    obtain ⟨c', hc', hgrows⟩ := hle.some_members hc
    exact ⟨c', hc', hhops.trans hle.length.symm, by rw [hgrows.site],
      hgrows.methods ▸ hname⟩

/-! ## Nests that code stands in -/

/-- The tables of a nest that code stands in: functions, and inside a class at last the table that holds
the receiver, which is that of a method or of the field initializers. -/
inductive Shaped (members : Option Members) : List (Owner × Table) → Prop where
  | outside (h : members = none) : Shaped members []
  | receiver {owner : Owner} {t : Table} (h : members.isSome) (kind : t.kind = .locals ∨ t.kind = .receiver)
      (this : t.names[0]? = some thisName) : Shaped members [(owner, t)]
  | function {owner : Owner} {t : Table} {rest : List (Owner × Table)} (kind : t.kind = .locals)
      (inside : Shaped members rest) : Shaped members ((owner, t) :: rest)

def Ready (n : Nest) : Prop := Shaped n.members n.inner

namespace Ready

variable {n : Nest}

theorem later (h : n.Ready) (hle : n.Grows n') : n'.Ready := by
  have hinner := hle.inner
  have hmembers := hle.members
  unfold Ready at h ⊢
  generalize n'.inner = inner' at hinner ⊢
  generalize n.inner = inner at hinner h
  induction h generalizing inner' with
  | outside hnone =>
    cases hinner
    rw [hnone] at hmembers
    generalize n'.members = c at hmembers
    cases hmembers
    exact .outside rfl
  | receiver hsome kind this =>
    cases hinner with
    | cons hhead htail =>
      cases htail
      exact .receiver (hle.isSome_members.trans hsome) (hhead.2.kind ▸ kind) (getElem?_of_isPrefix hhead.2.names this)
  | function kind _ ih =>
    cases hinner with
    | cons hhead htail => exact .function (hhead.2.kind.trans kind) (ih _ htail)

theorem push (h : n.Ready) (owner : Owner) (ht : t.kind = .locals) : (n.push owner t).Ready :=
  .function ht h

theorem isInner (h : n.Ready) : n.tables.IsInner := by
  have hmembers : ∀ t ∈ n.members.elim [] Members.tables, t.kind ≠ .globals := by
    cases n.members with
    | none => simp
    | some c => simp [Members.tables]
  have hinner : ∀ p ∈ n.inner, p.2.kind ≠ .globals := by
    unfold Ready at h
    generalize n.inner = inner at h
    induction h with
    | outside => simp
    | receiver _ kind _ => rcases kind with kind | kind <;> simp [kind]
    | function kind _ ih =>
      exact List.forall_mem_cons.mpr ⟨by simp [kind], ih⟩
  exact List.forall_mem_append.mpr ⟨List.forall_mem_map.mpr hinner, hmembers⟩

theorem depth (h : n.Ready) : n.tables.depth = n.inner.length := by
  have hmembers : Scope.depth (n.members.elim [] Members.tables) = 0 := by
    cases n.members <;> rfl
  have hinner : Scope.depth (n.inner.map Prod.snd) = n.inner.length := by
    unfold Ready at h
    generalize n.inner = inner at h
    induction h with
    | outside => rfl
    | receiver _ kind _ => rcases kind with kind | kind <;> simp [Scope.depth, Table.isMembers, kind]
    | function kind _ ih =>
      simp only [Scope.depth, List.map_cons, List.countP_cons, List.length_cons] at ih ⊢
      rw [ih]
      simp [Table.isMembers, kind]
  simp only [Scope.depth, tables, List.countP_append] at hmembers hinner ⊢
  omega

theorem takes (h : n.Ready) (hinside : n.inner ≠ []) : n.tables.Takes := by
  unfold tables
  unfold Ready at h
  generalize n.inner = inner at h hinside
  cases h with
  | outside => exact absurd rfl hinside
  | receiver hsome kind _ =>
    obtain ⟨c, hc⟩ := Option.isSome_iff_exists.mp hsome
    rw [hc]
    exact kind.imp_right fun kind => ⟨kind, ⟨.fields, c.fields⟩, ⟨.methods, c.methods⟩, rfl, rfl, rfl⟩
  | function kind _ => exact .inl kind

end Ready

/-! ## Searching -/

section
variable {name : Text} {location : Location}

theorem found_members {c : Members} (h : Scope.lookup false name c.tables = some location) :
    (∃ slot, location = .field slot 0 ∧ c.fields[slot]? = some name ∧
      Scope.home? false name c.tables c.owners = some (.fields c.site)) ∨
    ∃ slot, location = .method slot 0 ∧ c.methods[slot]? = some name ∧
      Scope.home? false name c.tables c.owners = some (.methods c.site) := by
  simp only [Members.tables, Members.owners, Scope.lookup, Scope.home?, Table.find?] at h ⊢
  cases hfield : c.fields.idxOf? name with
  | some slot =>
    have hat := getElem?_of_idxOf? hfield
    simp only [hfield, Option.some.injEq] at h
    exact .inl ⟨slot, h.symm, hat, by simp [List.mem_of_getElem? hat]⟩
  | none =>
    have hnot := List.idxOf?_eq_none_iff.mp hfield
    cases hmethod : c.methods.idxOf? name with
    | none => simp [hfield, hmethod] at h
    | some slot =>
      have hat := getElem?_of_idxOf? hmethod
      simp only [hfield, hmethod, Option.some.injEq] at h
      exact .inr ⟨slot, h.symm, hat, by simp [hnot, List.mem_of_getElem? hat]⟩

theorem Found.fromBody {inner : List (Owner × Table)} {members : Option Members} {globals : List Text}
    (hshaped : Shaped members inner)
    (h : (⟨inner, members, globals⟩ : Nest).Found name home location) (owner : Owner) (t : Table) :
    (⟨(owner, t) :: inner, members, globals⟩ : Nest).Found name home
      (Scope.fromBody (inner.map Prod.snd ++ members.elim [] Members.tables) location) := by
  have hstarts : ∀ hops : Nat, hops + 1 = inner.length →
      Scope.fromBody.startsWithMembers (inner.map Prod.snd ++ members.elim [] Members.tables) = false := by
    intro hops hlength
    cases hshaped with
    | outside => simp at hlength
    | receiver _ kind _ => rcases kind with kind | kind <;>
        simp [Scope.fromBody.startsWithMembers, Table.isMembers, kind]
    | function kind _ => simp [Scope.fromBody.startsWithMembers, Table.isMembers, kind]
  cases location with
  | lexical nest index =>
    rcases h with ⟨t', hat, hname⟩ | ⟨hnest, hhome, hname⟩
    · exact .inl ⟨t', hat, hname⟩
    · exact .inr ⟨congrArg (· + 1) hnest, hhome, hname⟩
  | field index hops | method index hops =>
    obtain ⟨c, hc, hhops, hhome, hname⟩ := h
    simp only [Scope.fromBody, hstarts hops hhops]
    exact ⟨c, hc, congrArg (· + 1) hhops, hhome, hname⟩

theorem found_of_lookup {n : Nest} (h : n.Ready) (hfound : Scope.lookup false name n.tables = some location) :
    ∃ home, Scope.home? false name n.tables n.innerOwners = some home ∧ n.Found name home location := by
  obtain ⟨inner, members, globals⟩ := n
  simp only [Ready, tables, innerOwners] at h hfound ⊢
  -- from the table that holds the receiver, or from the globals, inwards
  induction h generalizing location with
  | outside hnone =>
    rw [hnone] at hfound
    cases hfound
  | @receiver owner t hsome kind _ =>
    obtain ⟨c, rfl⟩ := Option.isSome_iff_exists.mp hsome
    have hkind : t.kind ≠ .globals := by rcases kind with kind | kind <;> simp [kind]
    simp only [List.map_cons, List.map_nil, List.cons_append, List.nil_append, Option.elim_some, Scope.home?,
      hkind, false_and, if_false, Scope.lookup] at hfound ⊢
    cases hslot : t.find? name with
    | some slot =>
      have hat := getElem?_of_idxOf? hslot
      have hlocation : location = .lexical 0 slot := by
        rcases kind with kind | kind <;>
          simp only [kind, hslot, Table.locate, Option.some.injEq] at hfound <;> exact hfound.symm
      rw [hlocation]
      exact ⟨owner, by simp [List.mem_of_getElem? hat], .inl ⟨t, rfl, hat⟩⟩
    | none =>
      have hnot : name ∉ t.names := List.idxOf?_eq_none_iff.mp hslot
      simp only [hnot, if_false]
      have hmember : Scope.lookup false name c.tables = some location := by
        rcases kind with kind | kind <;> simp only [kind, hslot, Option.map_eq_some_iff] at hfound <;>
          obtain ⟨found, hlookup, hlocation⟩ := hfound <;>
          rcases found_members hlookup with ⟨slot, rfl, -⟩ | ⟨slot, rfl, -⟩ <;>
          rw [hlookup, ← hlocation] <;> rfl
      rcases found_members hmember with ⟨slot, rfl, hat, hhome⟩ | ⟨slot, rfl, hat, hhome⟩ <;>
        exact ⟨_, hhome, c, rfl, rfl, rfl, hat⟩
  | @function owner t rest kind hrest ih =>
    simp only [List.map_cons, List.cons_append, Scope.home?, Scope.lookup, kind, reduceCtorEq, false_and,
      if_false] at hfound ⊢
    cases hslot : t.find? name with
    | some slot =>
      have hat := getElem?_of_idxOf? hslot
      simp only [hslot, Table.locate, kind, Option.some.injEq] at hfound
      rw [← hfound]
      exact ⟨owner, by simp [List.mem_of_getElem? hat], .inl ⟨t, rfl, hat⟩⟩
    | none =>
      have hnot : name ∉ t.names := List.idxOf?_eq_none_iff.mp hslot
      simp only [hslot, Option.map_eq_some_iff] at hfound
      obtain ⟨found, hlookup, rfl⟩ := hfound
      obtain ⟨home, hhome, hplace⟩ := ih hlookup
      exact ⟨home, by simpa [hnot] using hhome, hplace.fromBody hrest owner t⟩

theorem home?_of_lookup_none {n : Nest} (h : n.Ready) (hnone : Scope.lookup false name n.tables = none) :
    Scope.home? false name n.tables n.innerOwners = none := by
  generalize n.innerOwners = owners
  have hinner := h.isInner
  generalize n.tables = tables at hnone hinner
  induction tables generalizing owners with
  | nil => rfl
  | cons t rest ih =>
    cases owners with
    | nil => rfl
    | cons owner others =>
      have hkind := hinner.head
      simp only [Scope.lookup] at hnone
      cases hslot : t.find? name with
      | some slot => cases hk : t.kind <;> simp [hk, hslot] at hnone hkind
      | none =>
        have hrest : Scope.lookup false name rest = none := by
          cases hk : t.kind <;> simp [hk, hslot] at hnone hkind <;> exact hnone
        have hnot : name ∉ t.names := List.idxOf?_eq_none_iff.mp hslot
        simp only [Scope.home?, hkind, false_and, if_false, hnot]
        exact ih others hrest hinner.tail

/-- The owner of the table in which a name is found: first inside, then among the globals. -/
theorem home?_globals {n : Nest} (h : n.Ready) (name : Text) :
    Scope.home? true name n.scope n.owners
        = (Scope.home? false name n.tables n.innerOwners).or (if name ∈ n.globals then some .globals else none) ∧
      Scope.home? false name n.scope n.owners = Scope.home? false name n.tables n.innerOwners := by
  have hlength : n.tables.length = n.innerOwners.length := by
    simp only [tables, innerOwners, List.length_append, List.length_map]
    cases n.members <;> rfl
  have hinner := h.isInner
  simp only [scope, owners]
  generalize n.tables = tables at hlength hinner
  generalize n.innerOwners = owners at hlength
  induction tables generalizing owners with
  | nil =>
    obtain rfl : owners = [] := List.length_eq_zero_iff.mp hlength.symm
    simp [Scope.home?]
  | cons t rest ih =>
    cases owners with
    | nil => simp at hlength
    | cons owner others =>
      obtain ⟨htrue, hfalse⟩ := ih hinner.tail others (by simpa using hlength)
      have hkind := hinner.head
      simp only [List.cons_append, Scope.home?, hkind, false_and, if_false]
      split
      · exact ⟨rfl, rfl⟩
      · exact ⟨htrue, hfalse⟩

theorem found_of_get? {n : Nest} (h : n.Ready) (hfound : n.scope.get? name = some location) :
    ∃ home, Scope.home? true name n.scope n.owners = some home ∧ n.Found name home location := by
  rw [(home?_globals h name).1]
  unfold Scope.get? scope at hfound
  rw [Scope.lookup_globals h.isInner] at hfound
  cases hinside : Scope.lookup false name n.tables with
  | some found =>
    rw [hinside] at hfound
    cases hfound
    obtain ⟨home, hhome, hplace⟩ := found_of_lookup h hinside
    exact ⟨home, by rw [hhome]; rfl, hplace⟩
  | none =>
    rw [hinside, Option.none_or, Option.map_eq_some_iff] at hfound
    obtain ⟨slot, hslot, rfl⟩ := hfound
    have hat := getElem?_of_idxOf? hslot
    refine ⟨.globals, ?_, .inr ⟨h.depth, rfl, hat⟩⟩
    rw [home?_of_lookup_none h hinside, if_pos (List.mem_of_getElem? hat)]
    rfl

theorem exists_of_grows {n : Nest} {tables : Scope} (h : Scope.Grows n.tables tables) :
    ∃ n', n.Grows n' ∧ n'.tables = tables ∧ n'.globals = n.globals := by
  obtain ⟨inner, members, globals⟩ := n
  simp only [Nest.tables] at h
  -- table by table, each with its owner
  induction inner generalizing tables with
  | nil =>
    cases members with
    | none =>
      cases h
      exact ⟨⟨[], none, globals⟩, .refl _, rfl, rfl⟩
    | some c =>
      simp only [List.map_nil, List.nil_append, Option.elim_some, Members.tables] at h
      cases h with
      | @cons _ f _ _ hfields hrest =>
        cases hrest with
        | @cons _ m _ _ hmethods hnil =>
          cases hnil
          obtain ⟨fkind, fields⟩ := f
          obtain ⟨mkind, methods⟩ := m
          obtain ⟨rfl, hfields, -⟩ := hfields
          obtain ⟨rfl, -, hmethods⟩ := hmethods
          have hmethods : methods = c.methods := hmethods rfl
          exact ⟨⟨[], some ⟨c.site, fields, methods⟩, globals⟩,
            ⟨.nil, .some ⟨rfl, hfields, hmethods⟩, List.prefix_rfl⟩, rfl, rfl⟩
  | cons p rest ih =>
    obtain ⟨owner, t⟩ := p
    cases h with
    | @cons _ t' _ outer hhead hrest =>
      obtain ⟨n', hgrows, htables, hglobals⟩ := ih hrest
      exact ⟨n'.push owner t', ⟨.cons ⟨rfl, hhead⟩ hgrows.inner, hgrows.members, hgrows.globals⟩,
        congrArg (_ :: ·) htables, hglobals⟩

end

end Nest

def Scope.isGlobal : Scope → Bool
  | t :: _ => t.kind == .globals
  | [] => false

namespace Nest

/-- A name that is assigned is found, afterwards, in the table of its home; at the global level that is
the global one, and inside it is another. -/
theorem found_of_put {n : Nest} (h : n.Ready) (name : Text) :
    ∃ n' home, n.Grows n' ∧ (n.scope.put name).2 = n'.scope ∧
      Scope.home? n.scope.isGlobal name n'.scope n'.owners = some home ∧
      n'.Found name home (n.scope.put name).1 ∧
      (n.inner ≠ [] → n'.globals = n.globals ∧
        ∀ nest index, (n.scope.put name).1 = .lexical nest index → nest < n.inner.length) := by
  by_cases hinside : n.inner = []
  · -- at the global level: there is no class around
    have hmembers : n.members = none := by
      unfold Ready at h
      rw [hinside] at h
      cases h
      assumption
    obtain ⟨inner, members, globals⟩ := n
    subst hinside hmembers
    obtain ⟨slot, more, hput, hslot, -⟩ := Scope.put_globals globals name
    have hat := getElem?_of_idxOf? hslot
    have hscope : (⟨[], none, globals⟩ : Nest).scope = [⟨.globals, globals⟩] := rfl
    rw [hscope, hput]
    refine ⟨⟨[], none, globals ++ more⟩, .globals, ⟨.nil, .none, List.prefix_append ..⟩, rfl, ?_,
      .inr ⟨rfl, rfl, hat⟩, fun hinside => absurd rfl hinside⟩
    have hmem := List.mem_of_getElem? hat
    simp only [Scope.isGlobal, scope, owners, tables, innerOwners, List.map_nil, Option.elim_none,
      List.append_nil, List.nil_append, Scope.home?]
    simp [hmem]
  · obtain ⟨hgrows, hlookup⟩ := Scope.put_spec (h.takes hinside) name
    obtain ⟨n', hle, htables, hglobals⟩ := exists_of_grows hgrows
    rw [← htables] at hlookup
    obtain ⟨home, hhome, hplace⟩ := found_of_lookup (h.later hle) hlookup
    have hput := Scope.put_inner h.isInner (h.takes hinside) n.globals name
    have hglobal : n.scope.isGlobal = false := by
      have hfirst := h.isInner
      unfold scope tables at *
      cases hinner : n.inner with
      | nil => exact absurd hinner hinside
      | cons p rest =>
        rw [hinner] at hfirst
        simpa [Scope.isGlobal] using hfirst.head
    refine ⟨n', home, hle, ?_, ?_, ?_, fun _ => ⟨hglobals, fun nest index hlexical => ?_⟩⟩
    · unfold scope
      rw [hput, htables, hglobals]
    · rw [hglobal, (home?_globals (h.later hle) name).2]
      exact hhome
    · unfold scope
      rw [hput]
      exact hplace
    · have hreaches := Scope.reaches_of_lookup (h.later hle).isInner hlookup
      have hlocation : (n.tables.put name).1 = .lexical nest index := by
        rw [← hlexical, scope, hput]
      rw [hlocation] at hreaches
      rw [← hle.length, ← (h.later hle).depth]
      exact hreaches

end Nest

end StoneLang
