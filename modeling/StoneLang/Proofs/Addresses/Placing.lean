/-
  What placing notes, and in whose tables.

  `tracking` takes a walk through a tree; here it is taken through the units of a program, and through the
  body of a class.  What it has learned is said in terms of the notes that it leaves: every use is placed
  in its nest (`Nest.Placed`), and every function has a table of the size that is noted (`Nest.Sized`).
  The nests are those at the end, when the tables have all their names.
-/
import StoneLang.Proofs.Addresses.Tracking

namespace StoneLang

/-- What is noted at a site, with what is remembered about it. -/
def Notes.siteNote (notes : Notes) (homes : SiteMap Owner) (site : Site) : SiteNote :=
  ⟨notes.places.get? site, homes.get? site, notes.sizes.get? site⟩

section
variable (aim : Aim) (noted : Site → SiteNote)

def Nest.Placed (n : Nest) (u : Use) : Prop := u.isPlain ∧ n.Noted aim (noted u.site) u

/-- A function in the nest has a table of the size that is noted. -/
def Nest.Sized (n : Nest) (site : Site) (params : List Label) (inner : Nest) : Prop :=
  ∃ t, inner = n.push (.function site) t ∧ t.kind = .locals ∧ (aim.room = true → params.length ≤ t.size) ∧
    (noted site).size = some t.size

def Members.initializerNest (c : Members) (globals : List Text) : Nest :=
  ⟨[(.initializers c.site, .ofReceiver)], some c, globals⟩

def Members.methodNest (c : Members) (globals : List Text) (site : Site) (t : Table) : Nest :=
  ⟨[(.function site, t)], some c, globals⟩

/-- A table for a method: it starts with the receiver and has the size that is noted, with room for the
parameters. -/
structure MethodTable (d : Definition) (t : Table) : Prop where
  kind : t.kind = .locals
  this : t.names[0]? = some thisName
  room : aim.room = true → d.parameters.length + 1 ≤ t.size
  size : (noted d.site).size = some t.size

def Members.Placed (c : Members) (globals : List Text) (member : Node) : Prop :=
  match Definition.ofNode? member with
  | none => member.Every (Nest.Placed aim noted) (Nest.Sized aim noted) (c.initializerNest globals)
  | some d => ∃ t, MethodTable aim noted d t ∧
      AllEvery (Nest.Placed aim noted) (Nest.Sized aim noted) (c.methodNest globals d.site t) d.body

end

section
variable {settings : ResolveSettings} {aim : Aim} {globals : List Text} {notes : Notes}
  {homes : SiteMap Owner}

variable {s : Tracking} {t : Resolving} {k l n : Nest}

theorem every_of_tracked
    (h : (tracking settings aim).Known ((tracking settings aim).note · s t) k l node) (hle : l.Grows n) :
    node.Every (Nest.Placed aim (t.notes.siteNote s.homes)) (Nest.Sized aim (t.notes.siteNote s.homes)) n := by
  refine Node.Every.mono (R := fun (c : Nest × Nest) n => c.2.Grows n) (S := fun _ => True) ?_ ?_ node (k, l) n
    hle (fun _ _ => trivial) h
  · rintro c n u hle _ ⟨hplain, hnoted⟩
    exact ⟨hplain, hnoted.later hle⟩
  · rintro c n site params c' hle _ ⟨-, outer, t, houter, hinner, hkind, hroom, hsize⟩
    refine ⟨n.push (.function site) t, ⟨t, rfl, hkind, hroom, hsize⟩, ?_⟩
    rw [hinner]
    exact (houter.trans hle).push _ (.refl t)

theorem allEvery_of_tracked
    (h : (tracking settings aim).AllKnown ((tracking settings aim).note · s t) k l nodes) (hle : l.Grows n) :
    AllEvery (Nest.Placed aim (t.notes.siteNote s.homes)) (Nest.Sized aim (t.notes.siteNote s.homes)) n nodes := by
  unfold Lockstep.AllKnown at h
  rw [allEvery_iff] at h ⊢
  exact fun node hnode => every_of_tracked (h node hnode) hle

/-! ## Units -/

/-- The state in which the names of a unit are placed. -/
def Tracking.start (globals : List Text) (notes : Notes) (homes : SiteMap Owner) : Tracking :=
  ⟨⟨[⟨.globals, globals⟩], notes, #[]⟩, [.globals], homes⟩

/-- In whose tables names are placed, after the names of a unit are. -/
def homesOfUnit (settings : ResolveSettings) (unit : Node) (globals : List Text) (notes : Notes)
    (homes : SiteMap Owner) : SiteMap Owner :=
  (finalState (ScopeActions.visitWithin (.tracked settings) settings settings.maxDepth unit
    (.start globals notes homes))).homes

def Nest.top (globals : List Text) : Nest := ⟨[], none, globals⟩

theorem Nest.Widens.top (h : (Nest.top globals).Widens n) : ∃ names, n = .top names ∧ globals <+: names := by
  obtain ⟨inner, members, names⟩ := n
  obtain ⟨⟨hinner, hmembers, hglobals⟩, -⟩ := h
  cases hinner
  cases hmembers
  exact ⟨names, rfl, hglobals⟩

/-- What placing the names of a unit leaves alone: the globals keep their slots, and the notes at other sites
stay. -/
structure UnitPlaced (globals : List Text) (notes : Notes) (homes : SiteMap Owner) (sites : List Site)
    (s : Resolving) (homes' : SiteMap Owner) : Prop where
  globals : globals <+: s.scope.outermostNames
  kept : ∀ site ∉ sites, s.notes.siteNote homes' site = notes.siteNote homes site

theorem resolve_plain (settings : ResolveSettings) (hplain : unit.Plain)
    (hasks : unit.Every aim.AsksUse aim.AsksFunction false) (hsites : unit.sites.Nodup) (globals : List Text)
    (notes : Notes) (homes : SiteMap Owner) :
    UnitPlaced globals notes homes unit.sites (finalState (resolve settings unit globals notes))
        (homesOfUnit settings unit globals notes homes) ∧ ∀ s, resolve settings unit globals notes = .ok () s →
        unit.Every (Nest.Placed aim (s.notes.siteNote (homesOfUnit settings unit globals notes homes)))
          (Nest.Sized aim (s.notes.siteNote (homesOfUnit settings unit globals notes homes)))
          (.top s.scope.outermostNames) := by
  let L := tracking settings aim
  have hrel : L.related (Nest.top globals) (.start globals notes homes) (.start globals notes) :=
    ⟨rfl, rfl, rfl⟩
  have hsuits : L.suits false (Nest.top globals) := ⟨.outside rfl, rfl⟩
  have hstep := L.inStep settings settings.maxDepth unit false _ _ _ hrel hsuits hsites
    (Aim.every_plain hplain hasks)
  rw [ScopeActions.visitWithin_resolver] at hstep
  unfold homesOfUnit
  show UnitPlaced _ _ _ _ (finalState (visitWithin settings settings.maxDepth unit _)) _ ∧
    ∀ s, visitWithin settings settings.maxDepth unit _ = .ok () s → _
  generalize ScopeActions.visitWithin (.tracked settings) settings settings.maxDepth unit _ = x at hstep ⊢
  generalize visitWithin settings settings.maxDepth unit _ = y at hstep ⊢
  cases hstep with
  | @ok s t l grown related kept holds =>
    obtain ⟨-, hscope, -⟩ := related
    obtain ⟨names, rfl, hnames⟩ := Nest.Widens.top grown
    obtain rfl : t.scope.outermostNames = names := congrArg Scope.outermostNames hscope
    exact ⟨⟨hnames, kept⟩, fun s' hs' => by cases hs'; exact every_of_tracked holds (.refl _)⟩
  | error broken kept => exact ⟨⟨broken.2, kept⟩, fun s' hs' => by cases hs'⟩

theorem declare_top (settings : ResolveSettings) (site : Site) (title : Label) (globals : List Text)
    (notes : Notes) (homes : SiteMap Owner) :
    ∃ names slots, globals <+: names ∧
      (ScopeActions.tracked settings).declare site title (.start globals notes homes)
        = .ok () (.start names { notes with slots } homes) ∧
      (ScopeActions.resolver settings).declare site title (.start globals notes)
        = .ok () (.start names { notes with slots }) := by
  obtain ⟨slot, more, hput, -⟩ := Scope.put_globals globals title.text
  have hresolver := ScopeActions.resolver_declare settings site (.start globals notes) title
  rw [hput] at hresolver
  refine ⟨globals ++ more, notes.slots.set site slot, List.prefix_append .., ?_, hresolver⟩
  unfold ScopeActions.tracked Tracking.start
  dsimp only
  rw [hresolver]
  rfl

/-- The walk over a definition at the top: its name is declared, then its body is visited. -/
theorem visit_definition {ρ : Type} (A : ScopeActions ρ) (settings : ResolveSettings) (levels : Nat) (site : Site)
    (title : Label) (params : List Label) (body : List Node) {s s' : ρ}
    (h : A.declare site title s = .ok () s') :
    A.visitWithin settings (levels + 1) (.definition site title params body) s
      = ScopeActions.visitFunction A (A.visitWithin settings levels) site [] params body s' :=
  bind_of_ok h

theorem resolve_definition (settings : ResolveSettings) (title : Label)
    (hplain : ∀ n ∈ body, n.Plain) (hasks : aim.Asks (.definition site title params body))
    (hsites : (allSites body ++ [site]).Nodup) (globals : List Text) (notes : Notes) (homes : SiteMap Owner) :
    UnitPlaced globals notes homes (allSites body ++ [site])
        (finalState (resolve settings (.definition site title params body) globals notes))
        (homesOfUnit settings (.definition site title params body) globals notes homes) ∧
      ∀ s, resolve settings (.definition site title params body) globals notes = .ok () s →
        ∃ inner, Nest.Sized aim (s.notes.siteNote
            (homesOfUnit settings (.definition site title params body) globals notes homes))
            (.top s.scope.outermostNames) site params inner ∧ AllEvery (Nest.Placed aim (s.notes.siteNote
              (homesOfUnit settings (.definition site title params body) globals notes homes)))
            (Nest.Sized aim (s.notes.siteNote
              (homesOfUnit settings (.definition site title params body) globals notes homes))) inner body := by
  unfold homesOfUnit
  show UnitPlaced _ _ _ _ (finalState (visitWithin settings settings.maxDepth _ _)) _ ∧
    ∀ s, visitWithin settings settings.maxDepth _ _ = .ok () s → _
  rw [← ScopeActions.visitWithin_resolver]
  cases settings.maxDepth with
  | zero =>
    exact ⟨⟨List.prefix_rfl, fun _ _ => rfl⟩, fun s hs => by cases hs⟩
  | succ levels =>
    obtain ⟨names, slots, hnames, htracked, hresolver⟩ := declare_top settings site title globals notes homes
    rw [visit_definition _ settings levels site title params body htracked,
      visit_definition _ settings levels site title params body hresolver]
    let L := tracking settings aim
    have hrel : L.related (Nest.top names) (.start names { notes with slots } homes)
        (.start names { notes with slots }) := ⟨rfl, rfl, rfl⟩
    have hsuits : L.suits false (Nest.top names) := ⟨.outside rfl, rfl⟩
    have hbody : AllEvery aim.AsksPlain aim.AsksFunction false body := by
      have hall := hasks.2
      rw [allEvery_iff] at hall ⊢
      exact fun n hn => Aim.every_plain (hplain n hn) (hall n hn)
    have hinside : L.inside false site params false := ⟨hasks.1, rfl⟩
    have hstep := Lockstep.visitFunction (L.inStep settings levels) hrel hsuits hinside hsites hbody
    generalize ScopeActions.visitFunction (.tracked settings) _ site [] params body _ = x at hstep ⊢
    generalize ScopeActions.visitFunction (.resolver settings) _ site [] params body _ = y at hstep ⊢
    cases hstep with
    | @ok s t l grown related kept holds =>
      obtain ⟨-, hscope, -⟩ := related
      obtain ⟨names', rfl, hnames'⟩ := Nest.Widens.top grown
      obtain rfl : t.scope.outermostNames = names' := congrArg Scope.outermostNames hscope
      obtain ⟨p, q, ⟨-, outer, table, houter, rfl, hkind, hroom, hsize⟩, hknown⟩ := holds
      refine ⟨⟨hnames.trans hnames', kept⟩, fun s' hs' => ?_⟩
      cases hs'
      exact ⟨_, ⟨table, rfl, hkind, hroom, hsize⟩, allEvery_of_tracked hknown (houter.push _ (.refl table))⟩
    | error broken kept => exact ⟨⟨hnames.trans broken.2, kept⟩, fun s' hs' => by cases hs'⟩

theorem resolve_class (settings : ResolveSettings) (site : Site) (title : Label) (parent : Option Label)
    (members : List Node) (globals : List Text) (notes : Notes) (homes : SiteMap Owner) :
    UnitPlaced globals notes homes []
      (finalState (resolve settings (.classDefinition site title parent members) globals notes))
      (homesOfUnit settings (.classDefinition site title parent members) globals notes homes) := by
  unfold homesOfUnit
  show UnitPlaced _ _ _ _ (finalState (visitWithin settings settings.maxDepth _ _)) _
  rw [← ScopeActions.visitWithin_resolver]
  cases settings.maxDepth with
  | zero => exact ⟨List.prefix_rfl, fun _ _ => rfl⟩
  | succ levels =>
    obtain ⟨names, slots, hnames, htracked, hresolver⟩ := declare_top settings site title globals notes homes
    have htracked' : ScopeActions.visitWithin (.tracked settings) settings (levels + 1)
        (.classDefinition site title parent members) (.start globals notes homes) = _ := htracked
    have hresolver' : ScopeActions.visitWithin (.resolver settings) settings (levels + 1)
        (.classDefinition site title parent members) (.start globals notes) = _ := hresolver
    rw [htracked', hresolver']
    exact ⟨hnames, fun _ _ => rfl⟩

end

/-! ## Classes -/

/-- The layout has all members of another one, in their slots. -/
structure Layout.Extends (layout base : Layout) : Prop where
  fields : base.fields <+: layout.fields
  methods : base.methods <+: layout.methods

theorem Layout.Extends.refl (layout : Layout) : layout.Extends layout := ⟨List.prefix_rfl, List.prefix_rfl⟩

theorem Layout.Extends.trans {l m n : Layout} (h : l.Extends m) (h' : m.Extends n) : l.Extends n :=
  ⟨h'.fields.trans h.fields, h'.methods.trans h.methods⟩

def Layout.Full (layout : Layout) : Prop := layout.definitions.length = layout.methods.length

theorem Layout.addMethod_spec (layout : Layout) (d : Definition) :
    (layout.addMethod d).2.fields = layout.fields ∧ layout.methods <+: (layout.addMethod d).2.methods ∧
      (layout.Full → (layout.addMethod d).2.Full) := by
  unfold addMethod Full define Table.add Table.find?
  dsimp only
  cases hslot : layout.methods.idxOf? d.name with
  | some slot =>
    have hlt := lt_of_idxOf? hslot
    dsimp only
    split
    · exact ⟨rfl, List.prefix_rfl, fun hfull => by simpa using hfull⟩
    · exact ⟨rfl, List.prefix_rfl, fun hfull => by omega⟩
  | none =>
    dsimp only
    split
    · exact ⟨rfl, List.prefix_append .., fun hfull => by omega⟩
    · exact ⟨rfl, List.prefix_append .., fun hfull => by simpa using hfull⟩

theorem layOutMethods_spec (h : layOutMethods members base s = .ok layout s') :
    layout.fields = base.fields ∧ base.methods <+: layout.methods ∧ (base.Full → layout.Full) := by
  induction members generalizing base s with
  | nil =>
    cases h
    exact ⟨rfl, List.prefix_rfl, id⟩
  | cons member rest ih =>
    cases hd : Definition.ofNode? member with
    | none =>
      simp only [layOutMethods, hd] at h
      exact ih h
    | some d =>
      simp only [layOutMethods, hd] at h
      obtain ⟨hfields, hmethods, hfull⟩ := base.addMethod_spec d
      obtain ⟨_, t, -, hrest⟩ := bind_eq_ok.mp h
      obtain ⟨hfields', hmethods', hfull'⟩ := ih hrest
      exact ⟨hfields'.trans hfields, hmethods.trans hmethods', fun h => hfull' (hfull h)⟩

def Tracking.outside (s : Tracking) : Tracking :=
  { s with resolving := s.resolving.outside, owners := s.owners.tail }

/-- The state in which the field initializers of the class at `site` are visited. -/
def Tracking.inClass (s : Resolving) (homes : SiteMap Owner) (site : Site) (layout : Layout) : Tracking :=
  ⟨s.inClass layout, [.initializers site, .fields site, .methods site, .globals], homes⟩

/-- In whose tables names are placed, after a class has been laid out. -/
def homesOfClass (settings : ResolveSettings) (site : Site) (members : List Node) (base : Layout)
    (globals : List Text) (notes : Notes) (homes : SiteMap Owner) : SiteMap Owner :=
  match layOutMethods members base ⟨[⟨.globals, globals⟩], notes, #[]⟩ with
  | .error _ _ => homes
  | .ok layout s =>
    let visit := ScopeActions.visitWithin (.tracked settings) settings settings.maxDepth
    match ScopeActions.visitInitializers visit members (.inClass s homes site layout) with
    | .error _ s => s.homes
    | .ok _ s => (finalState (ScopeActions.visitMethods (.tracked settings) visit members s.outside)).homes

namespace Nest.Widens

variable {c : Members} {globals : List Text} {n : Nest}

theorem initializers (h : (c.initializerNest globals).Widens n) :
    ∃ fields, c.fields <+: fields ∧ n = Members.initializerNest { c with fields } globals := by
  obtain ⟨inner, members, names⟩ := n
  obtain ⟨⟨hinner, hmembers, -⟩, hglobals⟩ := h
  obtain rfl : names = globals := hglobals (.inr rfl)
  cases hinner with
  | @cons _ head _ rest hhead hrest =>
    cases hrest
    cases hmembers with
    | @some _ c' hc =>
      obtain ⟨site', fields, methods⟩ := c'
      obtain ⟨rfl, hfields, rfl⟩ := hc
      obtain ⟨owner, ⟨kind, names⟩⟩ := head
      obtain ⟨rfl, ⟨rfl, -, hnames⟩⟩ := hhead
      obtain rfl : names = [thisName] := hnames rfl
      exact ⟨fields, hfields, rfl⟩

theorem members (h : (⟨[], some c, globals⟩ : Nest).Widens n) :
    ∃ fields, c.fields <+: fields ∧ n = ⟨[], some { c with fields }, globals⟩ := by
  obtain ⟨inner, members, names⟩ := n
  obtain ⟨⟨hinner, hmembers, -⟩, hglobals⟩ := h
  obtain rfl : names = globals := hglobals (.inr rfl)
  cases hinner
  cases hmembers with
  | @some _ c' hc =>
    obtain ⟨site', fields, methods⟩ := c'
    obtain ⟨rfl, hfields, rfl⟩ := hc
    exact ⟨fields, hfields, rfl⟩

end Nest.Widens

theorem Members.initializerNest_grows (c : Members) (globals : List Text) {fields : List Text}
    (h : c.fields <+: fields) :
    (c.initializerNest globals).Grows (Members.initializerNest { c with fields } globals) :=
  ⟨.cons ⟨rfl, .refl _⟩ .nil, .some ⟨rfl, h, rfl⟩, List.prefix_rfl⟩

def Nest.StartsMethod (aim : Aim) (params : List Label) (p : Nest) : Prop :=
  ∃ owner t, p.inner = [(owner, t)] ∧ t.names[0]? = some thisName ∧
    (aim.room = true → params.length + 1 ≤ t.size)

section
variable {settings : ResolveSettings} {aim : Aim} {c : Members} {globals : List Text}

theorem tracked_enterMethod {d : Definition} (hasks : aim.room = true → (thisName :: d.parameterNames).Nodup)
    (hn : n.inner = []) (hclass : n.members.isSome) (h : (tracking settings aim).related n s t) :
    ∃ p s' t', (ScopeActions.tracked settings).enterFunction d.site [thisName] d.parameters s = .ok () s' ∧
      (ScopeActions.resolver settings).enterFunction d.site [thisName] d.parameters t = .ok () t' ∧
      (tracking settings aim).entered n d.site d.parameters p ∧ (tracking settings aim).related p s' t' ∧
      (tracking settings aim).suits true p ∧ p.StartsMethod aim d.parameters ∧
      ∀ other, (tracking settings aim).note other s' t' = (tracking settings aim).note other s t := by
  obtain ⟨rfl, hscope, howners⟩ := h
  have hgrows := Table.addAll_grows (t := ⟨.locals, [thisName]⟩) rfl (d.parameters.map Label.text)
  have hroom : aim.room = true →
      d.parameters.length + 1 ≤ (Table.addAll ⟨.locals, [thisName]⟩ (d.parameters.map Label.text)).size := by
    intro haim
    rw [Table.addAll_of_nodup _ _ (hasks haim)]
    simp [Table.size]
  have hthis := getElem?_of_isPrefix hgrows.names (i := 0) (a := thisName) rfl
  refine ⟨n.push (.function d.site) (Table.addAll ⟨.locals, [thisName]⟩ (d.parameters.map Label.text)), _, _,
    ScopeActions.tracked_enter settings d.site s [thisName] d.parameters,
    ScopeActions.resolver_enter settings d.site s.resolving [thisName] d.parameters,
    ⟨_, rfl, hgrows.kind, fun haim => Nat.le_of_succ_le (hroom haim)⟩,
    ⟨rfl, congrArg (_ :: ·) hscope, congrArg (_ :: ·) howners⟩, ⟨?_, hclass⟩,
    ⟨.function d.site, Table.addAll ⟨.locals, [thisName]⟩ (d.parameters.map Label.text), congrArg (_ :: ·) hn, hthis,
      hroom⟩, fun _ => rfl⟩
  show Nest.Shaped n.members (_ :: n.inner)
  rw [hn]
  exact .receiver hclass (.inl hgrows.kind) hthis

theorem methodTable_of_learned (noted : Site → SiteNote) (hstarts : p.StartsMethod aim d.parameters)
    (hlearned : (tracking settings aim).learnedInner (noted d.site) k ⟨[], some { c with fields }, globals⟩ d.site
      d.parameters p q) :
    ∃ t, MethodTable aim noted d t ∧ q.Grows (Members.methodNest { c with fields } globals d.site t) := by
  obtain ⟨owner, t₀, hp, hthis, hroom⟩ := hstarts
  obtain ⟨hpq, outer, t, houter, rfl, hkind, -, hsize⟩ := hlearned
  have hinner := hpq.inner
  rw [hp] at hinner
  cases hinner with
  | cons hhead _ =>
    obtain ⟨-, hgrows⟩ := hhead
    refine ⟨t, ⟨hkind, getElem?_of_isPrefix hgrows.names hthis,
      fun haim => Nat.le_trans (hroom haim) hgrows.names.length_le, hsize⟩, ?_⟩
    exact houter.push _ (.refl t)

/-- Laying out a class places its members in the nests of the class as it is in the end. -/
theorem layOutClass_placed (settings : ResolveSettings) (title : Text) (site : Site)
    (hmembers : ∀ member ∈ members, member.IsMember) (hasks : ∀ member ∈ members, aim.AsksMember member)
    (hsites : (allSites members).Nodup) (base : Layout) (globals : List Text) (notes : Notes) (homes : SiteMap Owner) :
    ∃ s, (∀ other ∉ allSites members, s.notes.siteNote (homesOfClass settings site members base globals notes homes)
          other = notes.siteNote homes other) ∧
      ((∃ e, layOutClass settings title members base (.start globals notes) = .error e s) ∨
        ∃ layout, layOutClass settings title members base (.start globals notes) = .ok layout s ∧
          layout.Extends base ∧ (base.Full → layout.Full) ∧
          (∀ d ∈ layout.definitions, d ∈ base.definitions ∨ d.toNode ∈ members) ∧ ∀ member ∈ members, Members.Placed aim
            (s.notes.siteNote (homesOfClass settings site members base globals notes homes))
            ⟨site, layout.fields, layout.methods⟩ globals member) := by
  obtain ⟨layout, hfrom, hlay⟩ := layOutMethods_eq members base
  obtain ⟨slots, hs₁, -⟩ := hlay (.start globals notes)
  obtain ⟨hfields, hmethods, hfull⟩ := layOutMethods_spec hs₁
  let L := tracking settings aim
  let c : Members := ⟨site, layout.fields, layout.methods⟩
  have hstep := L.inStep settings settings.maxDepth
  -- the field initializers, in the scope of the receiver
  have hrel : L.related (c.initializerNest globals)
      (.inClass (.start globals { notes with slots }) homes site layout)
      (Resolving.inClass (.start globals { notes with slots }) layout) := ⟨rfl, rfl, rfl⟩
  have hsuits : L.suits true (c.initializerNest globals) := ⟨.receiver rfl (.inr rfl) rfl, rfl⟩
  have hinit := Lockstep.visitInitializers hstep hrel hsuits hsites fun member hmem hnone => by
    have hmember := hasks member hmem
    unfold Aim.AsksMember at hmember
    rw [hnone] at hmember
    exact Aim.every_plain (member_isPlain hmembers hmem hnone) hmember
  rw [ScopeActions.visitInitializers_resolver] at hinit
  unfold homesOfClass
  rw [hs₁]
  dsimp only
  generalize ScopeActions.visitInitializers
    (ScopeActions.visitWithin (.tracked settings) settings settings.maxDepth) members
    (.inClass (.start globals { notes with slots }) homes site layout) = x at hinit ⊢
  generalize hs₂ : visitInitializers settings members
    (Resolving.inClass (.start globals { notes with slots }) layout) = y at hinit
  cases hinit with
  | @error e s t hbroken hkept =>
    exact ⟨t, hkept, .inl ⟨e, layOutClass_error_initializers hs₁ hs₂⟩⟩
  | @ok s₂ t₂ n hgrown hrel₂ hkept₂ hknown =>
    obtain ⟨fields, hgrows, rfl⟩ := Nest.Widens.initializers hgrown
    -- the methods, each in a scope of its own inside the members
    have hrel₃ : L.related ⟨[], some { c with fields }, globals⟩ s₂.outside t₂.outside := by
      obtain ⟨rfl, hscope, howners⟩ := hrel₂
      exact ⟨rfl, congrArg List.tail hscope, congrArg List.tail howners⟩
    have houtside : ∀ other ∉ allSites members, other ∉ allSites (methodsOf members) :=
      fun other hother h => hother ((allSites_methodsOf members).subset h)
    have hmethod : ∀ d : Definition, d.toNode ∈ members →
        (aim.room = true → (thisName :: d.parameterNames).Nodup) ∧
          AllEvery aim.AsksUse aim.AsksFunction true d.body := fun d hd => hasks _ hd
    have hbodies : ∀ d : Definition, d.toNode ∈ members →
        AllEvery aim.AsksPlain aim.AsksFunction true d.body := by
      intro d hd
      have hbody := (hmethod d hd).2
      rw [allEvery_iff] at hbody ⊢
      exact fun n hn => Aim.every_plain (method_isPlain hmembers hd n hn) (hbody n hn)
    have hvisit := Lockstep.visitMethods hstep (E := fun params p => p.StartsMethod aim params) hrel₃ hsites ?_ hbodies
    · rw [ScopeActions.visitMethods_resolver] at hvisit
      dsimp only
      generalize ScopeActions.visitMethods (.tracked settings)
        (ScopeActions.visitWithin (.tracked settings) settings settings.maxDepth) members s₂.outside = x at hvisit ⊢
      generalize hs₃ : visitMethods settings members t₂.outside = y at hvisit
      cases hvisit with
      | @error e s t hbroken hkept =>
        exact ⟨t, fun other hother => (hkept other (houtside other hother)).trans (hkept₂ other hother),
          .inl ⟨e, layOutClass_error_methods hs₁ hs₂ hs₃⟩⟩
      | @ok s t n hgrown' hrel' hkept hplaced =>
        obtain ⟨fields', hgrows', rfl⟩ := Nest.Widens.members hgrown'
        obtain ⟨-, hscope, -⟩ := hrel'
        obtain ⟨records, hs₄⟩ := layOutClass_ok title hs₁ hs₂ hs₃
        have hnames : t.scope.innermostNames = fields' := congrArg Scope.innermostNames hscope
        rw [hnames] at hs₄
        refine ⟨{ t with records }, fun other hother => (hkept other (houtside other hother)).trans (hkept₂ other hother),
          .inr ⟨_, hs₄, ⟨hfields ▸ hgrows.trans hgrows', hmethods⟩, hfull, hfrom, fun member hmem => ?_⟩⟩
        unfold Members.Placed
        cases hd : Definition.ofNode? member with
        | none =>
          -- the names in it were placed before the methods were visited
          have hold : L.Known (L.note · s t) _ _ member := (hknown member hmem hd).later (.refl _) (.refl _)
            fun other hother => hkept other (initializer_disjoint hsites hmem hd hother)
          exact every_of_tracked hold (Members.initializerNest_grows { c with fields } globals hgrows')
        | some d =>
          obtain rfl := Definition.eq_toNode hd
          obtain ⟨p, q, hstarts, hlearned, hbody⟩ := hplaced d hmem
          obtain ⟨table, htable, hq⟩ := methodTable_of_learned (c := c) (t.notes.siteNote s.homes) hstarts hlearned
          exact ⟨table, htable, allEvery_of_tracked hbody hq⟩
    · rintro d hd l s t hle h
      obtain ⟨fields', -, rfl⟩ := Nest.Widens.members hle
      exact tracked_enterMethod (hmethod d hd).1 rfl rfl h

end

end StoneLang
