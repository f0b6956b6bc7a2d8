/-
  Units under observation.

  Before a unit is evaluated its names are placed, or left to be looked up; after that it is ready
  (`Ready`), and evaluating it at the top keeps the invariant.  A definition makes a function and binds it,
  a class definition places the body of the class on top of its superclass first; both bind a global.

  `sound_execute` is the step that a session takes: whatever unit the grammar can give, if it is as the aim
  asks, the invariant holds after it, and its failure is one that the aim admits.
-/
import StoneLang.Proofs.Addresses.Evaluation
import StoneLang.Proofs.Evaluation.Failures
import StoneLang.Proofs.Scope.Rereading

namespace StoneLang.Addresses

open Coupling

variable {aim : Aim} {extent : Extent} {w : World} {m : Machine} {trail : Trail} {l : Nat}

/-! ## Placing -/

variable {n : Nest} {node : Node} {sites : List Site} {homes : SiteMap Owner} {base : Layout} {title : Text}
  {parents : List Nat} {e : Failure}

theorem World.every_of_placed (hsites : ∀ site ∈ node.sites, w.Knows aim site)
    (h : node.Every (Nest.Placed aim w.noted) (Nest.Sized aim w.noted) n) :
    node.Every (w.Placed aim) (w.Sized aim) (.placed n) := by
  refine Node.Every.mono (R := fun n c => c = Index.placed n) ?_ ?_ node n _ rfl hsites h
  · rintro n _ u rfl hknown hu
    exact ⟨hknown, hu⟩
  · rintro n _ site params inner rfl hknown hinner
    exact ⟨.placed inner, ⟨hknown.1, hinner⟩, rfl⟩

theorem World.allEvery_of_placed (hsites : ∀ site ∈ allSites nodes, w.Knows aim site)
    (h : AllEvery (Nest.Placed aim w.noted) (Nest.Sized aim w.noted) n nodes) :
    AllEvery (w.Placed aim) (w.Sized aim) (.placed n) nodes := by
  rw [allEvery_iff] at h ⊢
  exact fun node hnode =>
    every_of_placed (fun site hsite => hsites site (mem_allSites.mpr ⟨node, hnode, hsite⟩)) (h node hnode)

theorem World.every_of_fresh (hplain : node.Plain)
    (hsites : ∀ site ∈ node.sites, w.Knows aim site ∧ (w.noted site).place = none ∧ (w.noted site).size = none) :
    node.Every (w.Placed aim) (w.Sized aim) (.opened depth) := by
  refine Node.Every.mono (R := fun _ c => ∃ depth, c = Index.opened depth) ?_ ?_ node () _ ⟨depth, rfl⟩ hsites
    hplain
  · rintro _ _ u ⟨depth, rfl⟩ ⟨hknown, hplace, -⟩ hu
    exact ⟨hknown, hu, hplace⟩
  · rintro _ _ site params _ ⟨depth, rfl⟩ ⟨hknown, -, hsize⟩ -
    exact ⟨.opened (depth + 1), ⟨hknown.1, rfl, hsize⟩, _, rfl⟩

theorem Inv.renoted (h : Inv aim w m trail)
    (hkept : ∀ site ∉ sites, notes.siteNote homes site = m.notes.siteNote trail.homes site)
    (hsites : ∀ site ∈ sites, w.known ≤ (site : Nat) ∧ (site : Nat) < l) (hknown : w.known ≤ l) :
    w.le .unit { w with known := l, noted := notes.siteNote homes } ∧
      Inv aim { w with known := l, noted := notes.siteNote homes } { m with notes, records } { trail with homes } := by
  rw [h.noted] at hkept
  have hle : w.le .unit { w with known := l, noted := notes.siteNote homes } :=
    ⟨hknown, fun site hsite => hkept site fun hmem => absurd (hsites site hmem).1 (Nat.not_le.mpr hsite),
      List.prefix_rfl, List.prefix_rfl, List.prefix_rfl, List.prefix_rfl, List.prefix_rfl,
      fun hunit => absurd rfl hunit, nofun⟩
  refine ⟨hle, { h with
    noted := rfl
    fresh := fun hlooks site hsite => ?_
    framed := { h.framed with }
    functions := fun ref f hf => World.callable_later hle (h.functions ref f hf)
    classes_good := fun entry hentry => World.classGood_later hle (h.classes_good entry hentry)
    held := World.holds_later hle { h.held with } }⟩
  show (notes.siteNote homes site).place = none ∧ (notes.siteNote homes site).size = none
  rw [hkept site fun hmem => absurd (hsites site hmem).2 (Nat.not_lt.mpr hsite)]
  exact h.fresh hlooks site (Nat.le_trans hknown hsite)

theorem Inv.widened (h : Inv aim w m trail) (hknown : w.known ≤ l) :
    Inv aim { w with known := l, noted := m.notes.siteNote trail.homes } m trail :=
  have hnone : ∀ site ∈ ([] : List Site), w.known ≤ (site : Nat) ∧ (site : Nat) < l := nofun
  (h.renoted (fun _ _ => rfl) hnone hknown).2

theorem Inv.placed (h : Inv aim w m trail) (hp : UnitPlaced w.names m.notes trail.homes sites s homes)
    (hsites : ∀ site ∈ sites, w.known ≤ (site : Nat) ∧ (site : Nat) < l) (hknown : w.known ≤ l) :
    let v : World := { w with known := l, noted := s.notes.siteNote homes, names := s.scope.outermostNames }
    w.le .unit v ∧ Inv aim v (m.placed s) { trail with homes } := by
  let v : World := { w with known := l, noted := s.notes.siteNote homes }
  have hlater : w.le .unit v ∧ Inv aim v (m.laidOut s) { trail with homes } := h.renoted hp.kept hsites hknown
  obtain ⟨hle, hinv⟩ := hlater
  have hheld : Frames.Hold (v.Good aim) (m.withGlobalNames s.scope.outermostNames).frames :=
    hinv.held.frames.modify _ fun frame hframe => by cases frame <;> exact hframe
  have hunit : Extent.unit ≠ .within := nofun
  obtain ⟨hle', hinv'⟩ := hinv.modified_top hunit rfl hp.globals hheld
  exact ⟨hle.trans hle', hinv'⟩

/-! ## Definitions -/

theorem Inv.bound_top (h : Inv aim w m trail) (htop : extent ≠ .within) (hvalue : w.Good aim value)
    (slot : Option Nat) (name : Text) :
    ∃ m' v, m.bound Machine.globalEnv slot name value = .ok m' ∧ w.le extent v ∧ Inv aim v m' trail := by
  cases slot with
  | none =>
    obtain ⟨v, hle, hinv⟩ := h.bound w.fits_opened (fun hwithin => absurd hwithin htop) hvalue name
    exact ⟨_, v, rfl, hle, hinv⟩
  | some index =>
    obtain ⟨v, hle, hinv⟩ := h.write_top htop hvalue index
    exact ⟨_, v, by simp only [Machine.bound, h.slotOwner_top index], hle, hinv⟩

/-- What is left of a step of the machine: it is as some world says in which no site from `l` on is known, and
a failure is one that the aim admits. -/
def Settled (aim : Aim) (l : Nat) (trail : Trail) {α : Type} : EStateM.Result Failure Machine α → Prop :=
  Coupling.Ended (fun m => ∃ w : World, w.known ≤ l ∧ Inv aim w m trail) (fun _ => True) aim.Admits

variable {site : Site} {layout : Layout} {members : List Node}

theorem settled_define (h : Inv aim w m trail) (hknown : w.known ≤ l)
    (hfits : w.Fits Machine.globalEnv c) (hsized : w.Sized aim c site params c')
    (hbody : AllEvery (w.Placed aim) (w.Sized aim) c' body) (title : Label) (line : Int) :
    Settled aim l (trail.after m (.define Machine.globalEnv site title params body))
      (Actions.machine.define Machine.globalEnv site title params body line m) := by
  have htop : Extent.top ≠ .within := nofun
  obtain ⟨m₁, v, hmade, hle, hinv⟩ := h.makeFunction hfits hsized hbody title.text
  have hgood : v.Good aim (.function m.functions.size) := trivial
  obtain ⟨m₂, v', hbound, hle', hinv'⟩ := hinv.bound_top htop hgood (m₁.notes.slots.get? site)
    title.text
  have hbind : Run.bind Machine.globalEnv (m₁.notes.slots.get? site) title.text (.function m.functions.size) line
      m₁ = .ok () m₂ := by rw [Run.bind_eq, hbound]
  have hdefine : Actions.machine.define Machine.globalEnv site title params body line m
      = .ok (.string title.text) m₂ :=
    bind_eq_ok.mpr ⟨_, m₁, hmade, bind_eq_ok.mpr ⟨m₁, m₁, rfl, bind_eq_ok.mpr ⟨(), m₂, hbind, rfl⟩⟩⟩
  rw [hdefine]
  refine ⟨⟨v', ?_, hinv'⟩, trivial⟩
  rw [hle'.settled nofun, (hle .top).settled nofun]
  exact hknown

/-! ## Classes -/

theorem World.methodGood_extends (h : layout.Extends base) (hd : w.MethodGood aim base d) :
    w.MethodGood aim layout d := by
  obtain ⟨c, globals, t, hhas, rest⟩ := hd
  exact ⟨c, globals, t, h.has hhas, rest⟩

theorem Inv.baseGood (h : Inv aim w m trail) (base : Option Nat) :
    ((m.baseLayout base).getD .empty).Full ∧
      (∀ d ∈ ((m.baseLayout base).getD .empty).definitions,
        w.MethodGood aim ((m.baseLayout base).getD .empty) d) ∧
      ∀ ref ∈ m.parentsOf base, ∃ entry, w.classes[ref]? = some entry ∧
        ((m.baseLayout base).getD .empty).Extends entry.2.layout := by
  unfold Machine.baseLayout Machine.parentsOf
  cases base with
  | none => exact ⟨rfl, nofun, nofun⟩
  | some ref =>
    rw [Option.bind_some]
    cases hc : m.classes[ref]? with
    | none => exact ⟨rfl, nofun, nofun⟩
    | some c =>
      rw [h.class?] at hc
      obtain ⟨entry, hentry, rfl⟩ := Option.map_eq_some_iff.mp hc
      have hgood := h.classes_good entry (List.mem_of_getElem? hentry)
      exact ⟨hgood.full, hgood.methods, List.forall_mem_cons.mpr ⟨⟨entry, hentry, .refl _⟩, hgood.parents⟩⟩

theorem World.classGood_of_members (henv : c.env = Machine.globalEnv) (hextends : c.layout.Extends base)
    (hfull : c.layout.Full) (hbase : ∀ d ∈ base.definitions, w.MethodGood aim base d)
    (hfrom : ∀ d ∈ c.layout.definitions, d ∈ base.definitions ∨ d.toNode ∈ c.members)
    (hsites : ∀ site ∈ allSites c.members, w.Knows aim site) (hmembers : ∀ member ∈ c.members,
      Members.Placed aim w.noted ⟨site, c.layout.fields, c.layout.methods⟩ w.names member)
    (hparents : ∀ ref ∈ c.parents, ∃ entry, w.classes[ref]? = some entry ∧ base.Extends entry.2.layout) :
    w.ClassGood aim site c := by
  have hinside : ∀ {member : Node}, member ∈ c.members → ∀ site ∈ member.sites, w.Knows aim site :=
    fun hmem site hsite => hsites site (mem_allSites.mpr ⟨_, hmem, hsite⟩)
  have hown : c.layout.Has ⟨site, c.layout.fields, c.layout.methods⟩ := ⟨List.prefix_rfl, List.prefix_rfl⟩
  constructor
  case env => exact henv
  case full => exact hfull
  case methods =>
    intro d hd
    rcases hfrom d hd with hold | hmem
    · exact World.methodGood_extends hextends (hbase d hold)
    · have hplaced := hmembers _ hmem
      have hnode : Definition.ofNode? d.toNode = some d := rfl
      unfold Members.Placed at hplaced
      rw [hnode] at hplaced
      obtain ⟨t, htable, hbody⟩ := hplaced
      have hknown := hinside hmem
      simp only [Definition.toNode, Node.sites, List.mem_append] at hknown
      exact ⟨_, w.names, t, hown, List.prefix_rfl, (hknown _ (.inr (by simp))).1, htable,
        World.allEvery_of_placed (fun site hsite => hknown site (.inl (.inr hsite))) hbody⟩
  case initializers =>
    intro member hmem hnone
    have hplaced := hmembers member hmem
    unfold Members.Placed at hplaced
    rw [hnone] at hplaced
    exact ⟨_, w.names, rfl, hown, List.prefix_rfl, World.every_of_placed (hinside hmem) hplaced⟩
  case parents =>
    intro ref href
    obtain ⟨entry, hentry, hbelow⟩ := hparents ref href
    exact ⟨entry, hentry, hextends.trans hbelow⟩

theorem Inv.classes_size (h : Inv aim w m trail) : m.classes.size = w.classes.length := by
  rw [← Array.length_toList, h.classes, List.length_map]

theorem Inv.classMarked (h : Inv aim w m trail) (site : Site) :
    Inv aim w m { trail with classes := trail.classes.set m.classes.size site } := by
  have hsize := h.classes_size
  refine { h with framed := { h.framed with }, class_sites := fun ref entry hentry => ?_ }
  have hlt : ref < w.classes.length := (List.getElem?_eq_some_iff.mp hentry).1
  rw [SiteMap.get?_set, if_neg (by omega)]
  exact h.class_sites ref entry hentry

theorem Inv.withClass (h : Inv aim w m trail)
    (hgood : w.ClassGood aim site ⟨m.nextClass, title, parents, layout, members, Machine.globalEnv⟩) :
    ∃ v : World, v.known = w.known ∧ Inv aim v (m.withClass title parents layout members Machine.globalEnv)
      { trail with classes := trail.classes.set m.classes.size site } := by
  let c : Class := ⟨m.nextClass, title, parents, layout, members, Machine.globalEnv⟩
  let v : World := { w with classes := w.classes ++ [(site, c)] }
  have hprefix : w.classes <+: v.classes := List.prefix_append ..
  have hle : w.le .within v := ⟨Nat.le_refl _, fun _ _ => rfl, List.prefix_rfl, List.prefix_rfl,
    List.prefix_rfl, hprefix, List.prefix_rfl, fun _ => rfl, fun _ => ⟨rfl, rfl⟩⟩
  have hsize := h.classes_size
  have hmarked := h.classMarked site
  refine ⟨v, rfl, { h with
    framed := { h.framed with }
    functions := fun ref f hf => World.callable_later hle (h.functions ref f hf)
    classes := ?_
    classes_good := ?_
    class_sites := fun ref entry hentry => ?_
    fields := fun o ho => ?_
    held := World.holds_later hle { h.held with } }⟩
  · show (m.classes.push c).toList = (w.classes ++ [(site, c)]).map Prod.snd
    rw [Array.toList_push, h.classes, List.map_append]
    rfl
  · exact List.forall_mem_append.mpr ⟨fun entry hold => World.classGood_later hle (h.classes_good entry hold),
      List.forall_mem_singleton.mpr (World.classGood_later hle hgood)⟩
  · by_cases hlt : ref < w.classes.length
    · rw [List.getElem?_append_left hlt] at hentry
      exact hmarked.class_sites ref entry hentry
    · obtain ⟨hbound, hlast⟩ := List.getElem?_eq_some_iff.mp hentry
      have href : ref = w.classes.length := by
        simp only [v, List.length_append, List.length_cons, List.length_nil] at hbound
        omega
      subst href
      rw [hsize, SiteMap.get?_set, if_pos rfl, ← hlast]
      simp [v]
  · obtain ⟨entry, hentry, hfields⟩ := h.fields o ho
    exact ⟨entry, getElem?_of_isPrefix hprefix hentry, hfields⟩

theorem Inv.bindClass (h : Inv aim w m trail)
    (hgood : w.ClassGood aim site ⟨m.nextClass, title, parents, layout, members, Machine.globalEnv⟩)
    (slot : Option Nat) :
    ∃ (m' : Machine) (v : World), (m.withClass title parents layout members Machine.globalEnv).bound
        Machine.globalEnv slot title (.classValue m.classes.size) = .ok m' ∧ v.known = w.known ∧
      Inv aim v m' { trail with classes := trail.classes.set m.classes.size site } := by
  have htop : Extent.top ≠ .within := nofun
  obtain ⟨v, hknown, hinv⟩ := h.withClass hgood
  have hvalue : v.Good aim (.classValue m.classes.size) := trivial
  obtain ⟨m', v', hbound, hle, hinv'⟩ := hinv.bound_top htop hvalue slot title
  exact ⟨m', v', hbound, (hle.settled nofun).trans hknown, hinv'⟩

theorem isAddress_superclass (h : m.superclass env parent = .error cause) : cause.isAddress = false := by
  unfold Machine.superclass at h
  split at h
  · cases h
  · cases h
  · split at h <;> cases h <;> rfl

theorem admits_tooDeep (h : ∃ pass limit line, e = .atLine (.tooDeep pass limit) line) : aim.Admits e := by
  obtain ⟨pass, limit, line, rfl⟩ := h
  exact Aim.admits_atLine (fun _ => rfl) line

theorem settled_defineClass (h : Inv aim w m trail) (hknown : w.known ≤ l)
    (hmembers : ∀ member ∈ members, member.IsMember) (hasks : ∀ member ∈ members, aim.AsksMember member)
    (hsites : (allSites members).Nodup) (hheeds : ∀ a ∈ allSites members, ∀ b, aim.follows a b → MembersReread members a b)
    (hwithin : ∀ site ∈ allSites members, w.known ≤ (site : Nat) ∧ (site : Nat) < l) (site : Site) (title : Label)
    (parent : Option Label) (line : Int) :
    Settled aim l (trail.after m (.defineClass Machine.globalEnv site title parent members))
      (Run.defineClass Machine.globalEnv site title parent members line m) := by
  rcases Run.defineClass_cases Machine.globalEnv site title parent members line m with
    ⟨cause, hsuper, hresult⟩ | ⟨base, hsuper, hcases⟩
  · have htrail : trail.after m (.defineClass Machine.globalEnv site title parent members) = trail := by
      simp only [Trail.after, hsuper]
    rw [hresult, htrail]
    exact ⟨⟨w, hknown, h⟩, Aim.admits_atLine (fun _ => isAddress_superclass hsuper) line⟩
  · let settings : ResolveSettings := ⟨m.settings.maxDepth, m.settings.watched⟩
    let below : Layout := (m.baseLayout base).getD .empty
    let homes := homesOfClass settings site members below m.globalNames m.notes trail.homes
    obtain ⟨s, hkept, hlaid⟩ := layOutClass_placed settings title.text site hmembers hasks hsites below
      m.globalNames m.notes trail.homes
    let v : World := { w with known := l, noted := s.notes.siteNote homes }
    have hlater : w.le .unit v ∧ Inv aim v (m.laidOut s) { trail with homes } := h.renoted hkept hwithin hknown
    obtain ⟨hle, hinv⟩ := hlater
    have htrail : trail.after m (.defineClass Machine.globalEnv site title parent members)
        = { trail with homes, classes := trail.classes.set m.classes.size site } := by
      simp only [Trail.after, hsuper]
      rfl
    rw [htrail]
    rcases hcases with ⟨e, s', hclass, hresult⟩ | ⟨layout, s', made, hclass, rfl, hbound⟩
    · -- the body cannot be placed
      have hlay : layOutClass settings title.text members below (.start m.globalNames m.notes) = .error e s' := hclass
      rw [hlay] at hlaid
      obtain rfl : s' = s := by
        rcases hlaid with ⟨_, heq⟩ | ⟨_, heq, -⟩ <;> cases heq
        rfl
      rw [hresult]
      exact ⟨⟨v, Nat.le_refl l, hinv.classMarked site⟩, admits_tooDeep ((Resolve.ends_layOutClass _ _ _ _).tooDeep hlay)⟩
    · have hlay : layOutClass settings title.text members below (.start m.globalNames m.notes) = .ok layout s' := hclass
      rw [hlay] at hlaid
      rcases hlaid with ⟨_, heq⟩ | ⟨_, heq, hextends, hfull, hfrom, hplaced⟩ <;> cases heq
      obtain ⟨hbaseFull, hbaseMethods, hparents⟩ := h.baseGood base
      have hnames : m.globalNames = v.names := h.globalNames
      have hgood : v.ClassGood aim site
          ⟨m.nextClass, title.text, m.parentsOf base, layout, members, Machine.globalEnv⟩ :=
        World.classGood_of_members rfl hextends (hfull hbaseFull)
          (fun d hd => World.methodGood_later hle (hbaseMethods d hd)) hfrom
          (fun a ha => ⟨(hwithin a ha).2, fun b hab =>
            have hpair := hheeds a ha b hab
            ⟨(hwithin b hpair.mem_sites.2).2, place_reread_members hlay rfl hsites hpair⟩⟩)
          (fun member hmem => hnames ▸ hplaced member hmem) hparents
      obtain ⟨m₂, v₂, hdone, hknown₂, hinv₂⟩ := hinv.bindClass hgood (s.notes.slots.get? site)
      rcases hbound with ⟨cause, hfailed, -⟩ | ⟨bound, record, hbound, hresult⟩
      · cases hdone.symm.trans hfailed
      · cases hdone.symm.trans hbound
        rw [hresult, Machine.note_eq]
        refine ⟨⟨v₂, Nat.le_of_eq hknown₂, ?_⟩, trivial⟩
        exact hinv₂.stepped ⟨⟨rfl, rfl, rfl, rfl, rfl⟩, rfl, rfl, rfl⟩ { hinv₂.held with }

/-! ## Evaluation of a unit -/

/-- A unit that can be evaluated: its names have been placed or are left to be looked up, and the sites in the
body of a class are new, up to `l`. -/
inductive Ready (aim : Aim) (l : Nat) (w : World) : Node → Prop where
  | plain {unit : Node} {c : Index} (fits : w.Fits Machine.globalEnv c)
      (code : unit.Every (w.Placed aim) (w.Sized aim) c) : Ready aim l w unit
  | definition {site : Site} {title : Label} {params : List Label} {body : List Node} {c : Index} (inner : Index)
      (fits : w.Fits Machine.globalEnv c) (sized : w.Sized aim c site params inner)
      (code : AllEvery (w.Placed aim) (w.Sized aim) inner body) : Ready aim l w (.definition site title params body)
  | classDefinition {site : Site} {title : Label} {parent : Option Label} {members : List Node}
      (members_ok : ∀ member ∈ members, member.IsMember) (asks : ∀ member ∈ members, aim.AsksMember member)
      (nodup : (allSites members).Nodup) (heeds : ∀ a ∈ allSites members, ∀ b, aim.follows a b → MembersReread members a b)
      (within : ∀ site ∈ allSites members, w.known ≤ (site : Nat) ∧ (site : Nat) < l) :
      Ready aim l w (.classDefinition site title parent members)

/-- The state is as some world says in which no site from `l` on is known, and all that has been written down
is as it should be. -/
def Sound (aim : Aim) (l : Nat) (s : Observed) : Prop :=
  ∃ w : World, w.known ≤ l ∧ Inv aim w s.machine s.trail ∧ Logged aim s

/-- The computation has ended in a sound state, and a failure is one that the aim admits. -/
def SoundlyEnded (aim : Aim) (l : Nat) {α : Type} : EStateM.Result Failure Observed α → Prop :=
  Coupling.Ended (Sound aim l) (fun _ => True) aim.Admits

section
variable {s : Observed} {α : Type}

theorem soundlyEnded_asking (hinv : Inv aim w s.machine s.trail) (hlogged : Logged aim s)
    (hfair : aim.Fair ⟨request, s.machine, s.trail⟩)
    (h : Settled aim l (s.trail.after s.machine request) (x s.machine)) :
    SoundlyEnded aim l (Observed.asking request x s) := by
  have hlog := hlogged.answered hinv hfair
  unfold Observed.asking
  generalize x s.machine = result at h
  cases result with
  | ok a m | error e m =>
    obtain ⟨⟨w, hknown, hinv⟩, hends⟩ := h
    exact ⟨⟨w, hknown, hinv, hlog m⟩, hends⟩

theorem soundlyEnded_evaluated (h : SoundlyEnded aim l x) :
    SoundlyEnded aim l (onState (s.evaluated Machine.globalEnv) x) := by
  have hsound : ∀ s', Sound aim l s' → Sound aim l (s.evaluated Machine.globalEnv s') := by
    rintro s' ⟨w, hknown, hinv, hlogged⟩
    exact ⟨w, hknown, hinv, { hlogged with
      evaluations := List.forall_mem_cons.mpr ⟨fun hne => absurd rfl hne, hlogged.evaluations⟩ }⟩
  exact (h.imp hsound (fun _ => id) fun _ => id).onState

theorem soundlyEnded_evaluate (hready : Ready aim l w unit) (hknown : w.known ≤ l)
    (hinv : Inv aim w s.machine s.trail) (hlogged : Logged aim s) (levels : Nat) :
    SoundlyEnded aim l (Observed.evaluate levels unit Machine.globalEnv s) := by
  have hsound : Sound aim l s := ⟨w, hknown, hinv, hlogged⟩
  cases hready with
  | plain fits code =>
    have houtcome := sim_evaluate aim levels w unit Machine.globalEnv ⟨_, ⟨fits, nofun⟩, code⟩ s s
      ⟨rfl, hinv, hlogged⟩
    generalize Observed.evaluate levels unit Machine.globalEnv s = result at houtcome
    cases houtcome with
    | ok v hle related holds => exact ⟨⟨v, by rwa [hle.settled nofun], related.2⟩, trivial⟩
    | error v hle related admitted => exact ⟨⟨v, by rwa [hle.settled nofun], related.2⟩, admitted⟩
  | @definition site title params body c inner fits sized code =>
    cases levels with
    | zero => exact soundlyEnded_evaluated (x := .error _ s) ⟨hsound, Aim.admits_atLine (fun _ => rfl) _⟩
    | succ levels =>
      exact soundlyEnded_evaluated (soundlyEnded_asking hinv hlogged trivial
        (settled_define hinv hknown fits sized code title _))
  | @classDefinition site title parent members members_ok asks nodup heeds within =>
    cases levels with
    | zero => exact soundlyEnded_evaluated (x := .error _ s) ⟨hsound, Aim.admits_atLine (fun _ => rfl) _⟩
    | succ levels =>
      exact soundlyEnded_evaluated (soundlyEnded_asking hinv hlogged trivial
        (settled_defineClass hinv hknown members_ok asks nodup heeds within site title parent _))

end

/-! ## Getting ready -/

theorem allSites_sublist_class (site : Site) (title : Label) (parent : Option Label) (members : List Node) :
    (allSites members).Sublist (Node.classDefinition site title parent members).sites :=
  (List.sublist_append_right (title.sites ++ labelSites parent.toList) _).trans (List.sublist_append_left ..)

section
variable {unit : Node} (hunit : unit.IsUnit) (hasks : aim.Asks unit) (hheeds : aim.Heeds unit) (hnodup : unit.sites.Nodup)
  (hwithin : ∀ site ∈ unit.sites, w.known ≤ (site : Nat) ∧ (site : Nat) < l)

include hheeds hnodup hwithin

theorem World.knows_resolved (hrow : ∀ a b, unit.Rereads a b → RowRereads [unit] a b)
    (h : resolve settings unit globals notes = .ok () s) (ha : a ∈ unit.sites) :
    World.Knows aim { w with known := l, noted := s.notes.siteNote homes, names := s.scope.outermostNames } a := by
  refine ⟨(hwithin a ha).2, fun b hab => ?_⟩
  have hpair := hheeds a ha b hab
  exact ⟨(hwithin b hpair.mem_sites.2).2, place_reread h (Scope.assigns_globals globals) hnodup (hrow a b hpair)⟩

include hunit hasks

theorem Inv.ready_of_placed (h : Inv aim w m trail) (hknown : w.known ≤ l) :
    ∃ v : World, v.known ≤ l ∧
      Inv aim v (finalState (Run.placeNames unit m)) (trail.after m (.placeNames unit)) ∧
      ∀ m', Run.placeNames unit m = .ok () m' → Ready aim l v unit := by
  let settings : ResolveSettings := ⟨m.settings.maxDepth, m.settings.watched⟩
  have hok : ∀ m', Run.placeNames unit m = .ok () m' →
      resolve settings unit w.names m.notes = .ok () (finalState (resolve settings unit w.names m.notes)) := by
    intro m' hplaced
    rw [Run.placeNames_eq, h.globalNames] at hplaced
    obtain ⟨s, hres, -⟩ := onState_eq_ok.mp hplaced
    rw [show resolve settings unit w.names m.notes = _ from hres]
    rfl
  have htrail : trail.after m (.placeNames unit)
      = { trail with homes := homesOfUnit settings unit w.names m.notes trail.homes } := by
    rw [← h.globalNames]
    rfl
  have hfinal : finalState (Run.placeNames unit m) = m.placed (finalState (resolve settings unit w.names m.notes)) := by
    rw [Run.placeNames_eq, finalState_onState, h.globalNames]
  rw [hfinal, htrail]
  rcases hunit with hplain | ⟨site, title, params, body, rfl, hplain⟩ | ⟨site, title, parent, members, rfl, hmembers⟩
  · obtain ⟨hp, hcode⟩ := resolve_plain settings hplain (Aim.every_of_asks hplain hasks) hnodup w.names m.notes
      trail.homes
    obtain ⟨-, hinv⟩ := h.placed hp hwithin hknown
    refine ⟨_, Nat.le_refl l, hinv, fun m' hplaced => ?_⟩
    have hrow : ∀ a b, unit.Rereads a b → RowRereads [unit] a b := by
      cases unit with
      | classDefinition => simp [Node.Plain, Node.Every, Use.isPlain] at hplain
      | _ => exact fun _ _ => id
    exact .plain (World.fits_global _ List.prefix_rfl) (World.every_of_placed
      (fun site => World.knows_resolved hheeds hnodup hwithin hrow (hok m' hplaced)) (hcode _ (hok m' hplaced)))
  · have hsub : ∀ other ∈ allSites body ++ [site], other ∈ (Node.definition site title params body).sites := by
      intro other hother
      simp only [Node.sites, List.mem_append] at hother ⊢
      exact hother.imp_left .inr
    obtain ⟨hp, hcode⟩ := resolve_definition settings title hplain hasks
      (hnodup.sublist (by simp [Node.sites])) w.names m.notes trail.homes
    obtain ⟨-, hinv⟩ := h.placed hp (fun other hother => hwithin other (hsub other hother)) hknown
    refine ⟨_, Nat.le_refl l, hinv, fun m' hplaced => ?_⟩
    obtain ⟨inner, hsized, hbody⟩ := hcode _ (hok m' hplaced)
    refine .definition (.placed inner) (World.fits_global _ List.prefix_rfl)
      ⟨(hwithin site (hsub site (by simp))).2, hsized⟩ (World.allEvery_of_placed (fun other hother => ?_) hbody)
    exact World.knows_resolved hheeds hnodup hwithin (fun _ _ => id) (hok m' hplaced) (hsub other (by simp [hother]))
  · have hsub := allSites_sublist_class site title parent members
    have hp := resolve_class settings site title parent members w.names m.notes trail.homes
    obtain ⟨-, hinv⟩ := h.placed hp (by simp) (Nat.le_refl w.known)
    refine ⟨_, ?_, hinv, fun m' hplaced => ?_⟩
    · exact hknown
    · exact .classDefinition hmembers hasks (hnodup.sublist hsub) (fun a ha => hheeds a (hsub.subset ha))
        fun other hother => hwithin other (hsub.subset hother)

theorem Inv.ready_of_fresh (h : Inv aim w m trail) (hknown : w.known ≤ l)
    (hlooks : m.settings.placesNames = false) :
    ∃ v : World, v.known ≤ l ∧ Inv aim v m trail ∧ Ready aim l v unit := by
  have hinv := h.widened hknown
  have hnone : ∀ site ∈ unit.sites, (m.notes.siteNote trail.homes site).place = none ∧
      (m.notes.siteNote trail.homes site).size = none := by
    intro site hsite
    rw [h.noted]
    exact h.fresh hlooks site (hwithin site hsite).1
  have hfresh : ∀ site ∈ unit.sites, World.Knows aim { w with known := l, noted := m.notes.siteNote trail.homes } site ∧
      (m.notes.siteNote trail.homes site).place = none ∧ (m.notes.siteNote trail.homes site).size = none := by
    refine fun a ha => ⟨⟨(hwithin a ha).2, fun b hab => ?_⟩, hnone a ha⟩
    have hb := (hheeds a ha b hab).mem_sites.2
    exact ⟨(hwithin b hb).2, (hnone b hb).1.trans (hnone a ha).1.symm⟩
  rcases hunit with hplain | ⟨site, title, params, body, rfl, hplain⟩ | ⟨site, title, parent, members, rfl, hmembers⟩
  · exact ⟨_, Nat.le_refl l, hinv, .plain (World.fits_opened _) (World.every_of_fresh hplain hfresh)⟩
  · have hsite := hfresh site (by simp [Node.sites])
    refine ⟨_, Nat.le_refl l, hinv, .definition (.opened 1) (World.fits_opened _)
      ⟨hsite.1.1, rfl, hsite.2.2⟩ ?_⟩
    rw [allEvery_iff]
    intro n hn
    refine World.every_of_fresh (hplain n hn) fun other hother => hfresh other ?_
    have hmem : other ∈ allSites body := mem_allSites.mpr ⟨n, hn, hother⟩
    simp [Node.sites, hmem]
  · have hsub := allSites_sublist_class site title parent members
    exact ⟨w, hknown, h, .classDefinition hmembers hasks (hnodup.sublist hsub) (fun a ha => hheeds a (hsub.subset ha))
      fun other hother => hwithin other (hsub.subset hother)⟩

end

/-! ## Units -/

variable {k : Nat} {s : Observed} {unit : Node}

theorem admits_of_placeNames (h : Run.placeNames unit m = .error e m') : aim.Admits e := by
  rw [Run.placeNames_eq] at h
  obtain ⟨s, hres, -⟩ := onState_eq_error.mp h
  exact admits_tooDeep ((Resolve.ends_visitWithin _ _ unit).tooDeep hres)

theorem soundlyEnded_runUnit (hs : Sound aim k s) (hunit : unit.IsUnit) (hasks : aim.Asks unit) (hheeds : aim.Heeds unit) (hkl : k ≤ l)
    (hsites : Ascending k l unit.sites) : SoundlyEnded aim l (Observed.runUnit unit s) := by
  obtain ⟨w, hwk, hinv, hlogged⟩ := hs
  have hknown : w.known ≤ l := Nat.le_trans hwk hkl
  have hwithin : ∀ site ∈ unit.sites, w.known ≤ (site : Nat) ∧ (site : Nat) < l := fun site hsite =>
    ⟨Nat.le_trans hwk (hsites.within site hsite).1, (hsites.within site hsite).2⟩
  have hlook : Observed.look Machine.settings s = .ok s.machine.settings s := rfl
  unfold Observed.runUnit
  rw [bind_of_ok hlook]
  by_cases hplaces : s.machine.settings.placesNames = true
  · rw [if_pos hplaces]
    obtain ⟨v, hvl, hinv', hready⟩ := hinv.ready_of_placed hunit hasks hheeds hsites.nodup hwithin hknown
    have hlog := @Logged.answered _ _ _ (.placeNames unit) hlogged hinv trivial
    rw [bind_apply]
    unfold Observed.asking
    cases hres : Run.placeNames unit s.machine with
    | ok _ m =>
      rw [hres] at hinv'
      exact soundlyEnded_evaluate (hready m hres) hvl hinv' (hlog m) _
    | error e m =>
      rw [hres] at hinv'
      exact ⟨⟨v, hvl, hinv', hlog m⟩, admits_of_placeNames hres⟩
  · rw [if_neg hplaces]
    obtain ⟨v, hvl, hinv', hready⟩ := hinv.ready_of_fresh hunit hasks hheeds hsites.nodup hwithin hknown
      (Bool.eq_false_iff.mpr hplaces)
    exact soundlyEnded_evaluate hready hvl hinv' hlogged _

theorem sound_execute (hs : Sound aim k s) (hunit : unit.IsUnit) (hasks : aim.Asks unit) (hheeds : aim.Heeds unit) (hkl : k ≤ l)
    (hsites : Ascending k l unit.sites) : Sound aim l (finalState (Observed.execute unit s)) := by
  have hstart : Sound aim k (s.executing unit) := by
    obtain ⟨w, hknown, hinv, hlogged⟩ := hs
    exact ⟨w, hknown, hinv, { hlogged with }⟩
  have hrun := soundlyEnded_runUnit hstart hunit hasks hheeds hkl hsites
  refine (Observed.ended_execute hrun fun e s' hs' hadmits => ?_).state
  obtain ⟨w, hknown, hinv, hlogged⟩ := hs'
  exact ⟨w, hknown, hinv, { hlogged with failures := List.forall_mem_cons.mpr ⟨hadmits, hlogged.failures⟩ }⟩

end StoneLang.Addresses
