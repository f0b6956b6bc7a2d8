/-
  Units in two modes.

  A unit is placed and then evaluated in one mode, and only evaluated in the other.  What placing it notes
  is said first, for the three kinds of unit (`resolve_plain`, `resolve_definition`, `resolve_class`);
  from related machines the unit then has the same value or the same failure in both, and leaves related
  machines (`sim_execute`).
-/
import StoneLang.Proofs.Modes.Evaluation

namespace StoneLang.Modes

open Coupling

/-! ## What placing a unit notes -/

def OpenNoted (globals : List Text) (notes : Notes) (chain : Chain) (u : Use) : Prop :=
  u.isPlain ∧ OpenPlaced chain globals (notes.places.get? u.site) u

/-- A function outside class bodies has been given its size. -/
def OpenSized (notes : Notes) (chain : Chain) (site : Site) (params : List Label) (inner : Chain) : Prop :=
  OpenInner chain site params inner ∧ notes.sizes.get? site = some params.length

/-- What is left after a unit has been placed: it may have declared globals and made notes at `sites`. -/
structure UnitPlaced (globals : List Text) (notes : Notes) (sites : List Site) (globals' : List Text)
    (s : Resolving) : Prop where
  scope : s.scope = [⟨.globals, globals'⟩]
  grow : GlobalsGrow globals globals'
  caches : s.notes.caches = notes.caches
  kept : ∀ site ∉ sites, s.notes.places.get? site = notes.places.get? site ∧
    s.notes.sizes.get? site = notes.sizes.get? site

section
variable {settings : ResolveSettings} {before notes : Notes} {globals : List Text} {s : Resolving}

theorem every_of_open (hglobals : l.2 <+: globals')
    (h : (openPlacing settings before).Known ((openPlacing settings before).note · s s) k l node) :
    node.Every (OpenNoted globals' s.notes) (OpenSized s.notes) k.1 := by
  refine Node.Every.mono (R := fun (c : (Chain × List Text) × (Chain × List Text)) chain =>
      chain = c.1.1 ∧ c.2.2 <+: globals') (S := fun _ => True) ?_ ?_ node (k, l) k.1 ⟨rfl, hglobals⟩
      (fun _ _ => trivial) h
  · rintro c _ u ⟨rfl, hle⟩ _ ⟨-, hplain, hplaced⟩
    exact ⟨hplain, hplaced.later hle⟩
  · rintro c _ site params c' ⟨rfl, hle⟩ _ ⟨hinner, hsame, hle', hsize⟩
    exact ⟨c'.1.1, ⟨hinner, hsize⟩, rfl, hle'.trans hle⟩

theorem resolve_plain (hunit : unit.Every PlainUse OpenInner []) (hsites : unit.sites.Nodup)
    (h : resolve settings unit globals notes = .ok () s) :
    ∃ globals', UnitPlaced globals notes unit.sites globals' s ∧
      unit.Every (OpenNoted globals' s.notes) (OpenSized s.notes) [] := by
  have hstep := (openPlacing settings notes).inStep settings settings.maxDepth unit [] ([], globals)
    (.start globals notes) (.start globals notes) ⟨rfl, rfl, rfl, rfl⟩ rfl hsites hunit
  rw [ScopeActions.visitWithin_resolver] at hstep
  have hres : visitWithin settings settings.maxDepth unit (.start globals notes) = .ok () s := h
  rw [hres] at hstep
  cases hstep with
  | ok l grown related kept holds =>
    obtain ⟨chain, globals'⟩ := l
    obtain ⟨rfl, hgrow⟩ := grown
    obtain ⟨-, hscope, hslots⟩ := related
    refine ⟨globals', ⟨hscope, hgrow, hslots.2, fun site hsite => ?_⟩, every_of_open List.prefix_rfl holds⟩
    have hnote := kept site hsite
    exact ⟨congrArg Prod.fst hnote, congrArg Prod.snd hnote⟩

theorem exists_level (h : resolve settings unit globals notes = .ok () s) : ∃ levels, settings.maxDepth = levels + 1 ∧
    ScopeActions.visitWithin (.resolver settings) settings (levels + 1) unit (.start globals notes) = .ok () s := by
  rw [resolve, visit, ← ScopeActions.visitWithin_resolver] at h
  cases hdepth : settings.maxDepth with
  | zero =>
    rw [hdepth] at h
    cases h
  | succ levels => exact ⟨levels, rfl, hdepth ▸ h⟩

theorem resolve_definition
    (htitle : ¬ Native.IsStandardName title.text) (hparams : (params.map Label.text).Nodup)
    (hbody : AllEvery PlainUse OpenInner [params.map Label.text] body)
    (hsites : (Node.definition site title params body).sites.Nodup)
    (h : resolve settings (.definition site title params body) globals notes = .ok () s) :
    ∃ slot globals', UnitPlaced globals notes (allSites body ++ [site]) globals' s ∧
      globals'.idxOf? title.text = some slot ∧ s.notes.slots.get? site = some slot ∧
      OpenSized s.notes [] site params [params.map Label.text] ∧
      AllEvery (OpenNoted globals' s.notes) (OpenSized s.notes) [params.map Label.text] body := by
  obtain ⟨slot, declared, hput, hslot, hgrow⟩ := GlobalsGrow.put globals htitle
  obtain ⟨levels, -, hvisit⟩ := exists_level h
  -- the name is declared first, then the body is visited
  have hsub : (allSites body ++ [site]).Nodup := hsites.sublist (by simp [Node.sites])
  let noted : Notes := { notes with slots := notes.slots.set site slot }
  let L := openPlacing settings noted
  have hrel : L.related ([], declared) (.start declared noted) (.start declared noted) := ⟨rfl, rfl, rfl, rfl⟩
  have hsuits : L.suits [] ([], declared) := rfl
  have hinside : L.inside [] site params [params.map Label.text] := ⟨hparams, rfl⟩
  have hstep := Lockstep.visitFunction (L.inStep settings levels) hrel hsuits hinside hsub hbody
  have hres : ScopeActions.visitFunction (.resolver settings) (ScopeActions.visitWithin (.resolver settings) settings levels)
      site [] params body (.start declared noted) = .ok () s := by
    have hdeclare := ScopeActions.resolver_declare settings site (.start globals notes) title
    rw [hput] at hdeclare
    obtain ⟨_, t, ht, hrest⟩ := bind_eq_ok.mp hvisit
    rw [hdeclare] at ht
    cases ht
    exact hrest
  rw [hres] at hstep
  cases hstep with
  | ok l grown related kept holds =>
    obtain ⟨chain, globals'⟩ := l
    obtain ⟨rfl, hgrow'⟩ := grown
    obtain ⟨-, hscope, hslots⟩ := related
    obtain ⟨⟨p, names⟩, ⟨q, names'⟩, ⟨⟨-, hp⟩, hq, hle, hsize⟩, hall⟩ := holds
    subst hp
    refine ⟨slot, globals', ⟨hscope, hgrow.trans hgrow', hslots.2, fun other hother => ?_⟩,
      idxOf?_of_isPrefix hgrow'.names hslot, ?_, ⟨⟨hparams, rfl⟩, hsize⟩, ?_⟩
    · have hnote := kept other hother
      exact ⟨congrArg Prod.fst hnote, congrArg Prod.snd hnote⟩
    · rw [hslots.1, SiteMap.get?_set, if_pos rfl]
    · rw [allEvery_iff]
      intro n hn
      exact every_of_open hle ((allEvery_iff _ _).mp hall n hn)

theorem resolve_class
    (htitle : ¬ Native.IsStandardName title.text)
    (h : resolve settings (.classDefinition site title parent members) globals notes = .ok () s) :
    ∃ slot globals', UnitPlaced globals notes [] globals' s ∧ globals'.idxOf? title.text = some slot ∧
      s.notes.slots.get? site = some slot := by
  obtain ⟨slot, declared, hput, hslot, hgrow⟩ := GlobalsGrow.put globals htitle
  obtain ⟨levels, -, hvisit⟩ := exists_level h
  change (ScopeActions.resolver settings).declare site title (.start globals notes) = .ok () s at hvisit
  rw [ScopeActions.resolver_declare settings site (.start globals notes) title, hput] at hvisit
  cases hvisit
  refine ⟨slot, declared, ⟨rfl, hgrow, rfl, fun _ _ => ⟨rfl, rfl⟩⟩, hslot, ?_⟩
  simp only [SiteMap.get?_set, if_true]
  rfl

end

/-! ## Related machines after placing -/

variable {stage : Stage} {w : World} {m d : Machine}

theorem Related.globalNames (h : Related stage w m d) : m.globalNames = w.globals ∧ d.globalNames = w.globals' := by
  obtain ⟨-, values, values', hg, hg', -⟩ := h.frames.top
  exact ⟨by simp only [Machine.globalNames, hg], by simp only [Machine.globalNames, hg']⟩

theorem Related.placed (h : Related stage w m d)
    (hp : UnitPlaced w.globals m.notes sites globals s) (known : Nat)
    (hsites : ∀ site ∈ sites, w.known ≤ (site : Nat)) (hknown : w.known ≤ known) (hnext : known ≤ stage.next) :
    w.le { w with known, globals, notes := s.notes } ∧
      Related stage { w with known, globals, notes := s.notes } (m.placed s) d := by
  have hle : w.le { w with known, globals, notes := s.notes } := by
    refine ⟨hknown, fun site hsite => ?_, fun _ _ => ⟨rfl, rfl⟩, hp.grow.names, List.prefix_rfl,
      List.prefix_rfl⟩
    have hkept := hp.kept site fun hmem => absurd (hsites site hmem) (Nat.not_le.mpr hsite)
    rwa [h.places.1, h.sizes.1] at hkept
  have hnames : s.scope.outermostNames = globals := by rw [hp.scope]; rfl
  refine ⟨hle, ?_⟩
  exact
    { settings := h.settings
      store := by
        rw [← h.store]
        simp only [Machine.withStoreOf, Machine.placed, Machine.withGlobalNames, hp.caches]
      nextSite := h.nextSite
      known := hnext
      places := ⟨rfl, h.places.2⟩
      sizes := ⟨rfl, h.sizes.2⟩
      fresh := fun site hsite => h.fresh site (Nat.le_trans hknown hsite)
      frames := by
        simp only [Machine.placed, Machine.withGlobalNames, hnames]
        exact h.frames.declare hp.grow
      functions_size := h.functions_size
      functions := fun ref f g hf hg => World.callable_later hle (h.functions ref f g hf hg)
      classes := fun c hc => World.classGood_later hle (h.classes c hc)
      natives := h.natives
      held := by
        have hframes : Frames.Hold w.Good (m.placed s).frames := by
          refine h.held.frames.modify _ fun frame hframe => ?_
          cases frame <;> exact hframe
        have hheld : (m.placed s).Holds w.Good := ⟨hframes, h.held.arrays, h.held.objects⟩
        exact hheld.mono fun v hv => World.good_later hle hv }

theorem World.every_of_noted {chain : Chain} {node : Node}
    (hsites : ∀ site ∈ node.sites, (site : Nat) < w.known ∧ w.notes'.places.get? site = none ∧
      w.notes'.sizes.get? site = none)
    (h : node.Every (OpenNoted w.globals w.notes) (OpenSized w.notes) chain) :
    node.Every w.Placed w.Sized (.outside chain) := by
  refine Node.Every.mono (R := fun chain c => c = Index.outside chain) ?_ ?_ node chain _ rfl hsites h
  · rintro chain _ u rfl ⟨hknown, hnone, -⟩ ⟨hplain, hplaced⟩
    exact ⟨hknown, hplain, hplaced, hnone⟩
  · rintro chain _ site params inner rfl ⟨hknown, -, hnone⟩ ⟨hinner, hsize⟩
    exact ⟨.outside inner, ⟨hknown, hinner, hsize, hnone⟩, rfl⟩

theorem World.fits_global (w : World) : w.Fits Machine.globalEnv (.outside []) := ⟨[], rfl, .nil⟩

/-! ## Definitions -/

theorem Related.bindGlobal (h : Related stage w m d)
    (hslot : w.globals.idxOf? name = some slot) (value : Value) (hvalue : w.Good value) :
    ∃ w' m' d', m.bound Machine.globalEnv (some slot) name value = .ok m' ∧
      d.bound Machine.globalEnv none name value = .ok d' ∧ w.le w' ∧ Related stage w' m' d' := by
  obtain ⟨howner, hassignee, w', hle, hrel⟩ := h.assignGlobal hslot hvalue
  refine ⟨w', _, _, ?_, ?_, hle, hrel⟩
  · simp only [Machine.bound, howner]
  · simp only [Machine.bound, hassignee]

theorem outcome_define {inner : Index} (h : Related stage w m d)
    (hslot : w.globals.idxOf? title.text = some slot)
    (hnoted : m.notes.slots.get? site = some slot) (hnone : d.notes.slots.get? site = none)
    (hsized : w.Sized (.outside []) site params inner) (hbody : AllEvery w.Placed w.Sized inner body) :
    (coupling stage).Outcome w (Same World.Good)
      (Actions.machine.define Machine.globalEnv site title params body line m)
      (Actions.machine.define Machine.globalEnv site title params body line d) := by
  obtain ⟨ref, m₁, d₁, hm, hd, hrel⟩ := h.makeFunction w.fits_global hsized hbody title.text
  obtain ⟨w', m₂, d₂, hm₂, hd₂, hle, hrel₂⟩ := hrel.bindGlobal hslot (.function ref) trivial
  have hnoted₁ : m₁.notes.slots.get? site = some slot := by
    cases hm
    exact hnoted
  have hnone₁ : d₁.notes.slots.get? site = none := by
    cases hd
    exact hnone
  have hdefine : ∀ (m m₁ m₂ : Machine) (target : Option Nat),
      Run.makeFunction Machine.globalEnv site title.text params body m = .ok (.function ref) m₁ →
      m₁.notes.slots.get? site = target →
      m₁.bound Machine.globalEnv target title.text (.function ref) = .ok m₂ →
      Actions.machine.define Machine.globalEnv site title params body line m = .ok (.string title.text) m₂ := by
    rintro m m₁ m₂ _ hmade rfl hbound
    have hbind : Run.bind Machine.globalEnv (m₁.notes.slots.get? site) title.text (.function ref) line m₁
        = .ok () m₂ := by rw [Run.bind_eq, hbound]
    unfold Actions.machine
    exact bind_eq_ok.mpr ⟨_, m₁, hmade, bind_eq_ok.mpr ⟨m₁, m₁, rfl, bind_eq_ok.mpr ⟨(), m₂, hbind, rfl⟩⟩⟩
  rw [hdefine m m₁ m₂ _ hm hnoted₁ hm₂, hdefine d d₁ d₂ _ hd hnone₁ hd₂]
  exact .ok w' hle hrel₂ ⟨rfl, trivial⟩

/-! ## Classes -/

theorem Related.laidOut (h : Related stage w m d)
    (hsites : ∀ site ∈ sites, w.known ≤ (site : Nat) ∧ (site : Nat) < stage.next)
    (hs : Notes.KeptOutside sites m.notes s.notes) (ht : Notes.KeptOutside sites d.notes t.notes)
    (hcaches : s.notes.caches = m.notes.caches) (hcaches' : t.notes.caches = d.notes.caches) :
    w.le { w with known := stage.next, notes := s.notes, notes' := t.notes } ∧
      Related stage { w with known := stage.next, notes := s.notes, notes' := t.notes } (m.laidOut s) (d.laidOut t) := by
  have hold : ∀ site : Nat, site < w.known → site ∉ sites :=
    fun site hsite hmem => absurd (hsites site hmem).1 (Nat.not_le.mpr hsite)
  have hnew : ∀ site : Nat, stage.next ≤ site → site ∉ sites :=
    fun site hsite hmem => absurd (hsites site hmem).2 (Nat.not_lt.mpr hsite)
  have hle : w.le { w with known := stage.next, notes := s.notes, notes' := t.notes } := by
    refine ⟨h.known, fun site hsite => ?_, fun site hsite => ?_, List.prefix_rfl, List.prefix_rfl,
      List.prefix_rfl⟩
    · obtain ⟨hplaces, -, hsizes⟩ := hs site (hold site hsite)
      exact ⟨hplaces.trans (by rw [h.places.1]), hsizes.trans (by rw [h.sizes.1])⟩
    · obtain ⟨hplaces, -, hsizes⟩ := ht site (hold site hsite)
      exact ⟨hplaces.trans (by rw [h.places.2]), hsizes.trans (by rw [h.sizes.2])⟩
  refine ⟨hle, ?_⟩
  exact
    { h with
      known := Nat.le_refl _
      store := by
        have hsame : (d.laidOut t).withStoreOf (m.laidOut s)
            = { d.withStoreOf m with
                notes := { t.notes with caches := s.notes.caches }
                records := (d.laidOut t).records } := rfl
        rw [hsame, h.store, hcaches, ← h.caches, ← hcaches']
        rfl
      places := ⟨rfl, rfl⟩
      sizes := ⟨rfl, rfl⟩
      fresh := fun site hsite => by
        obtain ⟨hplaces, hslots, hsizes⟩ := ht site (hnew site hsite)
        obtain ⟨hplaces', hslots', hsizes'⟩ := h.fresh site (Nat.le_trans h.known hsite)
        exact ⟨hplaces.trans hplaces', hslots.trans hslots', hsizes.trans hsizes'⟩
      functions := fun ref f g hf hg => World.callable_later hle (h.functions ref f g hf hg)
      classes := fun c hc => World.classGood_later hle (h.classes c hc)
      held := Machine.Holds.mono (P := w.Good) ⟨h.held.frames, h.held.arrays, h.held.objects⟩
        fun v hv => World.good_later hle hv }

theorem World.every_of_classUse {depth : Nat} {node : Node}
    (hsites : ∀ site ∈ node.sites, (site : Nat) < w.known)
    (h : node.Every (ClassUse w.globals w.globals' w.notes w.notes') (ClassInner w.notes w.notes') depth) :
    node.Every w.Placed w.Sized (.member depth) := by
  refine Node.Every.mono (R := fun depth c => c = Index.member depth) ?_ ?_ node depth _ rfl hsites h
  · rintro depth _ u rfl hknown hu
    exact ⟨hknown, hu⟩
  · rintro depth _ site params inner rfl hknown hinner
    exact ⟨.member inner, ⟨hknown, hinner⟩, rfl⟩

theorem World.classGood_of_members {c : Class} (henv : c.env = Machine.globalEnv) {base : Layout}
    (hbase : ∀ definition ∈ base.definitions, w.MethodPlaced definition)
    (hfrom : ∀ definition ∈ c.layout.definitions,
      definition ∈ base.definitions ∨ definition.toNode ∈ c.members)
    (hsites : ∀ site ∈ allSites c.members, (site : Nat) < w.known)
    (hmembers : ∀ member ∈ c.members, MemberPlaced w.globals w.globals' w.notes w.notes' member) :
    w.ClassGood c := by
  have hinside : ∀ {member : Node}, member ∈ c.members → ∀ site ∈ member.sites, (site : Nat) < w.known :=
    fun hmem site hsite => hsites site (mem_allSites.mpr ⟨_, hmem, hsite⟩)
  refine ⟨henv, fun definition hdefinition => ?_, fun member hmem hnone => ?_⟩
  · rcases hfrom definition hdefinition with hold | hmem
    · exact hbase definition hold
    · have hplaced := hmembers _ hmem
      have hnode : Definition.ofNode? definition.toNode = some definition := rfl
      unfold MemberPlaced at hplaced
      rw [hnode] at hplaced
      obtain ⟨hsize, hbody⟩ := hplaced
      have hown := hinside hmem
      simp only [Definition.toNode, Node.sites, List.mem_append] at hown
      refine ⟨hown _ (.inr (by simp)), hsize, ?_⟩
      rw [allEvery_iff] at hbody ⊢
      intro n hn
      exact World.every_of_classUse (fun site hsite => hown site (.inl (.inr (mem_allSites.mpr ⟨n, hn, hsite⟩))))
        (hbody n hn)
  · have hplaced := hmembers member hmem
    unfold MemberPlaced at hplaced
    rw [hnone] at hplaced
    exact World.every_of_classUse (hinside hmem) hplaced

section
variable (h : Related stage w m d)

include h

theorem Related.withClass (title : Text) (parents : List Nat) (layout : Layout) (members : List Node)
    (hgood : w.ClassGood ⟨m.nextClass, title, parents, layout, members, Machine.globalEnv⟩) :
    Related stage w (m.withClass title parents layout members Machine.globalEnv)
      (d.withClass title parents layout members Machine.globalEnv) := by
  refine { h with
    store := ?_
    classes := Array.forall_mem_push.mpr ⟨hgood, h.classes⟩
    held := ⟨h.held.frames, h.held.arrays, h.held.objects⟩ }
  rw [← h.store]
  rfl

theorem Related.superclass (parent : Option Label) :
    d.superclass Machine.globalEnv parent = m.superclass Machine.globalEnv parent := by
  unfold Machine.superclass
  simp only [h.frames.get?_global]

theorem Related.baseLayout (base : Option Nat) : d.baseLayout base = m.baseLayout base := by
  unfold Machine.baseLayout
  rw [h.classes_eq]

theorem Related.parentsOf (base : Option Nat) : d.parentsOf base = m.parentsOf base := by
  unfold Machine.parentsOf
  rw [h.classes_eq]

theorem Related.baseGood (base : Option Nat) :
    ∀ definition ∈ ((m.baseLayout base).getD .empty).definitions, w.MethodPlaced definition := by
  intro definition hdefinition
  unfold Machine.baseLayout at hdefinition
  cases hbase : base.bind (m.classes[·]?) with
  | none =>
    rw [hbase] at hdefinition
    exact absurd hdefinition List.not_mem_nil
  | some c =>
    rw [hbase] at hdefinition
    obtain ⟨ref, -, hc⟩ := Option.bind_eq_some_iff.mp hbase
    exact (h.classes c (Array.mem_of_getElem? hc)).methods definition hdefinition

theorem outcome_defineClass {site : Site} {title : Label} {parent : Option Label} {members : List Node} {line : Int}
    {slot : Nat} (hslot : w.globals.idxOf? title.text = some slot) (hnoted : m.notes.slots.get? site = some slot)
    (hsite : w.known ≤ (site : Nat)) (hmembers : ∀ member ∈ members, member.IsMember)
    (hsites : (allSites members ++ [site]).Nodup)
    (hwithin : ∀ site ∈ allSites members, w.known ≤ (site : Nat) ∧ (site : Nat) < stage.next) :
    (coupling stage).Outcome w (Same World.Good)
      (Run.defineClass Machine.globalEnv site title parent members line m)
      (Run.defineClass Machine.globalEnv site title parent members line d) := by
  obtain ⟨record, hm⟩ := Run.defineClass_eq Machine.globalEnv site title parent members line m
  obtain ⟨record', hd⟩ := Run.defineClass_eq Machine.globalEnv site title parent members line d
  obtain ⟨hnames, hnames'⟩ := h.globalNames
  have hdepth : d.settings.maxDepth = m.settings.maxDepth := by rw [h.settings.1, h.settings.2]
  have hwatched : d.settings.watched = m.settings.watched := by rw [h.settings.1, h.settings.2]
  rw [hm, hd, h.superclass, hnames, hnames', hdepth, hwatched]
  cases m.superclass Machine.globalEnv parent with
  | error cause => exact .error w (.refl w) h trivial
  | ok base =>
    dsimp only
    rw [h.baseLayout, h.parentsOf]
    obtain ⟨hnodup, -, hdisjoint⟩ := List.nodup_append'.mp hsites
    have hoff : site ∉ allSites members := fun hmem => hdisjoint hmem (by simp)
    obtain ⟨s, t, hs, ht, hcaches, hcaches', hres⟩ :=
      layOutClass_inStep ⟨m.settings.maxDepth, m.settings.watched⟩ title.text hmembers hnodup
        ((m.baseLayout base).getD .empty) w.globals w.globals' m.notes d.notes
    obtain ⟨hle, hrel⟩ := h.laidOut hwithin hs ht hcaches hcaches'
    rcases hres with ⟨e, hresm, hresd⟩ | ⟨layout, hresm, hresd, hfrom, hplaced⟩
    · simp only [resolveClass, hresm, hresd]
      exact .error _ hle hrel trivial
    · simp only [resolveClass, hresm, hresd]
      -- the class is good, so it can be made on both sides
      have hrel₂ := hrel.withClass title.text (m.parentsOf base) layout members
        (World.classGood_of_members rfl
          (fun definition hdefinition => World.methodPlaced_later hle (h.baseGood base definition hdefinition))
          hfrom (fun site hmem => (hwithin site hmem).2) hplaced)
      obtain ⟨w', m', d', hbound, hbound', hle', hrel'⟩ := hrel₂.bindGlobal hslot
        (.classValue m.classes.size) trivial
      have hslotm : s.notes.slots.get? site = some slot := (hs site hoff).2.1.trans hnoted
      have hslotd : t.notes.slots.get? site = none := (ht site hoff).2.1.trans (h.fresh site hsite).2.1
      have hm₂ : ((m.laidOut s).withClass title.text (m.parentsOf base) layout members
          Machine.globalEnv).notes.slots.get? site = some slot := hslotm
      have hd₂ : ((d.laidOut t).withClass title.text (m.parentsOf base) layout members
          Machine.globalEnv).notes.slots.get? site = none := hslotd
      rw [hm₂, hd₂, h.classes_eq, hbound, hbound']
      exact .ok w' (hle.trans hle') (hrel'.note _ _) ⟨rfl, trivial⟩

/-! ## Units -/

theorem outcome_execute {unit : Node} (hunit : unit.IsUnit) (hconforms : unit.Conforms) (hsites : unit.sites.Nodup)
    (hwithin : ∀ site ∈ unit.sites, w.known ≤ (site : Nat) ∧ (site : Nat) < stage.next) {m' : Machine}
    (hplace : Run.placeNames unit m = .ok () m') :
    (coupling stage).Outcome w (Same World.Good) (Run.execute unit m) (Run.execute unit d) := by
  have hplaces : m.settings.placesNames = true := by rw [h.settings.1]
  have hlooks : d.settings.placesNames = false := by rw [h.settings.2]
  have hdepth : d.settings.maxDepth = m.settings.maxDepth := by rw [h.settings.1, h.settings.2]
  rw [Run.placeNames_eq] at hplace
  obtain ⟨s, hs, -⟩ := onState_eq_ok.mp hplace
  rw [Run.execute_places hplaces hs, Run.execute_evaluates hlooks, hdepth,
    ← Actions.evaluate_machine]
  obtain ⟨levels, hlevels, -⟩ : ∃ levels, m.settings.maxDepth = levels + 1 ∧ _ := exists_level hs
  rw [h.globalNames.1] at hs
  have hfresh : ∀ site ∈ unit.sites, (site : Nat) < stage.next ∧ w.notes'.places.get? site = none ∧
      w.notes'.sizes.get? site = none := by
    intro site hsite
    obtain ⟨hknown, hlt⟩ := hwithin site hsite
    obtain ⟨hplaces, -, hsizes⟩ := h.fresh site hknown
    rw [h.places.2] at hplaces
    rw [h.sizes.2] at hsizes
    exact ⟨hlt, hplaces, hsizes⟩
  rcases hconforms.cases hunit with hplain | ⟨site, title, params, body, rfl, htitle, hparams, hbody⟩ |
    ⟨site, title, parent, members, rfl, htitle, hmembers⟩
  · obtain ⟨globals, hplaced, hnoted⟩ := resolve_plain hplain hsites hs
    obtain ⟨hle, hrel⟩ := h.placed hplaced stage.next (fun site hsite => (hwithin site hsite).1) h.known
      (Nat.le_refl _)
    refine (sim_evaluate _ ?_ _ _ hrel).earlier hle
    exact ⟨.outside [], World.fits_global _, World.every_of_noted hfresh hnoted⟩
  · obtain ⟨slot, globals, hplaced, hslot, hnoted, ⟨hinner, hsize⟩, hcode⟩ :=
      resolve_definition htitle hparams hbody hsites hs
    have hbodySites : ∀ other ∈ allSites body,
        other ∈ (Node.definition site title params body).sites := by
      intro other hother
      simp [Node.sites, hother]
    have hsite : site ∈ (Node.definition site title params body).sites := by simp [Node.sites]
    obtain ⟨hle, hrel⟩ := h.placed hplaced stage.next (List.forall_mem_append.mpr
      ⟨fun other hother => (hwithin other (hbodySites other hother)).1,
        List.forall_mem_singleton.mpr (hwithin site hsite).1⟩) h.known (Nat.le_refl _)
    have hsized : World.Sized { w with known := stage.next, globals, notes := s.notes } (.outside []) site
        params (.outside [params.map Label.text]) :=
      ⟨(hfresh site hsite).1, hinner, hsize, (hfresh site hsite).2.2⟩
    rw [hlevels]
    refine (outcome_define hrel hslot hnoted (h.fresh site (hwithin site hsite).1).2.1 hsized ?_).earlier hle
    rw [allEvery_iff] at hcode ⊢
    intro n hn
    exact World.every_of_noted (fun other hother =>
      hfresh other (hbodySites other (mem_allSites.mpr ⟨n, hn, hother⟩))) (hcode n hn)
  · obtain ⟨slot, globals, hplaced, hslot, hnoted⟩ := resolve_class htitle hs
    obtain ⟨hle, hrel⟩ := h.placed hplaced w.known (by simp) (Nat.le_refl _) h.known
    have hinner : ∀ other ∈ allSites members,
        other ∈ (Node.classDefinition site title parent members).sites := by
      intro other hother
      simp [Node.sites, hother]
    have hsite : site ∈ (Node.classDefinition site title parent members).sites := by simp [Node.sites]
    have hnodup : (allSites members ++ [site]).Nodup := hsites.sublist (by simp [Node.sites])
    rw [hlevels]
    exact (outcome_defineClass hrel hslot hnoted (hwithin site hsite).1 hmembers hnodup
      fun other hother => hwithin other (hinner other hother)).earlier hle

end

end StoneLang.Modes
