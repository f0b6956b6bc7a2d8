/-
  Two machines in two modes.

  `Related stage w m d` says that `m`, which places names, and `d`, which looks them up, have run the same
  program so far.  Their stores are the same, functions and frames are numbered alike, and the world `w`
  says what is known: which sites have been placed and how, which globals are declared, and what each
  frame is for.  All of this only grows, so that what is known of a piece of code stays true
  (`World.le` and the lemmas named `later`).
-/
import StoneLang.Proofs.Evaluation.Steps
import StoneLang.Proofs.Modes.Classes
import StoneLang.Proofs.Modes.Frames
import StoneLang.Proofs.Modes.Store

namespace StoneLang.Modes

/-- What is known about two machines that run the same program. -/
structure World where
  /-- The sites below have been placed, where they are placed at all. -/
  known : Nat
  notes : Notes
  notes' : Notes
  globals : List Text
  globals' : List Text
  roles : List Role

def NotesAgree (known : Nat) (notes notes' : Notes) : Prop :=
  ∀ site : Nat, site < known → notes'.places.get? site = notes.places.get? site ∧
    notes'.sizes.get? site = notes.sizes.get? site

/-- The second world knows at least as much as the first. -/
structure World.le (w v : World) : Prop where
  known : w.known ≤ v.known
  notes : NotesAgree w.known w.notes v.notes
  notes' : NotesAgree w.known w.notes' v.notes'
  globals : w.globals <+: v.globals
  globals' : w.globals' <+: v.globals'
  roles : w.roles <+: v.roles

theorem World.le.refl (w : World) : w.le w :=
  ⟨Nat.le_refl _, fun _ _ => ⟨rfl, rfl⟩, fun _ _ => ⟨rfl, rfl⟩, List.prefix_rfl, List.prefix_rfl,
    List.prefix_rfl⟩

theorem World.le.trans {u v w : World} (h : u.le v) (h' : v.le w) : u.le w := by
  refine ⟨Nat.le_trans h.known h'.known, fun site hs => ?_, fun site hs => ?_, h.globals.trans h'.globals,
    h.globals'.trans h'.globals', h.roles.trans h'.roles⟩
  · have h₁ := h.notes site hs
    have h₂ := h'.notes site (Nat.lt_of_lt_of_le hs h.known)
    exact ⟨h₂.1.trans h₁.1, h₂.2.trans h₁.2⟩
  · have h₁ := h.notes' site hs
    have h₂ := h'.notes' site (Nat.lt_of_lt_of_le hs h.known)
    exact ⟨h₂.1.trans h₁.1, h₂.2.trans h₁.2⟩

/-- Where a piece of code stands: outside class bodies, inside functions with the given parameters; or in
a class body, inside so many scopes. -/
inductive Index where
  | outside (chain : Chain)
  | member (depth : Nat)

namespace World

def Placed (w : World) : Index → Use → Prop
  | .outside chain, u => u.site < w.known ∧ u.isPlain ∧
      OpenPlaced chain w.globals (w.notes.places.get? u.site) u ∧ w.notes'.places.get? u.site = none
  | .member depth, u => u.site < w.known ∧ ClassUse w.globals w.globals' w.notes w.notes' depth u

def Sized (w : World) : Index → Site → List Label → Index → Prop
  | .outside chain, site, params, .outside inner => site < w.known ∧ OpenInner chain site params inner ∧
      w.notes.sizes.get? site = some params.length ∧ w.notes'.sizes.get? site = none
  | .member depth, site, params, .member inner => site < w.known ∧
      ClassInner w.notes w.notes' depth site params inner
  | _, _, _, _ => False

/-- The environment is one of such code. -/
def Fits (w : World) (env : Env) : Index → Prop
  | .outside chain => ∃ inner, env = inner ++ Machine.globalEnv ∧ ChainFits w.roles inner chain
  | .member depth => ∃ inner tail, env = inner ++ tail ∧ (tail = Machine.globalEnv ∨ tail = []) ∧
      inner.length = depth ∧ SharedFits w.roles inner

def MethodPlaced (w : World) (d : Definition) : Prop :=
  d.site < w.known ∧ w.notes'.sizes.get? d.site = w.notes.sizes.get? d.site ∧
    AllEvery w.Placed w.Sized (.member 1) d.body

/-- A value that may turn up: the methods among them have been placed. -/
def Good (w : World) : Value → Prop
  | .method _ d => w.MethodPlaced d
  | _ => True

/-- The two forms of a function. -/
structure Callable (w : World) (f g : Function) : Prop where
  name : g.name = f.name
  parameters : g.parameters = f.parameters
  body : g.body = f.body
  env : g.env = f.env
  code : (∃ chain, w.Fits f.env (.outside chain) ∧ f.parameters.Nodup ∧
      f.size = some f.parameters.length ∧ g.size = none ∧
      f.body.Every w.Placed w.Sized (.outside (f.parameters :: chain))) ∨
    ∃ depth size, w.Fits f.env (.member depth) ∧ f.size = some size ∧ g.size = some size ∧
      f.body.Every w.Placed w.Sized (.member (depth + 1))

/-- A class whose body has been placed. -/
structure ClassGood (w : World) (c : Class) : Prop where
  env : c.env = Machine.globalEnv
  methods : ∀ d ∈ c.layout.definitions, w.MethodPlaced d
  initializers : ∀ member ∈ c.members, Definition.ofNode? member = none →
    member.Every w.Placed w.Sized (.member 1)

/-! ## Later worlds -/

section
variable {w v : World}

section
variable (h : w.le v)

include h

theorem placed_later (hu : w.Placed c u) : v.Placed c u := by
  cases c with
  | outside chain =>
    obtain ⟨hsite, hplain, hplaced, hnone⟩ := hu
    obtain ⟨hplaces, -⟩ := h.notes u.site hsite
    obtain ⟨hplaces', -⟩ := h.notes' u.site hsite
    refine ⟨Nat.lt_of_lt_of_le hsite h.known, hplain, ?_, hplaces'.trans hnone⟩
    rw [hplaces]
    exact hplaced.later h.globals
  | member depth =>
    obtain ⟨hsite, hplain, hplaced⟩ := hu
    obtain ⟨hplaces, -⟩ := h.notes u.site hsite
    obtain ⟨hplaces', -⟩ := h.notes' u.site hsite
    refine ⟨Nat.lt_of_lt_of_le hsite h.known, hplain, ?_⟩
    rw [hplaces, hplaces']
    exact hplaced.later h.globals h.globals'

theorem sized_later (hs : w.Sized c site params c') :
    v.Sized c site params c' := by
  cases c with
  | outside chain =>
    cases c' with
    | outside inner =>
      obtain ⟨hsite, hinner, hsize, hnone⟩ := hs
      exact ⟨Nat.lt_of_lt_of_le hsite h.known, hinner, (h.notes site hsite).2.trans hsize,
        (h.notes' site hsite).2.trans hnone⟩
    | member inner => exact absurd hs id
  | member depth =>
    cases c' with
    | outside inner => exact absurd hs id
    | member inner =>
      obtain ⟨hsite, hdepth, size, hsize, hsize'⟩ := hs
      exact ⟨Nat.lt_of_lt_of_le hsite h.known, hdepth, size, (h.notes site hsite).2.trans hsize,
        (h.notes' site hsite).2.trans hsize'⟩

theorem fits_later (hf : w.Fits env c) : v.Fits env c := by
  cases c with
  | outside chain =>
    obtain ⟨inner, rfl, hfits⟩ := hf
    exact ⟨inner, rfl, hfits.imp fun _ _ hr => getElem?_of_isPrefix h.roles hr⟩
  | member depth =>
    obtain ⟨inner, tail, rfl, htail, hlength, hfits⟩ := hf
    exact ⟨inner, tail, rfl, htail, hlength, fun f hf => getElem?_of_isPrefix h.roles (hfits f hf)⟩

theorem every_later {c : Index} {node : Node} (hn : node.Every w.Placed w.Sized c) : node.Every v.Placed v.Sized c :=
  Node.Every.mono (R := Eq) (S := fun _ => True)
    (by rintro c _ u rfl _ hu; exact placed_later h hu)
    (by rintro c _ site params c' rfl _ hd; exact ⟨c', sized_later h hd, rfl⟩)
    node c c rfl (fun _ _ => trivial) hn

theorem allEvery_later (hn : AllEvery w.Placed w.Sized c nodes) :
    AllEvery v.Placed v.Sized c nodes := by
  rw [allEvery_iff] at hn ⊢
  exact fun n hmem => every_later h (hn n hmem)

theorem methodPlaced_later (hd : w.MethodPlaced d) : v.MethodPlaced d := by
  obtain ⟨hsite, hsize, hbody⟩ := hd
  refine ⟨Nat.lt_of_lt_of_le hsite h.known, ?_, allEvery_later h hbody⟩
  rw [(h.notes d.site hsite).2, (h.notes' d.site hsite).2, hsize]

theorem good_later (hv : w.Good value) : v.Good value := by
  cases value with
  | method object d => exact methodPlaced_later h hv
  | _ => trivial

theorem callable_later (hc : w.Callable f g) : v.Callable f g := by
  refine ⟨hc.name, hc.parameters, hc.body, hc.env, ?_⟩
  rcases hc.code with ⟨chain, hfits, hnodup, hsize, hsize', hbody⟩ |
    ⟨depth, size, hfits, hsize, hsize', hbody⟩
  · exact .inl ⟨chain, fits_later h hfits, hnodup, hsize, hsize', every_later h hbody⟩
  · exact .inr ⟨depth, size, fits_later h hfits, hsize, hsize', every_later h hbody⟩

theorem classGood_later (hc : w.ClassGood c) : v.ClassGood c :=
  ⟨hc.env, fun d hd => methodPlaced_later h (hc.methods d hd),
    fun member hmem hnone => every_later h (hc.initializers member hmem hnone)⟩

end

end

end World

/-! ## Related machines -/

/-- What stays as it is while a unit runs. -/
structure Stage where
  /-- The settings, in either mode. -/
  settings : Settings
  /-- The next free site. -/
  next : Nat

/-- The two machines have run the same program so far. -/
structure Related (stage : Stage) (w : World) (m d : Machine) : Prop where
  settings : m.settings = { stage.settings with placesNames := true } ∧
    d.settings = { stage.settings with placesNames := false }
  store : d.withStoreOf m = d
  nextSite : m.nextSite = stage.next ∧ d.nextSite = stage.next
  known : w.known ≤ stage.next
  places : m.notes.places = w.notes.places ∧ d.notes.places = w.notes'.places
  sizes : m.notes.sizes = w.notes.sizes ∧ d.notes.sizes = w.notes'.sizes
  /-- Where names are looked up, nothing is noted before it is known. -/
  fresh : ∀ site : Nat, w.known ≤ site → d.notes.places.get? site = none ∧
    d.notes.slots.get? site = none ∧ d.notes.sizes.get? site = none
  frames : FramesAgree w.roles w.globals w.globals' m.frames d.frames
  functions_size : d.functions.size = m.functions.size
  functions : ∀ (ref : Nat) f g, m.functions[ref]? = some f → d.functions[ref]? = some g → w.Callable f g
  classes : ∀ c ∈ m.classes, w.ClassGood c
  natives : ∀ n ∈ m.natives, n.IsStandard
  held : m.Holds w.Good

namespace Related

variable {stage : Stage} {w : World} {m d : Machine}

section
variable (h : Related stage w m d)

include h

theorem function (ref : Nat) :
    (m.functions[ref]? = none ∧ d.functions[ref]? = none) ∨
      ∃ f g, m.functions[ref]? = some f ∧ d.functions[ref]? = some g ∧ w.Callable f g := by
  cases hf : m.functions[ref]? with
  | none =>
    refine .inl ⟨rfl, Array.getElem?_eq_none ?_⟩
    rw [h.functions_size]
    exact Array.getElem?_eq_none_iff.mp hf
  | some f =>
    have hlt : ref < d.functions.size := h.functions_size ▸ (Array.getElem?_eq_some_iff.mp hf).1
    exact .inr ⟨f, _, rfl, Array.getElem?_eq_getElem hlt, h.functions ref f _ hf (Array.getElem?_eq_getElem hlt)⟩

theorem sameNames : d.SameNames m := by
  intro ref
  rcases h.function ref with ⟨hm, hd⟩ | ⟨f, g, hm, hd, hfg⟩
  · rw [hm, hd]
  · rw [hm, hd, Option.map_some, Option.map_some]
    simp only [Function.shownName, hfg.name]

theorem method (hd : Run.methodAt? m object index = some definition) :
    w.MethodPlaced definition := by
  obtain ⟨c, hc, hdefinition⟩ := Option.bind_eq_some_iff.mp hd
  obtain ⟨o, -, hc⟩ := Option.bind_eq_some_iff.mp hc
  exact (h.classes c (Array.mem_of_getElem? hc)).methods definition (List.mem_of_getElem? hdefinition)

theorem store_step (hstore : Run.StoreOnly x) (hleft : m.SameCode (finalState (x m)))
    (hheld : (finalState (x m)).Holds w.Good) :
    x d = onState d.withStoreOf (x m) ∧
      Related stage w (finalState (x m)) (d.withStoreOf (finalState (x m))) := by
  obtain ⟨hsame, hfinal⟩ := hstore d m h.sameNames
  rw [h.store] at hsame
  refine ⟨hsame, ?_⟩
  generalize finalState (x m) = m' at *
  have hsite : m'.nextSite = m.nextSite := by rw [hfinal]; rfl
  have hplaces : m'.notes.places = m.notes.places := by rw [hfinal]; rfl
  have hsizes : m'.notes.sizes = m.notes.sizes := by rw [hfinal]; rfl
  exact
    { settings := ⟨hleft.settings.trans h.settings.1, h.settings.2⟩
      store := rfl
      nextSite := ⟨hsite.trans h.nextSite.1, h.nextSite.2⟩
      known := h.known
      places := ⟨hplaces.trans h.places.1, h.places.2⟩
      sizes := ⟨hsizes.trans h.sizes.1, h.sizes.2⟩
      fresh := h.fresh
      frames := hleft.frames ▸ h.frames
      functions_size := h.functions_size.trans (congrArg Array.size hleft.functions).symm
      functions := hleft.functions ▸ h.functions
      classes := hleft.classes ▸ h.classes
      natives := hleft.natives ▸ h.natives
      held := hheld }

theorem caches : d.notes.caches = m.notes.caches := by
  have hcaches : (d.withStoreOf m).notes.caches = m.notes.caches := rfl
  rwa [h.store] at hcaches

theorem absorbed (hnext : stage.next ≤ next) (records records' : Array Record) :
    Related { stage with next } w { m with nextSite := next, records }
      { d with nextSite := next, records := records' } :=
  { h with
    store := congrArg (fun d : Machine => { d with nextSite := next, records := records' }) h.store
    nextSite := ⟨rfl, rfl⟩
    known := Nat.le_trans h.known hnext
    held := ⟨h.held.frames, h.held.arrays, h.held.objects⟩ }

theorem note (record record' : Record) : Related stage w (m.note record) (d.note record') := by
  rw [Machine.note_eq m, Machine.note_eq d]
  generalize (d.note record').records = records
  exact { h with
    store := congrArg (fun d : Machine => { d with records }) h.store
    held := ⟨h.held.frames, h.held.arrays, h.held.objects⟩ }

theorem reframe (hroles : w.roles <+: roles)
    (hglobals : w.globals <+: globals) (hglobals' : w.globals' <+: globals')
    (hagree : FramesAgree roles globals globals' fs fs') (hheld : fs.Hold w.Good) :
    w.le { w with roles, globals, globals' } ∧
      Related stage { w with roles, globals, globals' } { m with frames := fs } { d with frames := fs' } := by
  have hle : w.le { w with roles, globals, globals' } :=
    ⟨Nat.le_refl _, fun _ _ => ⟨rfl, rfl⟩, fun _ _ => ⟨rfl, rfl⟩, hglobals, hglobals', hroles⟩
  refine ⟨hle, { h with store := ?_, frames := hagree, functions := ?_, classes := ?_, held := ?_ }⟩
  · exact congrArg (fun d : Machine => { d with frames := fs' }) h.store
  · exact fun ref f g hf hg => World.callable_later hle (h.functions ref f g hf hg)
  · exact fun c hc => World.classGood_later hle (h.classes c hc)
  · exact (h.held.withFrames hheld).mono fun v hv => World.good_later hle hv

end

end Related

def coupling (stage : Stage) : Coupling Machine Machine where
  World := World
  le := World.le
  refl := World.le.refl
  trans := World.le.trans
  related := Related stage
  admits _ := True

open Coupling in
theorem sim_of_store {stage : Stage} {α : Type} {w : World} {P : World → α → Prop} {x : Run α} (hstore : Run.StoreOnly x)
    {E : Failure → Prop} (hkeeps : ∀ m d, Related stage w m d →
      Ended (fun m' => m.SameCode m' ∧ m'.Holds w.Good) (P w) E (x m)) :
    (coupling stage).Sim w (Same P) x x := by
  intro m d h
  have hkept := hkeeps m d h
  have hstep := h.store_step hstore
  generalize x m = res at hkept hstep ⊢
  cases res with
  | ok a m' =>
    obtain ⟨hd, hrel⟩ := hstep hkept.1.1 hkept.1.2
    rw [hd]
    exact .ok w (.refl w) hrel ⟨rfl, hkept.2⟩
  | error e m' =>
    obtain ⟨hd, hrel⟩ := hstep hkept.1.1 hkept.1.2
    rw [hd]
    exact .error w (.refl w) hrel trivial

end StoneLang.Modes
