/-
  What is known of a machine under observation.

  While a program runs, some things about its machine do not change any more: what is noted at the sites of
  code that has been placed, for which table a frame was made, which class an object is of, what a class is.
  A `World` holds them, and worlds only grow (`World.le`).  Relative to a world, a piece of code stands in a
  nest of tables, or, where names are looked up, inside so many functions; and an environment fits if its
  frames are those that were made for these tables (`World.Fits`).

  All of this is stated for an `Aim`: what is asked of the code is known of it.
-/
import StoneLang.Proofs.Observation.Observed

namespace StoneLang

/-- The layout has all members of the class, in their slots. -/
structure Layout.Has (layout : Layout) (c : Members) : Prop where
  fields : c.fields <+: layout.fields
  methods : c.methods <+: layout.methods

theorem Layout.Extends.has {layout base : Layout} (h : layout.Extends base) (hc : base.Has c) : layout.Has c :=
  ⟨hc.fields.trans h.fields, hc.methods.trans h.methods⟩

namespace Addresses

/-- What a frame is for. -/
inductive Role where
  | natives
  | globals
  /-- A call whose names are looked up. -/
  | named
  /-- The table of `owner` with `size` slots; `receiver` is the object in the first of them, if the table is
  that of a method or of field initializers. -/
  | table (owner : Owner) (size : Nat) (receiver : Option Nat)

/-- What is known. -/
structure World where
  /-- The sites below have been placed, where they are placed at all. -/
  known : Nat
  noted : Site → SiteNote
  /-- The global names and what their slots hold. -/
  names : List Text
  values : Array (Option Value)
  /-- What the frames are for. -/
  roles : List Role
  /-- The sites of the functions. -/
  functions : List Site
  /-- The classes, with the sites of their definitions. -/
  classes : List (Site × Class)
  /-- The classes of the objects. -/
  objects : List Nat

/-- How far a step goes: it is within a call, at the top, or a whole unit. -/
inductive Extent where
  | within | top | unit

/-- The second world knows at least as much as the first.  Nothing is placed while code is evaluated, and
within a call the globals stay as they are. -/
structure World.le (extent : Extent) (w v : World) : Prop where
  known : w.known ≤ v.known
  noted : ∀ site : Nat, site < w.known → v.noted site = w.noted site
  names : w.names <+: v.names
  roles : w.roles <+: v.roles
  functions : w.functions <+: v.functions
  classes : w.classes <+: v.classes
  objects : w.objects <+: v.objects
  settled : extent ≠ .unit → v.known = w.known
  top : extent = .within → v.names = w.names ∧ v.values = w.values

namespace World.le

variable {extent : Extent} {u v w : World}

theorem refl (w : World) : w.le extent w :=
  ⟨Nat.le_refl _, fun _ _ => rfl, List.prefix_rfl, List.prefix_rfl, List.prefix_rfl, List.prefix_rfl,
    List.prefix_rfl, fun _ => rfl, fun _ => ⟨rfl, rfl⟩⟩

theorem trans (h : u.le extent v) (h' : v.le extent w) : u.le extent w where
  known := Nat.le_trans h.known h'.known
  noted site hs := (h'.noted site (Nat.lt_of_lt_of_le hs h.known)).trans (h.noted site hs)
  names := h.names.trans h'.names
  roles := h.roles.trans h'.roles
  functions := h.functions.trans h'.functions
  classes := h.classes.trans h'.classes
  objects := h.objects.trans h'.objects
  settled hunit := (h'.settled hunit).trans (h.settled hunit)
  top hwithin := ⟨(h'.top hwithin).1.trans (h.top hwithin).1, (h'.top hwithin).2.trans (h.top hwithin).2⟩

theorem atTop (h : u.le .within v) : u.le .top v := { h with settled := fun _ => h.settled nofun, top := nofun }

end World.le

/-- Where a piece of code stands: in a nest of tables, or where names are looked up inside so many
functions. -/
inductive Index where
  | placed (nest : Nest)
  | opened (depth : Nat)

/-- The number of scopes around a piece of code, the global one apart. -/
def Index.depth : Index → Nat
  | .placed n => n.inner.length
  | .opened depth => depth

namespace World

def Has (w : World) (object : Nat) (c : Members) : Prop :=
  ∃ ref entry, w.objects[object]? = some ref ∧ w.classes[ref]? = some entry ∧ entry.2.layout.Has c

/-- The frames were made for these tables, which are inside a class or not. -/
inductive Reaches (w : World) (members : Option Members) : List Nat → List (Owner × Table) → Prop where
  | top (h : members = none) : Reaches w members [] []
  | receiver {f object : Nat} {owner : Owner} {t : Table} {c : Members} (h : members = some c)
      (role : w.roles[f]? = some (.table owner t.size (some object))) (this : t.names[0]? = some thisName)
      (has : w.Has object c) : Reaches w members [f] [(owner, t)]
  | function {f : Nat} {fs : List Nat} {owner : Owner} {t : Table} {rest : List (Owner × Table)}
      (role : w.roles[f]? = some (.table owner t.size none)) (outer : Reaches w members fs rest) :
      Reaches w members (f :: fs) ((owner, t) :: rest)

/-- The environment is one of code that stands there. -/
def Fits (w : World) (env : Env) : Index → Prop
  | .placed n => n.globals <+: w.names ∧
      ∃ fs, env = fs ++ Machine.globalEnv ∧ w.Reaches n.members fs n.inner
  | .opened depth => ∃ fs, env = fs ++ Machine.globalEnv ∧ fs.length = depth ∧
      ∀ f ∈ fs, w.roles[f]? = some .named

variable (aim : Aim)

/-- The site is known, and the places that are to agree do. -/
def Knows (w : World) (site : Site) : Prop :=
  site < w.known ∧ ∀ other, aim.follows site other → other < w.known ∧ (w.noted other).place = (w.noted site).place

def Placed (w : World) : Index → Use → Prop
  | .placed n, u => w.Knows aim u.site ∧ n.Placed aim w.noted u
  | .opened _, u => w.Knows aim u.site ∧ u.isPlain ∧ (w.noted u.site).place = none

/-- A function has a table of its own, or none where names are looked up. -/
def Sized (w : World) : Index → Site → List Label → Index → Prop
  | .placed n, site, params, .placed inner => site < w.known ∧ n.Sized aim w.noted site params inner
  | .opened depth, site, _, .opened inner => site < w.known ∧ inner = depth + 1 ∧ (w.noted site).size = none
  | _, _, _, _ => False

/-- The names in a method of a class with this layout have been placed. -/
def MethodGood (w : World) (layout : Layout) (d : Definition) : Prop :=
  ∃ c globals t, layout.Has c ∧ globals <+: w.names ∧ d.site < w.known ∧ MethodTable aim w.noted d t ∧
    AllEvery (w.Placed aim) (w.Sized aim) (.placed (c.methodNest globals d.site t)) d.body

/-- The names in a field initializer of a class with this layout have been placed. -/
def InitializerGood (w : World) (site : Site) (layout : Layout) (member : Node) : Prop :=
  ∃ c globals, c.site = site ∧ layout.Has c ∧ globals <+: w.names ∧
    member.Every (w.Placed aim) (w.Sized aim) (.placed (c.initializerNest globals))

/-- A class whose body has been placed, under superclasses whose members it has. -/
structure ClassGood (w : World) (site : Site) (c : Class) : Prop where
  env : c.env = Machine.globalEnv
  full : c.layout.Full
  methods : ∀ d ∈ c.layout.definitions, w.MethodGood aim c.layout d
  initializers : ∀ member ∈ c.members, Definition.ofNode? member = none →
    w.InitializerGood aim site c.layout member
  parents : ∀ ref ∈ c.parents, ∃ entry, w.classes[ref]? = some entry ∧ c.layout.Extends entry.2.layout

/-- A value that may turn up: an object that there is, or a method of its class. -/
def Good (w : World) : Value → Prop
  | .object object => object < w.objects.length
  | .method object d => ∃ ref entry, w.objects[object]? = some ref ∧ w.classes[ref]? = some entry ∧
      w.MethodGood aim entry.2.layout d
  | _ => True

/-- A function whose code has been placed, or is left to be looked up. -/
def Callable (w : World) (ref : Nat) (f : Function) : Prop :=
  (∃ n site t, w.functions[ref]? = some site ∧ w.Fits f.env (.placed n) ∧ f.size = some t.size ∧
      (aim.room = true → f.parameters.length ≤ t.size) ∧
      f.body.Every (w.Placed aim) (w.Sized aim) (.placed (n.push (.function site) t))) ∨
    ∃ depth, w.Fits f.env (.opened depth) ∧ f.size = none ∧
      f.body.Every (w.Placed aim) (w.Sized aim) (.opened (depth + 1))

/-! ## Later worlds -/

section
variable {aim} {extent : Extent} {w v : World}

section
variable (h : w.le extent v)

include h

theorem has_later (hc : w.Has object c) : v.Has object c := by
  obtain ⟨ref, entry, hobject, hclass, hhas⟩ := hc
  exact ⟨ref, entry, getElem?_of_isPrefix h.objects hobject, getElem?_of_isPrefix h.classes hclass, hhas⟩

theorem reaches_later (hr : w.Reaches members fs tables) : v.Reaches members fs tables := by
  induction hr with
  | top hnone => exact .top hnone
  | receiver hsome role this has =>
    exact .receiver hsome (getElem?_of_isPrefix h.roles role) this (has_later h has)
  | function role _ ih => exact .function (getElem?_of_isPrefix h.roles role) ih

theorem fits_later (hf : w.Fits env c) : v.Fits env c := by
  cases c with
  | placed n =>
    obtain ⟨hglobals, fs, rfl, hreaches⟩ := hf
    exact ⟨hglobals.trans h.names, fs, rfl, reaches_later h hreaches⟩
  | opened depth =>
    obtain ⟨fs, rfl, hlength, hroles⟩ := hf
    exact ⟨fs, rfl, hlength, fun f hf => getElem?_of_isPrefix h.roles (hroles f hf)⟩

theorem knows_later (hsite : w.Knows aim site) : v.Knows aim site := by
  refine ⟨Nat.lt_of_lt_of_le hsite.1 h.known, fun other hother => ?_⟩
  obtain ⟨hknown, hsame⟩ := hsite.2 other hother
  rw [h.noted other hknown, h.noted site hsite.1]
  exact ⟨Nat.lt_of_lt_of_le hknown h.known, hsame⟩

theorem placed_later (hu : w.Placed aim c u) : v.Placed aim c u := by
  cases c with
  | placed n =>
    obtain ⟨hsite, hplain, hnoted⟩ := hu
    refine ⟨knows_later h hsite, hplain, ?_⟩
    rw [h.noted u.site hsite.1]
    exact hnoted
  | opened depth =>
    obtain ⟨hsite, hplain, hnone⟩ := hu
    exact ⟨knows_later h hsite, hplain, by rw [h.noted u.site hsite.1]; exact hnone⟩

theorem sized_later (hs : w.Sized aim c site params c') : v.Sized aim c site params c' := by
  cases c with
  | placed n =>
    cases c' with
    | placed inner =>
      obtain ⟨hsite, t, hinner, hkind, hroom, hsize⟩ := hs
      exact ⟨Nat.lt_of_lt_of_le hsite h.known, t, hinner, hkind, hroom, by rw [h.noted site hsite]; exact hsize⟩
    | opened inner => exact absurd hs id
  | opened depth =>
    cases c' with
    | placed inner => exact absurd hs id
    | opened inner =>
      obtain ⟨hsite, hinner, hnone⟩ := hs
      exact ⟨Nat.lt_of_lt_of_le hsite h.known, hinner, by rw [h.noted site hsite]; exact hnone⟩

theorem every_later {node : Node} (hn : node.Every (w.Placed aim) (w.Sized aim) c) :
    node.Every (v.Placed aim) (v.Sized aim) c :=
  Node.Every.mono (R := Eq) (S := fun _ => True)
    (by rintro c _ u rfl _ hu; exact placed_later h hu)
    (by rintro c _ site params c' rfl _ hd; exact ⟨c', sized_later h hd, rfl⟩)
    node c c rfl (fun _ _ => trivial) hn

theorem allEvery_later (hn : AllEvery (w.Placed aim) (w.Sized aim) c nodes) :
    AllEvery (v.Placed aim) (v.Sized aim) c nodes := by
  rw [allEvery_iff] at hn ⊢
  exact fun n hmem => every_later h (hn n hmem)

theorem methodGood_later (hd : w.MethodGood aim layout d) : v.MethodGood aim layout d := by
  obtain ⟨c, globals, t, hhas, hglobals, hsite, htable, hbody⟩ := hd
  refine ⟨c, globals, t, hhas, hglobals.trans h.names, Nat.lt_of_lt_of_le hsite h.known,
    ⟨htable.kind, htable.this, htable.room, ?_⟩, allEvery_later h hbody⟩
  rw [h.noted d.site hsite]
  exact htable.size

theorem classGood_later (hc : w.ClassGood aim site c) : v.ClassGood aim site c where
  env := hc.env
  full := hc.full
  methods d hd := methodGood_later h (hc.methods d hd)
  initializers member hmem hnone := by
    obtain ⟨m, globals, hsite, hhas, hglobals, hcode⟩ := hc.initializers member hmem hnone
    exact ⟨m, globals, hsite, hhas, hglobals.trans h.names, every_later h hcode⟩
  parents ref href := by
    obtain ⟨entry, hentry, hextends⟩ := hc.parents ref href
    exact ⟨entry, getElem?_of_isPrefix h.classes hentry, hextends⟩

theorem good_later (hv : w.Good aim value) : v.Good aim value := by
  cases value with
  | object object => exact Nat.lt_of_lt_of_le hv h.objects.length_le
  | method object d =>
    obtain ⟨ref, entry, hobject, hclass, hmethod⟩ := hv
    exact ⟨ref, entry, getElem?_of_isPrefix h.objects hobject, getElem?_of_isPrefix h.classes hclass,
      methodGood_later h hmethod⟩
  | _ => trivial

theorem callable_later (hf : w.Callable aim ref f) : v.Callable aim ref f := by
  rcases hf with ⟨n, site, t, href, hfits, hsize, hroom, hbody⟩ | ⟨depth, hfits, hsize, hbody⟩
  · exact .inl ⟨n, site, t, getElem?_of_isPrefix h.functions href, fits_later h hfits, hsize, hroom,
      every_later h hbody⟩
  · exact .inr ⟨depth, fits_later h hfits, hsize, every_later h hbody⟩

end

end

theorem fits_global (w : World) (h : globals <+: w.names) : w.Fits Machine.globalEnv (.placed (.top globals)) :=
  ⟨h, [], rfl, .top rfl⟩

theorem fits_opened (w : World) : w.Fits Machine.globalEnv (.opened 0) := ⟨[], rfl, rfl, by simp⟩

theorem Reaches.length {w : World} (h : w.Reaches members fs tables) : fs.length = tables.length := by
  induction h with
  | top => rfl
  | receiver => rfl
  | function _ _ ih => rw [List.length_cons, List.length_cons, ih]

theorem Fits.global_iff {w : World} (h : w.Fits env c) : env = Machine.globalEnv ↔ c.depth = 0 := by
  have hlength : ∀ fs : List Nat, fs ++ Machine.globalEnv = Machine.globalEnv ↔ fs.length = 0 := by
    intro fs
    rw [List.append_left_eq_self, List.length_eq_zero_iff]
  cases c with
  | placed n =>
    obtain ⟨-, fs, rfl, hreaches⟩ := h
    rw [hlength, hreaches.length]
    rfl
  | opened depth =>
    obtain ⟨fs, rfl, rfl, -⟩ := h
    exact hlength fs

end World

end Addresses

end StoneLang
