/-
  Bare names of members.

  SPEC: a bare name in a class body that was placed at a member reaches the member of exactly this name, on the object that
  its environment has as the receiver: a field is read and written in its slot, a method is the definition that the class
  of the object inherits.

  PROGRAM: a session that is given lines, sources and natives, in every state that it passes through (`Observed.Passes`)
  and at every access to a name that it makes (`Observed.moments`).

  A location is no more than a slot, so all depends on the object.  The slot is that of the name in every class that has
  the method, or that runs the initializer, in which the name stands, so the access is exact for every object of such a
  class.  The receiver is such an object as long as class bodies leave `this` alone.  If one does not, a bare name may
  reach whatever stands in its slot (`rebound_receiver_gives_other_field`).
-/
import StoneLang.Proofs.Classes.Methods

namespace StoneLang

/-- No class body in the unit assigns to `this`. -/
def Node.LeavesThis (unit : Node) : Prop := Aim.received.Asks unit

instance : DecidablePred Node.LeavesThis := fun unit => inferInstanceAs (Decidable (Aim.received.Asks unit))

/-! ## Exact accesses -/

namespace Machine

/-- If the name has been placed at a member, this object is its receiver. -/
def Receives (m : Machine) (object : Nat) (site : Site) (env : Env) : Prop :=
  match m.notes.places.get? site with
  | some (.field _ hops) | some (.method _ hops) => m.receiver? env hops = some object
  | _ => True

/-- If the name has been placed at a member, it reaches the member of exactly this name, on its receiver. -/
def Exact (m : Machine) (site : Site) (word : Word) (env : Env) : Prop :=
  match m.notes.places.get? site with
  | some (.field slot hops) => ∃ object c value, m.receiver? env hops = some object ∧ m.classOf? object = some c ∧
      c.layout.fields[slot]? = some word.text ∧ Run.fieldAt? m object slot = some value ∧
      m.read site word env = .ok value ∧ ∀ new, m.assigned site word new env = .ok (m.withField object slot new)
  | some (.method slot hops) => ∃ object c d, m.receiver? env hops = some object ∧ m.classOf? object = some c ∧
      c.layout.methods[slot]? = some word.text ∧ m.inherited? c word.text = some d ∧ d.name = word.text ∧
      m.read site word env = .ok (.method object d) ∧
      ∀ new, m.assigned site word new env = .error (.methodAssignment word.text)
  | _ => True

end Machine

/-- If the moment is an access to a name, it is exact. -/
def Moment.Exact (moment : Moment) : Prop :=
  match moment.request with
  | .readName site word env | .assignName site word _ env => moment.machine.Exact site word env
  | _ => True

theorem name_of_mostDerived?
    (h : mostDerived? bodies name = some d) : d.name = name := by
  obtain ⟨members, -, hlast⟩ := List.exists_of_findSome?_eq_some h
  simpa using List.find?_some hlast

namespace Machine

variable {m : Machine} {site : Site} {word : Word} {env : Env}

theorem Inheriting.exact (h : m.Inheriting) (trail : Trail)
    (hleads : ∀ location, m.notes.places.get? site = some location → (∀ nest index, location ≠ .lexical nest index) →
      m.Leads trail site word env location) : m.Exact site word env := by
  unfold Exact
  cases hplace : m.notes.places.get? site with
  | none => trivial
  | some location =>
    cases location with
    | lexical nest index => trivial
    | field slot hops =>
      obtain ⟨object, c, hreceiver, hc, hname, hsome⟩ := hleads _ hplace (by simp)
      obtain ⟨value, hvalue⟩ := Option.isSome_iff_exists.mp hsome
      refine ⟨object, c, value, hreceiver, hc, hname, hvalue, ?_, fun new => ?_⟩
      · simp only [read, hplace, hreceiver, hvalue]
      · simp only [assigned, hplace, hreceiver, hvalue]
    | method slot hops =>
      obtain ⟨object, c, hreceiver, hc, hname, -⟩ := hleads _ hplace (by simp)
      obtain ⟨d, hinherited, hd⟩ := h.methodAt? hc hname
      refine ⟨object, c, d, hreceiver, hc, hname, hinherited, name_of_mostDerived? hinherited, ?_, fun new => ?_⟩
      · simp only [read, hplace, hreceiver, hd]
      · simp only [assigned, hplace]

end Machine

theorem Machine.Inheriting.base {m : Machine} (h : m.Inheriting) {c base : Class} (hc : c ∈ m.classes)
    (hbase : base ∈ c :: m.superclasses c) : base ∈ m.classes ∧ c.layout.Extends base.layout := by
  rcases List.mem_cons.mp hbase with rfl | hbase
  · exact ⟨hc, .refl _⟩
  · obtain ⟨ref, -, href⟩ := List.mem_filterMap.mp hbase
    have hrealises := h.realises hc
    have hmem : Machine.anatomy base ∈ (m.superclasses c).map Machine.anatomy := List.mem_map_of_mem hbase
    exact ⟨Array.mem_of_getElem? href, hrealises.fields _ hmem, hrealises.methods _ hmem⟩

theorem Moment.Right.exact {moment : Moment} (h : moment.Right) (hinheriting : moment.machine.Inheriting) :
    moment.Exact := by
  obtain ⟨request, m, trail⟩ := moment
  cases request with
  | readName site word env => exact hinheriting.exact trail fun location hplace _ => h location hplace
  | assignName site word value env => exact hinheriting.exact trail fun location hplace _ => h location hplace
  | _ => trivial

namespace Addresses

variable {aim : Aim} {w : World} {m : Machine} {trail : Trail} {c : Class}

/-- Whoever the receiver is, if its class has the name in this slot then the access is exact. -/
theorem Inv.exact (h : Inv aim w m trail) (hinheriting : m.Inheriting) (hc : m.classOf? object = some c)
    (hcarries : c.layout.Carries m.notes.places site word)
    (hreceives : m.Receives object site env) : m.Exact site word env := by
  obtain ⟨ref, entry, href, hentry, rfl⟩ : ∃ ref entry, w.objects[object]? = some ref ∧
      w.classes[ref]? = some entry ∧ entry.2 = c := by
    unfold Machine.classOf? at hc
    obtain ⟨o, ho, hclass⟩ := Option.bind_eq_some_iff.mp hc
    have href : w.objects[object]? = some o.classRef := by
      rw [← h.object? object, ho]
      rfl
    rw [h.class?] at hclass
    obtain ⟨entry, hentry, rfl⟩ := Option.map_eq_some_iff.mp hclass
    exact ⟨o.classRef, entry, href, hentry, rfl⟩
  unfold Layout.Carries at hcarries
  unfold Machine.Receives at hreceives
  refine hinheriting.exact trail fun location hplace hmember => ?_
  rw [hplace] at hcarries hreceives
  cases location with
  | lexical nest index => exact absurd rfl (hmember nest index)
  | field slot hops =>
    exact ⟨object, entry.2, hreceives, hc, hcarries,
      h.fieldAt? href hentry (List.getElem?_eq_some_iff.mp hcarries).1⟩
  | method slot hops =>
    exact ⟨object, entry.2, hreceives, hc, hcarries,
      h.methodAt? href hentry (List.getElem?_eq_some_iff.mp hcarries).1⟩

end Addresses

/-! ## Sessions -/

namespace Session

theorem developed_observed (config : Config) (watched : Bool) (input : Input) (limit : Option Nat) (nextClass : Nat)
    (htexts : ∀ entry ∈ entries, entry.Meets (fun _ => True) fun _ => False) :
    (start config watched input limit nextClass).after entries
        = ⟨config.layers, (observed config watched input limit nextClass entries).machine⟩ ∧
      (observed config watched input limit nextClass entries).Developed := by
  let first : Observed := .ofMachine (start config watched input limit nextClass).machine
  have hfirst : first.Developed :=
    ⟨inheriting_start config watched input limit nextClass, List.forall_mem_nil _⟩
  exact Observed.developed_discipline.after (fun _ hs => ⟨hs.machine.of_classes rfl, hs.moments⟩)
    (fun hfalse _ => absurd hfalse id) htexts config.layers hfirst

/-- In every state of a session, the access is exact for every object, to all bare names in the methods that its class has
and in the initializers that it is made with, wherever the object is the receiver.  If no class body assigns to `this`,
then all accesses that the session makes are exact. -/
theorem bare_members_are_exact (config : Config) (watched : Bool) (input : Input) (limit : Option Nat) (nextClass : Nat)
    (entries : List Entry) (htexts : ∀ entry ∈ entries, entry.Meets Native.NoAddressFault fun _ => False) (s : Observed)
    (hs : s = observed config watched input limit nextClass entries) :
    (start config watched input limit nextClass).after entries = ⟨config.layers, s.machine⟩ ∧
    (∀ m, s.Passes m → ∀ object c, m.classOf? object = some c →
      (∀ d ∈ c.layout.definitions, AllNames (fun site word => ∀ env, m.Receives object site env →
        m.Exact site word env) d.body) ∧
      ∀ base ∈ c :: m.superclasses c, ∀ member ∈ base.members, Definition.ofNode? member = none →
        AllNames (fun site word => ∀ env, m.Receives object site env → m.Exact site word env) [member]) ∧
    ((∀ unit ∈ s.executed, unit.LeavesThis) → ∀ moment ∈ s.moments, moment.Exact) := by
  subst hs
  have hplain : ∀ entry ∈ entries, entry.Meets (fun _ => True) fun _ => False := fun entry hentry =>
    (htexts entry hentry).mono fun _ _ => trivial
  obtain ⟨hafter, hdeveloped⟩ := developed_observed config watched input limit nextClass hplain
  refine ⟨hafter, fun m hm object c hc => ?_, fun hleaves moment hmoment => ?_⟩
  · obtain ⟨hinheriting, -⟩ := hdeveloped.passes hm
    obtain ⟨w, trail, hinv⟩ := inv_observed config watched input limit nextClass hplain hm
    have hmem := Machine.mem_of_classOf? hc
    refine ⟨fun d hd => ?_, fun base hbase member hmember hnone => ?_⟩
    · exact (hinv.method_carried hmem hd).mono fun site word hcarries env hreceives =>
        hinv.exact hinheriting hc hcarries hreceives
    · obtain ⟨hthere, hextends⟩ := hinheriting.base hmem hbase
      exact (hinv.initializer_carried hthere hmember hnone).mono fun site word hcarries env hreceives =>
        hinv.exact hinheriting hc (hextends.carries hcarries) hreceives
  · have hentries : ∀ entry ∈ entries, entry.Meets (Native.Admitted .received) fun _ => False :=
      fun entry hentry => (htexts entry hentry).mono fun _ hn failure hfail =>
        ⟨fun haim => absurd haim Bool.false_ne_true, fun _ haddress => absurd haddress (hn failure hfail)⟩
    obtain ⟨-, hlogged⟩ := Addresses.logged_observed .received config watched input limit nextClass hentries
    have hright := ((hlogged fun unit hunit => ⟨hleaves unit hunit, nofun⟩).moments moment hmoment).right rfl
    exact hright.exact (hdeveloped.moments moment hmoment).1

/-- A class whose initializer and method use an inherited field, in a closure too, and a method that calls another one. -/
def exactEntries : List Entry :=
  [.line (text "class A \x7b a = 1; def m(k) \x7b n(k) + a \x7d; def n(k) \x7b f = fun(j) \x7b a = a + j \x7d; f(k) \x7d \x7d\n"),
    .line (text "class B extends A \x7b b = a + 1; def n(k) \x7b b + k \x7d \x7d; B.new.m(2) + A.new.m(3)\n")]

/-- Fields and methods are reached by their own names, at every depth. -/
theorem exact_in_closure_and_subclass :
    let s := observed .default false (.ofText []) none 0 exactEntries
    [Location.field 0 0, .field 1 0, .field 0 1, .method 1 0].all (s.moments.filterMap Moment.location?).contains = true ∧
      ∀ moment ∈ s.moments, moment.Exact := by
  obtain ⟨-, -, hexact⟩ := bare_members_are_exact .default false (.ofText []) none 0 exactEntries
    (by simp [exactEntries, Entry.Meets]) _ rfl
  exact ⟨by decide +kernel, hexact (by decide +kernel)⟩

/-- A method that puts another object in the place of its receiver. -/
def rebindingEntries : List Entry :=
  [.line (text "class A \x7b x = 1 \x7d\n"), .line (text "class B \x7b y = 2; def f(o) \x7b this = o; y \x7d \x7d\n"),
    .line (text "B.new.f(A.new)\n")]

/-- The moment reads `y` by its slot on an object that has nothing but a field `x`, and gets 1. -/
def readsOther (moment : Moment) : Bool :=
  match moment.request with
  | .readName site word env => word.text == text "y" && moment.machine.notes.places.get? site == some (.field 0 0) &&
      ((moment.machine.receiver? env 0).bind moment.machine.classOf?).any (fun c => c.layout.fields == [text "x"]) &&
      (match moment.machine.read site word env with
        | .ok (.integer 1) => true
        | _ => false)
  | _ => false

theorem rebound_receiver_gives_other_field :
    ∃ moment ∈ (observed .default false (.ofText []) none 0 rebindingEntries).moments,
      readsOther moment = true ∧ ¬ moment.Exact := by
  have hsome : (observed .default false (.ofText []) none 0 rebindingEntries).moments.any readsOther = true := by
    decide +kernel
  obtain ⟨moment, hmoment, hreads⟩ := List.any_eq_true.mp hsome
  refine ⟨moment, hmoment, hreads, fun hexact => ?_⟩
  obtain ⟨request, m, trail⟩ := moment
  cases request with
  | readName site word env =>
    simp only [readsOther, Bool.and_eq_true, beq_iff_eq] at hreads
    obtain ⟨⟨⟨hword, hplace⟩, hfields⟩, -⟩ := hreads
    have hexact : m.Exact site word env := hexact
    unfold Machine.Exact at hexact
    rw [hplace] at hexact
    obtain ⟨object, c, -, hreceiver, hc, hname, -⟩ := hexact
    rw [hreceiver, Option.bind_some, hc, Option.any_some, beq_iff_eq] at hfields
    rw [hfields, hword] at hname
    exact absurd hname (by decide)
  | _ => exact Bool.noConfusion hreads

end Session

end StoneLang
