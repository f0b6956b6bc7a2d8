/-
  Addresses and globals in sessions.

  SPEC: a name that has been placed is found where its location leads, in the frame that was made for the
  table in which it was placed, or on an object that has it as a member in this place; and code that runs
  inside a call leaves the globals as they are.

  PROGRAM: a session that is given lines, sources and natives, under observation (`Session.observed`).

  Both are read off the invariant that every unit keeps (`sound_execute`), with different aims.  Addresses are
  right if the code is well named; the globals are kept by whatever the grammar gives.
-/
import StoneLang.Proofs.Addresses.Units
import StoneLang.Proofs.Sessions.Discipline

namespace StoneLang

/-! ## What an aim asks -/

namespace Aim

variable (aim : Aim)

instance (inClass : Bool) : (u : Use) → Decidable (aim.AsksUse inClass u)
  | .assign _ word => inferInstanceAs (Decidable (aim.receiver = true → inClass = true → word.text ≠ thisName))
  | .read .. | .definition .. | .classDefinition .. => isTrue trivial

/-- The scope inside a function, if its parameters are as asked. -/
def inside (inClass : Bool) (_ : Site) (params : List Label) : Option Bool :=
  if aim.room = true → (params.map Label.text).Nodup then some inClass else .none

theorem inside_eq_some (inClass : Bool) (site : Site) (params : List Label) (inner : Bool) :
    aim.inside inClass site params = some inner ↔ aim.AsksFunction inClass site params inner := by
  unfold inside AsksFunction
  by_cases hroom : aim.room = true → (params.map Label.text).Nodup
  · rw [if_pos hroom, Option.some.injEq, eq_comm]
    exact ⟨fun hinner => ⟨hroom, hinner⟩, And.right⟩
  · rw [if_neg hroom]
    exact ⟨nofun, fun h => absurd h.1 hroom⟩

instance (inClass : Bool) (node : Node) : Decidable (node.Every aim.AsksUse aim.AsksFunction inClass) :=
  decidable_of_iff _ (Node.check_iff (p := fun c u => decide (aim.AsksUse c u)) (by simp) aim.inside_eq_some
    inClass node)

instance (inClass : Bool) (nodes : List Node) : Decidable (AllEvery aim.AsksUse aim.AsksFunction inClass nodes) :=
  decidable_of_iff _ (checkAll_iff (p := fun c u => decide (aim.AsksUse c u)) (by simp) aim.inside_eq_some
    inClass nodes)

instance (member : Node) : Decidable (aim.AsksMember member) := by
  unfold AsksMember
  cases Definition.ofNode? member <;> infer_instance

instance : DecidablePred aim.Asks := fun unit => by
  unfold Asks
  cases unit <;> infer_instance

end Aim

/-- No parameter list repeats a name, no method has a parameter called `this`, and no class body assigns to
`this`. -/
def Node.WellNamed (unit : Node) : Prop := Aim.all.Asks unit

instance : DecidablePred Node.WellNamed := fun unit => inferInstanceAs (Decidable (Aim.all.Asks unit))

/-- All that is observed of a session that is given `entries`. -/
def Session.observed (config : Config) (watched : Bool) (input : Input) (limit : Option Nat) (nextClass : Nat)
    (entries : List Session.Entry) : Observed :=
  Observed.carrier.after Observed.execute config.layers
    (.ofMachine (Session.start config watched input limit nextClass).machine) entries

/-- The native fails, if it fails by itself, in a way that the aim admits. -/
def Native.Admitted (aim : Aim) (n : Native) : Prop :=
  ∀ failure, n.action = .host (.fail failure) → aim.Admits failure

namespace Addresses

open Coupling

variable {aim : Aim} {w : World} {m : Machine} {trail : Trail}

/-! ## What is kept between units -/

theorem Inv.read (h : Inv aim w m trail) (nextSite : Site) (records : Array Record) :
    Inv aim w { m with nextSite, records } trail :=
  h.stepped ⟨⟨rfl, rfl, rfl, rfl, rfl⟩, rfl, rfl, rfl⟩ ⟨h.held.frames, h.held.arrays, h.held.objects⟩

theorem Inv.note (h : Inv aim w m trail) (record : Record) : Inv aim w (m.note record) trail := by
  rw [Machine.note_eq]
  exact h.read m.nextSite _

theorem Inv.registerNative (h : Inv aim w m trail) (hn : n.Admitted aim) : Inv aim w (m.registerNative n) trail := by
  obtain ⟨frame, hframe, his⟩ := h.framed.each _ _ h.framed.natives
  obtain ⟨bindings, rfl⟩ : ∃ bindings, frame = .builtins bindings := by
    cases frame with
    | builtins bindings => exact ⟨bindings, rfl⟩
    | _ => exact absurd his id
  have hframes : (m.registerNative n).frames
      = m.frames.modify Machine.builtinFrame (Frame.bind n.name (.native m.natives.size)) := by
    simp only [Machine.registerNative, Frames.define, Frames.definer?, hframe, Frames.bindIn]
  have hframed : Framed aim w (m.registerNative n).frames trail := by
    rw [hframes]
    refine h.framed.modify h.framed.natives fun frame hframe => ?_
    cases frame with
    | builtins bindings => exact hframe
    | _ => exact absurd hframe id
  have hheld : Frames.Hold (w.Good aim) (m.registerNative n).frames := by
    rw [hframes]
    exact h.held.frames.modify _ fun frame hframe => hframe.bind n.name trivial
  exact { h with
    framed := hframed
    natives := Array.forall_mem_push.mpr ⟨hn, h.natives⟩
    held := ⟨hheld, h.held.arrays, h.held.objects⟩ }

theorem inv_start (aim : Aim) (settings : Settings) (input : Input) (limit : Option Nat) (nextClass : Nat) :
    Inv aim ⟨0, Notes.empty.siteNote .empty, [], #[], [.natives, .globals], [], [], []⟩
      (Machine.start settings input limit nextClass) .start where
  noted := rfl
  fresh _ _ _ := ⟨rfl, rfl⟩
  framed := by
    refine ⟨rfl, rfl, rfl, fun f hf => ?_, fun f role hf => ?_⟩
    · rcases f with _ | _ | f
      · cases hf
      · rfl
      · cases hf
    · rcases f with _ | _ | f <;> cases hf
      · exact ⟨.builtins [], rfl, rfl⟩
      · exact ⟨.globals [] #[], rfl, rfl, rfl, rfl⟩
  functions_size := rfl
  functions _ _ hf := by simp [Machine.start] at hf
  function_sites _ _ hf := by simp at hf
  classes := rfl
  classes_good := nofun
  class_sites _ _ hf := by simp at hf
  objects := rfl
  fields _ ho := by simp [Machine.start] at ho
  natives _ hn := by simp [Machine.start] at hn
  held := .start settings input limit nextClass

theorem Native.admitted_of_standard (h : n ∈ Native.standard) : n.Admitted aim := by
  simp only [Native.standard, List.mem_cons, List.not_mem_nil, or_false] at h
  rcases h with rfl | rfl | rfl | rfl | rfl | rfl <;> exact fun _ h => by cases h

theorem Logged.withMachine (h : Logged aim s) (m : Machine) : Logged aim { s with machine := m } :=
  ⟨h.moments, h.evaluations, h.failures, h.known⟩

/-- As long as all units are as the aim asks, the state is sound; a failure is written down. -/
theorem discipline (aim : Aim) :
    Discipline Observed.carrier Observed.execute
      (fun k s => (∀ unit ∈ s.executed, aim.Asks unit ∧ aim.Heeds unit) → Sound aim k s) fun s e => e ∈ s.failures where
  read nextSite records hs hasks := by
    obtain ⟨w, hknown, hinv, hlogged⟩ := hs hasks
    exact ⟨w, hknown, hinv.read nextSite records, hlogged.withMachine _⟩
  widen hle hs hasks := by
    obtain ⟨w, hknown, rest⟩ := hs hasks
    exact ⟨w, Nat.le_trans hknown hle, rest⟩
  execute {k l s unit} hs hunit hle hsites := by
    obtain ⟨hsame, hexecuted⟩ := Observed.machine_execute unit s
    refine ⟨hsame, ?_⟩
    have hsound : (∀ other ∈ (finalState (Observed.execute unit s)).executed, aim.Asks other ∧ aim.Heeds other) →
        Sound aim l (finalState (Observed.execute unit s)) := by
      intro hasks
      rw [hexecuted] at hasks
      exact sound_execute (hs fun other hother => hasks other (List.mem_cons_of_mem _ hother)) hunit
        (hasks unit List.mem_cons_self).1 (hasks unit List.mem_cons_self).2 hle hsites
    cases hres : Observed.execute unit s with
    | ok value s' =>
      rw [hres] at hsound
      exact hsound
    | error e s' =>
      rw [hres] at hsound
      exact ⟨hsound, Observed.mem_failures_of_execute hres⟩

theorem Sound.registerNative (hs : Sound aim k s) (hn : n.Admitted aim) :
    Sound aim k { s with machine := s.machine.registerNative n } := by
  obtain ⟨w, hknown, hinv, hlogged⟩ := hs
  exact ⟨w, hknown, hinv.registerNative hn, hlogged.withMachine _⟩

theorem sound_start (aim : Aim) (config : Config) (watched : Bool) (input : Input) (limit : Option Nat)
    (nextClass k : Nat) : Sound aim k (.ofMachine (Session.start config watched input limit nextClass).machine) := by
  obtain ⟨w, hknown, hinv⟩ : ∃ w : World, w.known = 0 ∧
      Inv aim w (Session.start config watched input limit nextClass).machine .start :=
    Session.start_induction (P := fun m => ∃ w : World, w.known = 0 ∧ Inv aim w m .start)
      ⟨_, rfl, inv_start aim _ input limit nextClass⟩
      (fun hstandard ⟨w, hknown, hinv⟩ => ⟨w, hknown, hinv.registerNative (Native.admitted_of_standard hstandard)⟩)
      fun record ⟨w, hknown, hinv⟩ => ⟨w, hknown, hinv.note record⟩
  exact ⟨w, hknown ▸ Nat.zero_le k, hinv, List.forall_mem_nil _, List.forall_mem_nil _, List.forall_mem_nil _,
    List.forall_mem_nil _⟩

section
variable (aim : Aim) (config : Config) (watched : Bool) (input : Input) (limit : Option Nat) (nextClass : Nat)
  {entries : List Session.Entry} (hentries : ∀ entry ∈ entries, entry.Meets (Native.Admitted aim) fun _ => False)

include hentries

/-- A session under observation is the session, and if its units are as the aim asks, it ends in a sound state. -/
theorem sound_observed : (Session.start config watched input limit nextClass).after entries
      = ⟨config.layers, (Session.observed config watched input limit nextClass entries).machine⟩ ∧
    ((∀ unit ∈ (Session.observed config watched input limit nextClass entries).executed, aim.Asks unit ∧ aim.Heeds unit) →
      Observed.carrier.Settled (Sound aim) (Session.observed config watched input limit nextClass entries)) := by
  obtain ⟨hafter, hsound⟩ := (discipline aim).after (fun hn hs hasks => (hs hasks).registerNative hn)
    (fun hfalse _ => absurd hfalse id) hentries config.layers
    (s := .ofMachine (Session.start config watched input limit nextClass).machine)
    fun _ => sound_start aim config watched input limit nextClass _
  exact ⟨hafter, fun hasks => hsound hasks⟩

theorem logged_observed : (Session.start config watched input limit nextClass).after entries
      = ⟨config.layers, (Session.observed config watched input limit nextClass entries).machine⟩ ∧
    ((∀ unit ∈ (Session.observed config watched input limit nextClass entries).executed, aim.Asks unit ∧ aim.Heeds unit) →
      Logged aim (Session.observed config watched input limit nextClass entries)) := by
  obtain ⟨hafter, hsound⟩ := sound_observed aim config watched input limit nextClass hentries
  refine ⟨hafter, fun hasks => ?_⟩
  obtain ⟨_, -, -, hlogged⟩ := hsound hasks
  exact hlogged

end

end Addresses

/-! ## Calls keep the globals -/

/-- Whatever is evaluated in an environment other than the global one, in a session that runs code of the
grammar, the names of the globals and what their slots hold are the same before and after it. -/
theorem calls_keep_globals (config : Config) (watched : Bool) (input : Input) (limit : Option Nat)
    (nextClass : Nat) (entries : List Session.Entry)
    (htexts : ∀ entry ∈ entries, entry.Meets (fun _ => True) fun _ => False) (s : Observed)
    (hs : s = Session.observed config watched input limit nextClass entries) :
    (Session.start config watched input limit nextClass).after entries = ⟨config.layers, s.machine⟩ ∧
      ∀ e ∈ s.evaluations, e.env ≠ Machine.globalEnv → e.after = e.before := by
  subst hs
  have hentries : ∀ entry ∈ entries, entry.Meets (Native.Admitted .none) fun _ => False := fun entry hentry =>
    (htexts entry hentry).mono fun _ _ failure _ => Aim.admits_none failure
  obtain ⟨hafter, hlogged⟩ := Addresses.logged_observed .none config watched input limit nextClass hentries
  exact ⟨hafter, (hlogged fun unit _ => ⟨Aim.asks_none unit, Aim.heeds_none unit⟩).evaluations⟩

/-- A closure that is called inside a function, and a method, both of which assign to names of globals. -/
def assigningEntries : List Session.Entry :=
  [.line (text "x = 1; def f(n) \x7b g = fun(k) \x7b x = k; x \x7d; g(n) \x7d; f(2)\n"),
    .line (text "class A \x7b def m(k) \x7b x = k; x \x7d \x7d; A.new.m(3)\n")]

/-- They leave the globals as they are. -/
theorem assigning_keeps_globals :
    (Session.observed .default false (.ofText []) none 0 assigningEntries).evaluations.any
        (fun e => decide (e.env.length = 4)) = true ∧
      ∀ e ∈ (Session.observed .default false (.ofText []) none 0 assigningEntries).evaluations,
        e.env ≠ Machine.globalEnv → e.after = e.before := by
  refine ⟨by decide +kernel, (calls_keep_globals .default false (.ofText []) none 0 assigningEntries ?_ _ rfl).2⟩
  simp [assigningEntries, Session.Entry.Meets]

/-! ## Static addresses -/

/-- The location of the name that the moment is an access to, if it has been placed. -/
def Moment.location? (moment : Moment) : Option Location :=
  match moment.request with
  | .readName site _ _ | .assignName site _ _ _ => moment.machine.notes.places.get? site
  | _ => none

/-- The native does not pretend that a variable is not where it was addressed. -/
def Native.NoAddressFault (n : Native) : Prop :=
  ∀ failure, n.action = .host (.fail failure) → ¬ failure.IsAddressFault

/-- The moment is an access to a name that fails because an object lacks a member. -/
def Moment.LacksMember (moment : Moment) : Prop :=
  match moment.request with
  | .readName site word env => ∃ title, moment.machine.read site word env = .error (.noMember title word.text)
  | .assignName site word value env =>
    ∃ title, moment.machine.assigned site word value env = .error (.noMember title word.text)
  | _ => False

theorem Moment.Right.not_lacksMember {moment : Moment} (h : moment.Right) : ¬ moment.LacksMember := by
  obtain ⟨request, m, trail⟩ := moment
  cases request with
  | readName site word env =>
    rintro ⟨title, hread⟩
    have hleads : ∀ location, m.notes.places.get? site = some location →
        m.Leads trail site word env location := h
    have hread : m.read site word env = .error (.noMember title word.text) := hread
    unfold Machine.read at hread
    cases hplace : m.notes.places.get? site with
    | none =>
      rw [hplace] at hread
      dsimp only at hread
      split at hread <;> cases hread
    | some location =>
      rw [hplace] at hread
      have hthere := hleads location hplace
      cases location with
      | lexical nest index =>
        dsimp only at hread
        split at hread <;> cases hread
      | field index hops =>
        obtain ⟨object, c, hreceiver, -, -, hsome⟩ := hthere
        obtain ⟨value, hvalue⟩ := Option.isSome_iff_exists.mp hsome
        simp only [hreceiver, hvalue] at hread
        cases hread
      | method index hops =>
        obtain ⟨object, c, hreceiver, -, -, hsome⟩ := hthere
        obtain ⟨d, hd⟩ := Option.isSome_iff_exists.mp hsome
        simp only [hreceiver, hd] at hread
        cases hread
  | assignName site word value env =>
    rintro ⟨title, hassigned⟩
    have hleads : ∀ location, m.notes.places.get? site = some location →
        m.Leads trail site word env location := h
    have hassigned : m.assigned site word value env = .error (.noMember title word.text) := hassigned
    unfold Machine.assigned at hassigned
    cases hplace : m.notes.places.get? site with
    | none =>
      rw [hplace] at hassigned
      cases hassigned
    | some location =>
      rw [hplace] at hassigned
      have hthere := hleads location hplace
      cases location with
      | lexical nest index =>
        dsimp only at hassigned
        split at hassigned <;> cases hassigned
      | field index hops =>
        obtain ⟨object, c, hreceiver, -, -, hsome⟩ := hthere
        obtain ⟨old, hold⟩ := Option.isSome_iff_exists.mp hsome
        simp only [hreceiver, hold] at hassigned
        cases hassigned
      | method index hops => cases hassigned
  | _ => exact id

/-- In a session that runs well-named code of the grammar, every name that has been placed is found where its
location leads, and no unit fails because a variable is not where it was addressed. -/
theorem static_addresses_are_right (config : Config) (watched : Bool) (input : Input) (limit : Option Nat)
    (nextClass : Nat) (entries : List Session.Entry)
    (htexts : ∀ entry ∈ entries, entry.Meets Native.NoAddressFault fun _ => False) (s : Observed)
    (hs : s = Session.observed config watched input limit nextClass entries)
    (hnamed : ∀ unit ∈ s.executed, unit.WellNamed) :
    (Session.start config watched input limit nextClass).after entries = ⟨config.layers, s.machine⟩ ∧
      (∀ moment ∈ s.moments, moment.Right ∧ ¬ moment.LacksMember) ∧
      ∀ e ∈ s.failures, ¬ e.IsAddressFault := by
  subst hs
  have hentries : ∀ entry ∈ entries, entry.Meets (Native.Admitted .all) fun _ => False := fun entry hentry =>
    (htexts entry hentry).mono fun _ hn failure hfail => Aim.admits_all_iff.mpr (hn failure hfail)
  obtain ⟨hafter, hlogged⟩ := Addresses.logged_observed .all config watched input limit nextClass hentries
  have hlogged := hlogged fun unit hunit => ⟨hnamed unit hunit, nofun⟩
  refine ⟨hafter, fun moment hmoment => ?_, fun e he => Aim.admits_all_iff.mp (hlogged.failures e he)⟩
  have hright := (hlogged.moments moment hmoment).right rfl
  exact ⟨hright, hright.not_lacksMember⟩

/-- A closure in a function, and a class whose methods use each other and a field. -/
def addressedEntries : List Session.Entry :=
  [.line (text "class A \x7b a = 1; def m(k) \x7b n(k) + a \x7d; def n(k) \x7b k \x7d \x7d\n"),
    .line (text "def f(n) \x7b g = fun(k) \x7b n + k \x7d; g(A.new.m(2)) \x7d; f(3)\n")]

/-- Names of every kind are found where they were placed. -/
theorem addressed_are_right :
    let s := Session.observed .default false (.ofText []) none 0 addressedEntries
    [Location.lexical 1 0, .field 0 0, .method 1 0].all (s.moments.filterMap Moment.location?).contains = true ∧
      (∀ moment ∈ s.moments, moment.Right ∧ ¬ moment.LacksMember) ∧ ∀ e ∈ s.failures, ¬ e.IsAddressFault := by
  refine ⟨by decide +kernel, (static_addresses_are_right .default false (.ofText []) none 0 addressedEntries ?_ _
    rfl (by decide +kernel)).2⟩
  simp [addressedEntries, Session.Entry.Meets]

end StoneLang
