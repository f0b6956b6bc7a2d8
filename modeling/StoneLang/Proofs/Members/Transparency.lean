/-
  Member accesses find what a search finds.

  PROGRAM: a session whose member accesses remember what they found, and one that searches the class at every access
  (`Run.executeBySearch`); in all else the two evaluate alike (`Actions.evaluate_machine`).

  SPEC: both answer the same to everything they are given, and their machines are the same but for what is remembered and
  the journal; and whenever a request is made of the machine, a member access that remembers something for the class of
  some object remembers what a search of its title in that class finds (`Session.member_memory_is_transparent`).

  Units have sites of their own, so the titles that are known grow with every unit (`Titles.adding`).
-/
import StoneLang.Proofs.Addresses.Sessions
import StoneLang.Proofs.Members.Searching
import StoneLang.Proofs.Sessions.Following

namespace StoneLang

/-- What the access remembers is what a search finds, in every class for which it remembers it. -/
def Machine.Recalls (m : Machine) (a : Site × Label) : Prop :=
  ∀ entry, m.notes.caches.get? a.1 = some entry → ∀ c ∈ m.classes, c.id = entry.classId →
    searchMember c a.2.text = some entry

theorem Machine.Remembers.recalls {t : Titles} {m : Machine} (h : m.Remembers t) {a : Site × Label} (ha : t.Has a) :
    m.Recalls a := by
  intro entry hentry c hc hid
  rw [← ha.2]
  exact (h.found a.1 entry hentry c hc hid).2

/-- The second machine is the first one without what member accesses remember, and with some journal. -/
def Machine.SameButMemory (m m' : Machine) : Prop :=
  ∃ records, m' = { m with notes := { m.notes with caches := .empty }, records }

namespace Observed

/-- The machine was so at some moment, or is so now. -/
def Passes (s : Observed) (m : Machine) : Prop := m = s.machine ∨ ∃ moment ∈ s.moments, m = moment.machine

/-- The access stands in a unit that has been executed, or it has been made. -/
def Mentions (s : Observed) (a : Site × Label) : Prop :=
  (∃ unit ∈ s.executed, a ∈ unit.accesses) ∨ ∃ moment ∈ s.moments, moment.request.access? = some a

/-- All titles below `k` that turn up are known: the state is clear, and the units that have been executed are known. -/
def Known (k : Nat) (s : Observed) : Prop :=
  ∃ t : Titles, t.known ≤ k ∧ s.Clear t ∧ ∀ unit ∈ s.executed, ∀ a ∈ unit.accesses, t.Has a

variable {s : Observed} {k : Nat}

theorem Clear.later (h : s.Clear t) (hle : t.Within u) : s.Clear u :=
  ⟨h.machine.later hle, fun moment hmoment => (h.moments moment hmoment).later hle⟩

theorem Known.adding {l : Nat} {unit : Node} (h : s.Known k) (hle : k ≤ l) (hsites : Ascending k l unit.sites) :
    ∃ t : Titles, t.known ≤ l ∧ s.Clear t ∧ (∀ unit ∈ s.executed, ∀ a ∈ unit.accesses, t.Has a) ∧
      ∀ a ∈ unit.accesses, t.Has a := by
  obtain ⟨t, hknown, hclear, hexecuted⟩ := h
  have hwithin : t.Within (t.adding unit l) := Titles.within_adding (Nat.le_trans hknown hle)
  have hnodup : unit.sites.Nodup := hsites.ordered.imp fun hlt => Nat.ne_of_lt hlt
  have hnew : ∀ site ∈ unit.sites, t.known ≤ site ∧ site < l := fun site hsite =>
    ⟨Nat.le_trans hknown (hsites.within site hsite).1, (hsites.within site hsite).2⟩
  exact ⟨t.adding unit l, Nat.le_refl l, hclear.later hwithin,
    fun other hother a ha => (hexecuted other hother a ha).later hwithin, fun a ha => Titles.has_adding hnodup hnew ha⟩

theorem known_discipline : Discipline carrier execute Known fun _ _ => True where
  read nextSite records := by
    rintro ⟨t, hknown, hclear, hexecuted⟩
    exact ⟨t, hknown, ⟨hclear.machine.read nextSite records, hclear.moments⟩, hexecuted⟩
  widen hle := by
    rintro ⟨t, hknown, hclear, hexecuted⟩
    exact ⟨t, Nat.le_trans hknown hle, hclear, hexecuted⟩
  execute {k l s unit} hs _ hle hsites := by
    obtain ⟨hsame, hunits⟩ := machine_execute unit s
    refine ⟨hsame, ?_⟩
    obtain ⟨t, hknown, hclear, hexecuted, hunit⟩ := hs.adding hle hsites
    have hended := (retraces_execute s.machine.settings.watched hunit).ends s hclear
    have hall : ∀ other ∈ unit :: s.executed, ∀ a ∈ other.accesses, t.Has a := List.forall_mem_cons.mpr ⟨hunit, hexecuted⟩
    rw [← hunits] at hall
    generalize execute unit s = res at hended hall ⊢
    cases res with
    | ok value s' => exact ⟨t, hknown, hended.1, hall⟩
    | error e s' => exact ⟨⟨t, hknown, hended.1, hall⟩, trivial⟩

theorem searching_follows :
    Following carrier execute Known Run.executeBySearch Machine.SameButMemory where
  settings := by
    rintro m _ ⟨records, rfl⟩
    rfl
  nextSite := by
    rintro m _ ⟨records, rfl⟩
    rfl
  read := by
    rintro m _ nextSite records records' ⟨_, rfl⟩
    exact ⟨records', rfl⟩
  native := by
    rintro m _ n ⟨records, rfl⟩
    exact ⟨records, rfl⟩
  execute {k l s m' unit} hs _ hle hsites := by
    rintro ⟨records, rfl⟩
    obtain ⟨t, -, hclear, -, hunit⟩ := hs.adding hle hsites
    obtain ⟨records', hsame⟩ :=
      (retraces_execute s.machine.settings.watched hunit).same s records hclear
    have hsettings : (finalState (execute unit s)).machine.settings = s.machine.settings := by
      have haround := congrArg Surroundings.settings (Run.surroundings_execute unit s.machine)
      rw [← (machine_execute unit s).1, finalState_onState] at haround
      exact haround
    have hstart : s.machine.under (.forgetful s.machine.settings.watched) records
        = { s.machine with notes := { s.machine.notes with caches := .empty }, records } := rfl
    rw [hstart] at hsame
    show Alike _ _ _ (Run.executeBySearch unit { s.machine with notes := { s.machine.notes with caches := .empty }, records })
    rw [hsame]
    exact .of_onState ⟨records', by rw [← hsettings]; rfl⟩

theorem Known.passes (h : s.Known k) (hm : s.Passes m) (ha : s.Mentions a) :
    ∃ t : Titles, m.Remembers t ∧ t.Has a := by
  obtain ⟨t, -, hclear, hexecuted⟩ := h
  refine ⟨t, ?_, ?_⟩
  · rcases hm with rfl | ⟨moment, hmoment, rfl⟩
    · exact hclear.machine.kept
    · exact (hclear.moments moment hmoment).remembers
  · rcases ha with ⟨unit, hunit, ha⟩ | ⟨moment, hmoment, ha⟩
    · exact hexecuted unit hunit a ha
    · exact (hclear.moments moment hmoment).access a ha

theorem Known.registerNative (h : s.Known k) (n : Native) :
    Known k { s with machine := s.machine.registerNative n } := by
  obtain ⟨t, hknown, hclear, hexecuted⟩ := h
  exact ⟨t, hknown, ⟨hclear.machine.registerNative n, hclear.moments⟩, hexecuted⟩

end Observed

namespace Session

/-! ## Sessions -/

variable (config : Config) (watched : Bool) (input : Input) (limit : Option Nat) (nextClass : Nat)

theorem clear_start :
    (start config watched input limit nextClass).machine.Clear ⟨0, fun _ => []⟩ ∧
      (start config watched input limit nextClass).machine.notes.caches = .empty := by
  refine start_induction (P := fun m => m.Clear ⟨0, fun _ => []⟩ ∧ m.notes.caches = .empty) ⟨?_, rfl⟩
    (fun _ hm => ⟨hm.1.registerNative _, hm.2⟩) fun record hm => ⟨hm.1.note record, ?_⟩
  · exact ⟨⟨by simp [Machine.start], by simp [Machine.start], by simp [Machine.start], .start ..⟩, fun _ _ => trivial,
      fun _ _ => trivial, .start ..⟩
  · rw [Machine.note_eq]
    exact hm.2

theorem known_start :
    Observed.carrier.Settled Observed.Known (.ofMachine (start config watched input limit nextClass).machine) :=
  ⟨⟨0, fun _ => []⟩, Nat.zero_le _,
    ⟨(clear_start config watched input limit nextClass).1, List.forall_mem_nil _⟩,
    List.forall_mem_nil _⟩

theorem known_observed
    (htexts : ∀ entry ∈ entries, entry.Meets (fun _ => True) fun _ => False) :
    (start config watched input limit nextClass).after entries
        = ⟨config.layers, (observed config watched input limit nextClass entries).machine⟩ ∧
      Observed.carrier.Settled Observed.Known (observed config watched input limit nextClass entries) :=
  Observed.known_discipline.after (fun _ hs => hs.registerNative _) (fun hfalse _ => absurd hfalse id) htexts config.layers
    (known_start config watched input limit nextClass)

/-- What member accesses remember is never seen.  Given any lines, sources and natives, a session that searches the class
at every access answers the same, and ends with the same machine but for what is remembered and the journal.  And for
every member access, in a unit that has been executed or made in any other code, what it remembers for a class is what a
search finds there, now and at all moments before. -/
theorem member_memory_is_transparent (entries : List Entry)
    (htexts : ∀ entry ∈ entries, entry.Meets (fun _ => True) fun _ => False) (s : Observed)
    (hs : s = observed config watched input limit nextClass entries) :
    let fresh := start config watched input limit nextClass
    fresh.answersBy Run.executeBySearch entries = fresh.answers entries ∧
      fresh.after entries = ⟨config.layers, s.machine⟩ ∧
      s.machine.SameButMemory (fresh.afterBy Run.executeBySearch entries).machine ∧
      ∀ a : Site × Label, ((∃ unit ∈ s.executed, a ∈ unit.accesses) ∨
          ∃ moment ∈ s.moments, moment.request.access? = some a) →
        s.machine.Recalls a ∧ ∀ moment ∈ s.moments, moment.machine.Recalls a := by
  intro fresh
  subst hs
  have hempty : fresh.machine.notes.caches = .empty := (clear_start config watched input limit nextClass).2
  have hsame : fresh.machine.SameButMemory fresh.machine := ⟨fresh.machine.records, by rw [← hempty]⟩
  obtain ⟨hafter, hknown⟩ := known_observed config watched input limit nextClass htexts
  obtain ⟨hanswers, m₁, hafterBy, hrel⟩ := Observed.searching_follows.answers Observed.known_discipline
    (fun _ hs => hs.registerNative _) htexts config.layers (known_start config watched input limit nextClass) hsame
  refine ⟨hanswers, hafter, ?_, fun a ha => ?_⟩
  · show Machine.SameButMemory _ (afterBy Run.executeBySearch ⟨config.layers, fresh.machine⟩ entries).machine
    rw [hafterBy]
    exact hrel
  · have hrecalls : ∀ m, (observed config watched input limit nextClass entries).Passes m → m.Recalls a := by
      intro m hm
      obtain ⟨t, hremembers, hhas⟩ := hknown.passes hm ha
      exact hremembers.recalls hhas
    exact ⟨hrecalls _ (.inl rfl), fun moment hmoment => hrecalls _ (.inr ⟨moment, hmoment, rfl⟩)⟩

/-- Accesses in a function that meet objects of two classes by turns. -/
def turningEntries : List Entry :=
  [.line (text "class A \x7b x = 1; def m() \x7b x \x7d \x7d; class B extends A \x7b y = 2; def m() \x7b y \x7d \x7d\n"),
    .line (text "def f(o) \x7b o.x = o.m() + 1; o.z \x7d; def g(o) \x7b o.m() + o.x \x7d\n"),
    .line (text "g(A.new) + g(B.new) + g(A.new)\n"), .line (text "f(B.new)\n")]

/-- They remember something, and a session without memory answers the same. -/
theorem turning_answers_the_same :
    let fresh := start .default false (.ofText []) none 0
    let s := observed .default false (.ofText []) none 0 turningEntries
    (s.executed.any fun unit => unit.accesses.any fun a => (s.machine.notes.caches.get? a.1).isSome) = true ∧
      fresh.answersBy Run.executeBySearch turningEntries = fresh.answers turningEntries ∧
      ∀ unit ∈ s.executed, ∀ a ∈ unit.accesses, s.machine.Recalls a := by
  obtain ⟨hanswers, -, -, hrecalls⟩ := member_memory_is_transparent .default false (.ofText []) none 0 turningEntries
    (by simp [turningEntries, Entry.Meets]) _ rfl
  exact ⟨by decide +kernel, hanswers, fun unit hunit a ha => (hrecalls a (.inl ⟨unit, hunit, ha⟩)).1⟩

end Session

end StoneLang
