/-
  The numbers of classes.

  PROGRAM: every class has a number of its own, from a counter that goes on counting.

  SPEC: sessions that begin with different numbers answer everything alike: the same values, the same failures, the
  same output (`Session.counter_unseen`).

  Numbers of classes are compared and never shown.  Two machines whose numbers are a fixed step apart
  (`Machine.Apart`) compare alike, also what a member access remembers with what it finds.
-/
import StoneLang.Proofs.Sessions.Following
import StoneLang.Proofs.Settings.Sessions

namespace StoneLang

/-! ## What is remembered under higher numbers -/

/-- The table with every entry changed. -/
def SiteMap.map {α : Type} (f : α → α) (m : SiteMap α) : SiteMap α := ⟨m.entries.map (Option.map f)⟩

namespace SiteMap

variable {α : Type} (f : α → α) (m : SiteMap α)

theorem get?_map (site : Nat) : (m.map f).get? site = (m.get? site).map f := by
  unfold get? map
  rw [Array.getElem?_map]
  rcases m.entries[site]? with _ | _ | entry <;> rfl

theorem map_set (site : Nat) (a : α) : (m.set site a).map f = (m.map f).set site (f a) := by
  simp [map, set, put, reserve, Array.map_setIfInBounds]

theorem map_empty : (empty : SiteMap α).map f = empty := by
  simp [map, empty]

end SiteMap

/-- The guise of a machine whose classes have higher numbers. -/
def later (watched : Bool) (n : Nat) : Guise := Variant.numbered ⟨0, watched, SiteMap.map (MemberCache.raised n)⟩ n

theorem recalls_later (watched : Bool) (n : Nat) : (later watched n).Recalls :=
  ⟨fun caches site => caches.get?_map _ site, fun caches site entry => caches.map_set _ site entry⟩

/-! ## Machines whose classes are numbered apart -/

/-- The machines have run the same; the numbers of the second's classes are higher by `n`. -/
def Machine.Apart (n : Nat) (m m' : Machine) : Prop := ∃ records, m' = m.guised (later m.settings.watched n) records

namespace Machine.Apart

variable {n : Nat} {m m' : Machine}

theorem of_guised (h : m.settings.watched = watched) (n : Nat) (records : Array Record) :
    m.Apart n (m.guised (later watched n) records) :=
  ⟨records, by rw [h]⟩

theorem output (h : m.Apart n m') : m'.output = m.output := by
  obtain ⟨records, rfl⟩ := h
  rfl

theorem nextClass (h : m.Apart n m') : m'.nextClass = m.nextClass + n := by
  obtain ⟨records, rfl⟩ := h
  rfl

theorem render (h : m.Apart n m') (value : Value) : m'.render value = m.render value := by
  obtain ⟨records, rfl⟩ := h
  exact m.render_guised _ records value

theorem withOutput (h : m.Apart n m') (output : Output) (records records' : Array Record) :
    Machine.Apart n { m with output, records } { m' with output, records := records' } := by
  obtain ⟨records'', rfl⟩ := h
  exact ⟨records', rfl⟩

end Machine.Apart

theorem executes_apart (h : m.Apart n m') (unit : Node) :
    Alike (Machine.Apart n) (fun _ _ => True) (Run.execute unit m) (Run.execute unit m') := by
  obtain ⟨records, rfl⟩ := h
  have hkept : (finalState (Run.execute unit m)).settings = m.settings :=
    congrArg Surroundings.settings (Run.surroundings_execute unit m)
  rcases (Run.agrees_execute (recalls_later m.settings.watched n) unit).agree m records with
    ⟨records', hright⟩ | ⟨hdeeper, -⟩
  · rw [hright]
    exact .of_onState (.of_guised (congrArg Settings.watched hkept) n records')
  · exact absurd hdeeper (Nat.lt_irrefl 0)

theorem free_discipline : Discipline Carrier.self Run.execute (fun _ _ => True) fun _ _ => True where
  read _ _ _ := trivial
  widen _ _ := trivial
  execute {_ _ s unit} _ _ _ _ := by
    refine ⟨Carrier.onState_self _, ?_⟩
    cases Run.execute unit s with
    | ok => trivial
    | error => exact ⟨trivial, trivial⟩

theorem following_apart (n : Nat) :
    Following Carrier.self Run.execute (fun _ _ => True) Run.execute (Machine.Apart n) where
  settings := by
    rintro m _ ⟨records, rfl⟩
    rfl
  nextSite := by
    rintro m _ ⟨records, rfl⟩
    rfl
  read := by
    rintro m _ site records records' ⟨_, rfl⟩
    exact ⟨records', rfl⟩
  native := by
    rintro m _ native ⟨records, rfl⟩
    exact ⟨records, rfl⟩
  execute _ _ _ _ h := executes_apart h _

/-! ## Sessions whose classes are numbered apart -/

namespace Session

theorem watched_start (config : Config) (watched : Bool) (input : Input) (limit : Option Nat) (nextClass : Nat) :
    (start config watched input limit nextClass).machine.settings.watched = watched := by
  refine start_induction (P := fun m => m.settings.watched = watched) rfl (fun _ h => h) fun {m} record h => ?_
  rw [m.note_eq]
  exact h

theorem output_start (config : Config) (watched : Bool) (input : Input) (limit : Option Nat) (nextClass : Nat) :
    (start config watched input limit nextClass).machine.output = .empty limit := by
  refine start_induction (P := fun m => m.output = .empty limit) rfl (fun _ h => h) fun {m} record h => ?_
  rw [m.note_eq]
  exact h

theorem apart_start (config : Config) (watched : Bool) (input : Input) (limit : Option Nat) (nextClass n : Nat) :
    (start config watched input limit nextClass).machine.Apart n
      (start config watched input limit (nextClass + n)).machine := by
  obtain ⟨records, hstart⟩ := start_guised config config watched
    (v := ⟨0, watched, SiteMap.map (MemberCache.raised n)⟩) n (SiteMap.map_empty _)
    input limit nextClass rfl rfl
  rw [hstart]
  exact .of_guised (watched_start config watched input limit nextClass) n records

/-- An entry of a text or a native. -/
abbrev Entry.IsPlain (entry : Entry) : Prop := entry.Meets (fun _ => True) fun _ => False

theorem apart_answer (h : m.Apart n m') (hentry : entry.IsPlain)
    (layers : Layers) :
    ∃ outcome m₁ m₁', answer ⟨layers, m⟩ entry = (outcome, ⟨layers, m₁⟩) ∧
      answer ⟨layers, m'⟩ entry = (outcome, ⟨layers, m₁'⟩) ∧ m₁.Apart n m₁' := by
  obtain ⟨-, outcome, m₁', hleft, hright, hrel⟩ :=
    (following_apart n).answer free_discipline (fun _ _ => trivial) hentry layers (s := m) trivial h
  exact ⟨outcome, _, m₁', hleft, (answer_eq ⟨layers, m'⟩ entry).trans hright, hrel⟩

theorem apart_answers (h : m.Apart n m')
    (hentries : ∀ entry ∈ entries, entry.IsPlain) (layers : Layers) :
    answers ⟨layers, m⟩ entries = answers ⟨layers, m'⟩ entries ∧
      (after ⟨layers, m⟩ entries).machine.Apart n (after ⟨layers, m'⟩ entries).machine := by
  induction entries generalizing m m' with
  | nil => exact ⟨rfl, h⟩
  | cons entry rest ih =>
    obtain ⟨outcome, m₁, m₁', hleft, hright, h₁⟩ := apart_answer h (hentries entry List.mem_cons_self) layers
    obtain ⟨hanswers, hafter⟩ := ih h₁ fun other hother => hentries other (List.mem_cons_of_mem _ hother)
    have hgive : ∀ s : Session, s.give entry = (s.answer entry).2 := fun s => by cases entry <;> rfl
    constructor
    · unfold answers
      rw [hleft, hright, hanswers]
    · unfold after at hafter ⊢
      rw [List.foldl_cons, List.foldl_cons, hgive, hgive, hleft, hright]
      exact hafter

/-- Whatever both sessions are given, they answer alike, print alike, and show their values alike. -/
def Indistinguishable (s s' : Session) : Prop :=
  ∀ entries : List Entry, (∀ entry ∈ entries, entry.IsPlain) →
    s.answers entries = s'.answers entries ∧
      (s.after entries).machine.output = (s'.after entries).machine.output ∧
      ∀ value, (s.after entries).render value = (s'.after entries).render value

theorem counter_unseen (config : Config) (watched : Bool) (input : Input) (limit : Option Nat) (a b : Nat) :
    (start config watched input limit a).Indistinguishable (start config watched input limit b) := by
  intro entries hentries
  -- Both are compared with the session that begins with zero.
  have hstart : ∀ n, (start config watched input limit 0).machine.Apart n (start config watched input limit n).machine := by
    intro n
    have happart := apart_start config watched input limit 0 n
    rwa [Nat.zero_add] at happart
  obtain ⟨hanswers, hafter⟩ := apart_answers (hstart a) hentries config.layers
  obtain ⟨hanswers', hafter'⟩ := apart_answers (hstart b) hentries config.layers
  refine ⟨hanswers.symm.trans hanswers', hafter.output.trans hafter'.output.symm, fun value => ?_⟩
  exact (hafter.render value).trans (hafter'.render value).symm

end Session

end StoneLang
