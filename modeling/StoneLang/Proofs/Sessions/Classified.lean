/-
  Which failures have a class.

  SPEC: whenever a line or a source fails, the failure has a class, as long as the world outside does its
  part: the output takes everything, the input ends without breaking, and natives of the host fail with a
  class if they fail.

  PROGRAM: `Session.evalLine` and `Session.run`, in whatever state the lines, sources and natives before it
  have left the session.

  One failure escapes: a call whose arguments have no room in its frame.  Its frame is as large as the table
  of its names, so there is room unless two parameters share a name, or one of a method is called `this`
  (`failures_are_classified`); and then there is none (`repeated_parameter_has_no_class`).
-/
import StoneLang.Proofs.Addresses.Sessions

namespace StoneLang

/-- The failure inside all labels. -/
def Failure.root : Failure → Failure
  | .labelled _ inner => inner.root
  | failure => failure

/-- The native fails, if it fails by itself, with a class. -/
def Native.Classified (n : Native) : Prop :=
  ∀ failure, n.action = .host (.fail failure) → failure.kind ≠ .unclassified

/-- No parameter list repeats a name, and no method has a parameter called `this`. -/
def Node.HasRoom (unit : Node) : Prop := Aim.roomy.Asks unit

instance : DecidablePred Node.HasRoom := fun unit => inferInstanceAs (Decidable (Aim.roomy.Asks unit))

/-- What a session answers to a line or a source, if it is a failure. -/
def Session.failure? (s : Session) : Session.Entry → Option Failure
  | .line source => StoneLang.failure? (s.evalLine source).1
  | .source name source => StoneLang.failure? (s.run name source).1
  | .native _ | .tree _ => none

/-! ## Surroundings that do their part -/

/-- Nothing around the program fails without a class. -/
structure Surroundings.Reliable (around : Surroundings) : Prop where
  limit : around.limit = none
  broken : around.broken = none
  natives : ∀ n ∈ around.natives, n.Classified

/-- The failure has a class, or it has none for one of two reasons: the run was cut short, or a call had no
room for its arguments. -/
def Failure.IsTold (e : Failure) : Prop := e.kind ≠ .unclassified ∨ e = .unfinished ∨ e.IsRoomFault

variable {e : Failure} {n : Native} {s : Observed}

theorem Surroundings.Fails.isTold {around : Surroundings} (h : around.Fails e) (hreliable : around.Reliable) :
    e.IsTold := by
  cases h with
  | cause line hcause =>
    simp only [Cause.isOfRun, Bool.and_eq_true, bne_iff_ne, ne_eq] at hcause
    exact .inl hcause.1
  | noRoom size => exact .inr (.inr ⟨size, rfl⟩)
  | closed writer hlimit =>
    rw [hreliable.limit] at hlimit
    cases hlimit
  | broken hbroken =>
    rw [hreliable.broken] at hbroken
    cases hbroken
  | host line hmem hfail =>
    refine .inl ?_
    rw [Failure.kind_withLine]
    exact hreliable.natives _ hmem _ hfail
  | unfinished => exact .inr (.inl rfl)

theorem Machine.reliable_registerNative {m : Machine} (h : m.surroundings.Reliable) (hn : n.Classified) :
    (m.registerNative n).surroundings.Reliable := by
  exact ⟨h.limit, h.broken, Array.forall_mem_push.mpr ⟨hn, h.natives⟩⟩

theorem Native.classified_of_standard (h : n ∈ standard) : n.Classified := by
  simp only [standard, List.mem_cons, List.not_mem_nil, or_false] at h
  rcases h with rfl | rfl | rfl | rfl | rfl | rfl <;> exact fun _ h => by cases h

theorem Native.Classified.admitted (h : n.Classified) : n.Admitted .roomy := by
  refine fun failure hfail => ⟨fun _ => ?_, nofun⟩
  rintro ⟨size, rfl⟩
  exact h _ hfail rfl

theorem Session.reliable_start (config : Config) (watched : Bool) (nextClass : Nat)
    (hinput : input.broken = none) :
    (Session.start config watched input none nextClass).machine.surroundings.Reliable := by
  refine Session.start_induction (P := fun m => m.surroundings.Reliable)
    ⟨rfl, hinput, fun n hn => by simp [Machine.surroundings, Machine.start] at hn⟩
    (fun hstandard h => Machine.reliable_registerNative h (Native.classified_of_standard hstandard))
    fun record h => ?_
  rw [Machine.note_eq]
  exact ⟨h.limit, h.broken, h.natives⟩

/-! ## Sessions -/

/-- What is kept from unit to unit: the surroundings do their part, and if there was always room for
parameters, the state is sound. -/
def Observed.Roomy (k : Nat) (s : Observed) : Prop :=
  s.machine.surroundings.Reliable ∧
    ((∀ unit ∈ s.executed, unit.HasRoom ∧ Aim.roomy.Heeds unit) → Addresses.Sound .roomy k s)

/-- Units leave the surroundings as they are; what they fail with is told and written down. -/
theorem Discipline.classified :
    Discipline Observed.carrier Observed.execute Observed.Roomy fun s e => e.IsTold ∧ e ∈ s.failures where
  read nextSite records hs :=
    ⟨⟨hs.1.limit, hs.1.broken, hs.1.natives⟩, (Addresses.discipline _).read nextSite records hs.2⟩
  widen hle hs := ⟨hs.1, (Addresses.discipline _).widen hle hs.2⟩
  execute {k l s unit} hs hunit hle hsites := by
    obtain ⟨hsame, hended⟩ := (Addresses.discipline .roomy).execute hs.2 hunit hle hsites
    refine ⟨hsame, ?_⟩
    have hsame : onState Observed.machine (Observed.execute unit s) = Run.execute unit s.machine := hsame
    have hfails := Surroundings.ends_execute s.machine.surroundings unit s.machine rfl
    rw [← hsame] at hfails
    generalize Observed.execute unit s = res at hended hfails ⊢
    cases res with
    | ok value s' =>
      have hkept : s'.machine.surroundings = s.machine.surroundings := hfails.1
      exact ⟨hkept ▸ hs.1, hended⟩
    | error e s' =>
      have hkept : s'.machine.surroundings = s.machine.surroundings := hfails.1
      exact ⟨⟨hkept ▸ hs.1, hended.1⟩, hfails.2.isTold hs.1, hended.2⟩

/-- What is said of a failure of a session, all that was observed of it being known. -/
def Observed.Tells (s : Observed) (e : Failure) : Prop :=
  e.kind ≠ .unclassified ∨ e.root = .unfinished ∨
    (e.root.IsRoomFault ∧ ∃ unit ∈ s.executed, ¬ unit.HasRoom)

theorem Observed.Tells.label (h : s.Tells e) (name : Text) : s.Tells (e.label name) := h

theorem Observed.tells_of_isOfReading (s : Observed) (h : e.IsOfReading) : s.Tells e := by
  rcases h with ⟨cause, line, hcause, rfl⟩ | rfl
  · refine .inl fun hkind => ?_
    have hkind : cause.kind = .unclassified := hkind
    simp [Cause.isOfReading, hkind] at hcause
  · exact .inr (.inl rfl)

theorem Observed.tells_of_mem (htold : e.IsTold) (hmem : e ∈ s.failures) (hs : Observed.Roomy k s) :
    s.Tells e := by
  rcases htold with hclass | rfl | hroom
  · exact .inl hclass
  · exact .inr (.inl rfl)
  · have hroot : e.root.IsRoomFault := by
      obtain ⟨size, rfl⟩ := hroom
      exact ⟨size, rfl⟩
    refine .inr (.inr ⟨hroot, ?_⟩)
    by_contra hall
    have hroomy : ∀ unit ∈ s.executed, unit.HasRoom ∧ Aim.roomy.Heeds unit := by
      refine fun unit hunit => ⟨?_, nofun⟩
      by_contra hnot
      exact hall ⟨unit, hunit, hnot⟩
    obtain ⟨w, -, -, hlogged⟩ := hs.2 hroomy
    exact (hlogged.failures e hmem).room rfl hroom

theorem Session.isOfReading_parse {s : Session} {source : Text} (h : (s.parse source).1.failure = some e) :
    e.IsOfReading := by
  let r := Reading.start (.ofSource source) s.machine.nextSite
  have hsound : r.Sound := rfl
  have hfails : (Language.parseUnits s.layers (Run.parseSettings s.machine) r.bound r).1.failure = some e := h
  exact Language.isOfReading_parseUnits hsound hfails

/-- A failure of an action of the session is one of the same action under observation. -/
theorem Session.eq_error_of_perform {layers : Layers} {m : Machine} {action : Run Value}
    {x : EStateM.Result Failure Observed Value} (hsame : onState Observed.machine x = action m)
    (h : StoneLang.failure? (Session.perform ⟨layers, m⟩ action).1 = some e) : ∃ s', x = .error e s' := by
  unfold Session.perform at h
  rw [← hsame] at h
  cases x with
  | ok value s' => cases h
  | error e' s' =>
    cases h
    exact ⟨s', rfl⟩

theorem Observed.tells_of_failure {layers : Layers} (hs : Observed.carrier.Settled Observed.Roomy s)
    {entry : Session.Entry} (hfails : Session.failure? ⟨layers, s.machine⟩ entry = some e) :
    (Observed.carrier.give Observed.execute layers s entry).Tells e := by
  cases entry with
  | line source =>
    obtain ⟨hsame, hended⟩ := Discipline.classified.evalLine layers hs source
    have hfails : StoneLang.failure? (Session.evalLine ⟨layers, s.machine⟩ source).1 = some e := hfails
    rw [Carrier.evalLine_self] at hfails
    obtain ⟨s', hres⟩ := Session.eq_error_of_perform hsame hfails
    show (finalState (Observed.carrier.evalLine Observed.execute layers source s)).Tells e
    rw [hres] at hended ⊢
    obtain ⟨hkept, hread | ⟨htold, hmem⟩⟩ := hended
    · exact Observed.tells_of_isOfReading _ (Session.isOfReading_parse hread)
    · exact Observed.tells_of_mem htold hmem hkept
  | source name source =>
    obtain ⟨hsame, hended⟩ := Discipline.classified.run layers hs name source
    have hfails : StoneLang.failure? (Session.run ⟨layers, s.machine⟩ name source).1 = some e := hfails
    rw [Carrier.run_self] at hfails
    obtain ⟨s', hres⟩ := Session.eq_error_of_perform hsame hfails
    show (finalState (Observed.carrier.run Observed.execute layers name source s)).Tells e
    rw [hres] at hended ⊢
    obtain ⟨hkept, inner, rfl, ⟨htold, hmem⟩ | hread⟩ := hended
    · exact (Observed.tells_of_mem htold hmem hkept).label name
    · exact (Observed.tells_of_isOfReading _ hread).label name
  | native n => cases hfails
  | tree node => cases hfails

/-- A failure of a line or a source has a class, unless the run was cut short, or a call had no room for its
arguments; and for that, some unit must have a parameter list that repeats a name, or a method with a parameter
called `this`. -/
theorem failures_are_classified (config : Config) (watched : Bool) (input : Input) (nextClass : Nat)
    (hinput : input.broken = none) (entries : List Session.Entry)
    (hentries : ∀ entry ∈ entries, entry.Meets Native.Classified fun _ => False) (entry : Session.Entry)
    (e : Failure)
    (hfails : ((Session.start config watched input none nextClass).after entries).failure? entry = some e) :
    e.kind ≠ .unclassified ∨ e.root = .unfinished ∨
      (e.root.IsRoomFault ∧
        ∃ unit ∈ (Session.observed config watched input none nextClass (entries ++ [entry])).executed,
          ¬ unit.HasRoom) := by
  show (Session.observed config watched input none nextClass (entries ++ [entry])).Tells e
  let start := Observed.ofMachine (Session.start config watched input none nextClass).machine
  have hstart : Observed.carrier.Settled Observed.Roomy start :=
    ⟨Session.reliable_start config watched nextClass hinput,
      fun _ => Addresses.sound_start _ config watched input none nextClass _⟩
  obtain ⟨hafter, hs⟩ := Discipline.classified.after
    (fun hn hs => ⟨Machine.reliable_registerNative hs.1 hn, fun hroomy => (hs.2 hroomy).registerNative hn.admitted⟩)
    (fun hfalse _ => absurd hfalse id) hentries config.layers hstart
  have hsession : (Session.start config watched input none nextClass).after entries
      = ⟨config.layers, (Session.observed config watched input none nextClass entries).machine⟩ := hafter
  rw [hsession] at hfails
  -- the last entry is given to the state that the others have left
  have hlast : Session.observed config watched input none nextClass (entries ++ [entry])
      = Observed.carrier.give Observed.execute config.layers
          (Session.observed config watched input none nextClass entries) entry := by
    unfold Session.observed Carrier.after
    rw [List.foldl_append]
    rfl
  rw [hlast]
  exact Observed.tells_of_failure hs hfails

/-- A function whose two parameters share a name, which is to say a slot. -/
def repeatingEntry : Session.Entry := .line (text "def f(a, a) \x7b a \x7d\n")

/-- A call of it has no room for two arguments, and the failure has no class. -/
theorem repeated_parameter_has_no_class :
    ∃ e : Failure, ((Session.start .default false (.ofText []) none 0).after [repeatingEntry]).failure?
        (.line (text "f(1, 2)\n")) = some e ∧ e.kind = .unclassified ∧ e.root.IsRoomFault ∧
      ∃ unit ∈ (Session.observed .default false (.ofText []) none 0
        ([repeatingEntry] ++ [.line (text "f(1, 2)\n")])).executed, ¬ unit.HasRoom := by
  have hfails : ((Session.start .default false (.ofText []) none 0).after [repeatingEntry]).failure?
      (.line (text "f(1, 2)\n")) = some (.plain (SlotFault.outside 1 1).message) := by decide +kernel
  refine ⟨_, hfails, rfl, ?_⟩
  rcases failures_are_classified .default false (.ofText []) 0 rfl [repeatingEntry]
    (by simp [repeatingEntry, Session.Entry.Meets]) _ _ hfails with hclass | hcut | hroom
  · exact absurd rfl hclass
  · cases hcut
  · exact hroom

end StoneLang
