/-
  Sources and lines.

  PROGRAM: a source is read and executed unit by unit (`Session.run`); a line is read as a whole and then executed
  (`Session.evalLine`).

  SPEC: `Executes` says what it is to execute units in order up to the first that fails.  Both ways execute the units
  that reading the whole text gives; they part only where the text cannot be read to its end, of which a line then
  executes nothing (`source_and_line_agree`).

  No unit sees how many sites have been given out or what is in the journal, so it does not matter to it whether what
  comes after it has been read already (`executes_same`).
-/
import StoneLang.Proofs.Sessions.Following
import StoneLang.Proofs.Settings.Sessions

namespace StoneLang

/-! ## Machines in the same state -/

/-- The machines are in the same state: they differ at most in the next site and in the journal. -/
def Machine.Same (m m' : Machine) : Prop := ∃ nextSite records, m' = { m with nextSite, records }

namespace Machine

variable {m m' : Machine}

theorem Same.refl (m : Machine) : m.Same m := ⟨m.nextSite, m.records, rfl⟩

theorem Same.read (h : m.Same m') (r : Reading) : (m.afterReading r).Same m' := h

theorem Same.note (h : m.Same m') (record : Record) : (m.note record).Same m' := by
  rw [note_eq]
  exact h

def elsewhere (watched : Bool) (site : Site) : Guise := { deeper := 0, watched, memory := id, step := 0, site := fun _ => site }

theorem recalls_elsewhere (watched : Bool) (site : Site) : (elsewhere watched site).Recalls :=
  ⟨(Variant.recalls (v := ⟨0, watched, id⟩) rfl).get?, (Variant.recalls (v := ⟨0, watched, id⟩) rfl).set⟩

theorem guised_elsewhere (h : m.settings.watched = watched) (site : Site) (records : Array Record) :
    m.guised (elsewhere watched site) records = { m with nextSite := site, records } := by
  have hguised : m.guised (elsewhere watched site) records
      = { m.guised (Variant.guise ⟨0, watched, id⟩) records with nextSite := site } := rfl
  rw [hguised, guised_guise, ← h]
  rfl

end Machine

theorem executes_same (h : m.Same m') (unit : Node) :
    Alike Machine.Same (fun _ _ => True) (Run.execute unit m) (Run.execute unit m') := by
  obtain ⟨site, records, rfl⟩ := h
  have hkept : (finalState (Run.execute unit m)).settings = m.settings :=
    congrArg Surroundings.settings (Run.surroundings_execute unit m)
  have hagree := (Run.agrees_execute (Machine.recalls_elsewhere m.settings.watched site) unit).agree m records
  rw [Machine.guised_elsewhere rfl] at hagree
  rcases hagree with ⟨records', hright⟩ | ⟨hdeeper, -⟩
  · rw [hright]
    exact .of_onState ⟨site, records', Machine.guised_elsewhere (congrArg Settings.watched hkept) site records'⟩
  · exact absurd hdeeper (Nat.lt_irrefl 0)

/-! ## Executing units -/

/-- Executing units in order from a machine on, after `last`: the empty ones are passed over, the first that fails is
the last, and the value is that of the last one. -/
inductive Executes : List Node → Value → Machine → Except Failure Value → Machine → Prop where
  | done {last : Value} {m : Machine} : Executes [] last m (.ok last) m
  | blank {unit : Node} {rest : List Node} {last : Value} {m m' : Machine} {outcome : Except Failure Value}
      (empty : unit.isEmpty = true) (after : Executes rest last m outcome m') :
      Executes (unit :: rest) last m outcome m'
  | failed {unit : Node} {rest : List Node} {last : Value} {m m' : Machine} {e : Failure}
      (visible : unit.isEmpty = false) (failure : Run.execute unit m = .error e m') :
      Executes (unit :: rest) last m (.error e) m'
  | next {unit : Node} {rest : List Node} {last value : Value} {m m₁ m' : Machine} {outcome : Except Failure Value}
      (visible : unit.isEmpty = false) (success : Run.execute unit m = .ok value m₁)
      (after : Executes rest value m₁ outcome m') : Executes (unit :: rest) last m outcome m'

def outcomeOf {σ α : Type} : EStateM.Result Failure σ α → Except Failure α
  | .ok a _ => .ok a
  | .error e _ => .error e

namespace Run

theorem executeAll_blank (h : unit.isEmpty = true) (rest : List Node) (last : Value) :
    executeAll (unit :: rest) last = executeAll rest last :=
  if_pos h

theorem executeAll_next (h : unit.isEmpty = false) (rest : List Node) (last : Value) :
    executeAll (unit :: rest) last = execute unit >>= executeAll rest :=
  if_neg (by rw [h]; decide)

end Run

theorem executes_executeAll (units : List Node) (last : Value) (m : Machine) :
    Executes units last m (outcomeOf (Run.executeAll units last m)) (finalState (Run.executeAll units last m)) := by
  induction units generalizing last m with
  | nil => exact .done
  | cons unit rest ih =>
    cases hempty : unit.isEmpty with
    | true =>
      rw [Run.executeAll_blank hempty]
      exact .blank hempty (ih last m)
    | false =>
      rw [Run.executeAll_next hempty]
      cases hres : Run.execute unit m with
      | error e m' =>
        rw [bind_eq_error.2 (.inl hres)]
        exact .failed hempty hres
      | ok value m' =>
        rw [bind_of_ok hres]
        exact .next hempty hres (ih value m')

theorem executeAll_same (h : m.Same m') (units : List Node) (last : Value) :
    Alike Machine.Same (fun _ _ => True) (Run.executeAll units last m) (Run.executeAll units last m') := by
  induction units generalizing last m m' with
  | nil => exact .ok h
  | cons unit rest ih =>
    cases hempty : unit.isEmpty with
    | true =>
      rw [Run.executeAll_blank hempty]
      exact ih h last
    | false =>
      rw [Run.executeAll_next hempty]
      exact (executes_same h unit).bind (fun _ _ h => h) (fun _ _ h => h) fun value _ _ _ h => ih h value

namespace Run

/-- Executes what has been read of a text, and fails then if it could not be read to its end. -/
def executeRead (parsed : Language.Units) (last : Value) : Run Value := do
  let value ← executeAll parsed.units last
  match parsed.failure with
  | some failure => throw failure
  | none => return value

theorem executeRead_blank (h : unit.isEmpty = true) (parsed : Language.Units) (last : Value) :
    executeRead ⟨unit :: parsed.units, parsed.failure⟩ last = executeRead parsed last := by
  unfold executeRead
  rw [executeAll_blank h]

theorem executeRead_next (h : unit.isEmpty = false) (parsed : Language.Units) (last : Value) :
    executeRead ⟨unit :: parsed.units, parsed.failure⟩ last = execute unit >>= executeRead parsed := by
  unfold executeRead
  rw [executeAll_next h, bind_assoc]

end Run

namespace Run

theorem runUnits_same (layers : Layers) (source : Text) (bound : Nat) (r : Reading) (last : Value) (count : Nat)
    (h : m.Same m') :
    Alike Machine.Same (fun _ _ => True) (runUnits layers source bound r last count m)
      (executeRead (Language.parseUnits layers (parseSettings m) bound r).1 last m') := by
  induction bound generalizing r last count m m' with
  | zero => exact .error h trivial
  | succ bound ih =>
    rw [runUnits_turn, Language.parseUnits_turn]
    cases Language.turn layers (parseSettings m) r with
    | error e r' => exact .error (h.read r') trivial
    | ok found r' =>
      cases found with
      | none => exact .ok ((h.read r').note _)
      | some unit =>
        dsimp only
        -- The trace is taken away after each unit, which does not change what is read next.
        have hrest : ∀ value count {m₁ m₂ : Machine}, m₁.settings = m.settings → m₁.Same m₂ →
            Alike Machine.Same (fun _ _ => True) (runUnits layers source bound (r'.withTrace #[]) value count m₁)
              (executeRead (Language.parseUnits layers (parseSettings m) bound r').1 value m₂) := by
          intro value count m₁ m₂ hsettings h
          have hparse : parseSettings m = parseSettings m₁ := by
            unfold parseSettings
            rw [hsettings]
          rw [hparse, ← Language.units_withTrace layers _ bound r' #[]]
          exact ih (r'.withTrace #[]) value count h
        cases hempty : unit.isEmpty with
        | true =>
          rw [executeRead_blank hempty, if_pos rfl]
          exact hrest last count rfl (h.read r')
        | false =>
          rw [executeRead_next hempty, if_neg (by decide)]
          have hstart : ((m.afterReading r').note (unitRecord source unit)).Same m' := (h.read r').note _
          have hsettings : ((m.afterReading r').note (unitRecord source unit)).settings = m.settings := by
            rw [Machine.note_eq]
            rfl
          generalize (m.afterReading r').note (unitRecord source unit) = m₁ at hstart hsettings
          have hkept := congrArg Surroundings.settings (surroundings_execute unit m₁)
          refine (executes_same hstart unit).bind (fun _ _ h => h) (fun _ _ h => h) fun value m₂ m₃ hres hsame => ?_
          rw [hres] at hkept
          exact hrest value (count + 1) (hkept.trans hsettings) hsame

end Run

/-! ## Sources and lines -/

namespace Session

variable (s : Session) (name source : Text)

theorem perform_eq (action : Run α) :
    s.perform action = (outcomeOf (action s.machine), { s with machine := finalState (action s.machine) }) := by
  unfold perform
  cases action s.machine <;> rfl

/-- What running a source comes to, once it is known what executing its units does. -/
def sourceOutcome (name : Text) (failure : Option Failure) : Except Failure Value → Except Failure Value
  | .error e => .error (e.label name)
  | .ok value =>
    match failure with
    | some e => .error (e.label name)
    | none => .ok value

theorem run_executes :
    (s.run name source).1 = sourceOutcome name (s.parse source).1.failure
        (outcomeOf (Run.executeAll (s.parse source).1.units .null s.machine)) ∧
      (s.run name source).2.machine.Same (finalState (Run.executeAll (s.parse source).1.units .null s.machine)) := by
  have hread := Run.runUnits_same s.layers name ((Stream.ofSource source).size + 1)
    (.start (.ofSource source) s.machine.nextSite) .null 0 (.refl s.machine)
  have hrun : s.run name source = s.perform (Run.labelled name
      (Run.runUnits s.layers name ((Stream.ofSource source).size + 1)
        (.start (.ofSource source) s.machine.nextSite) .null 0)) := rfl
  change Alike _ _ _ (Run.executeRead (s.parse source).1 .null s.machine) at hread
  rw [hrun, perform_eq]
  generalize (s.parse source).1 = parsed at hread ⊢
  unfold Run.labelled
  generalize Run.runUnits s.layers name _ _ .null 0 s.machine = x at hread ⊢
  unfold Run.executeRead at hread
  cases hall : Run.executeAll parsed.units .null s.machine with
  | error e m =>
    rw [bind_eq_error.2 (.inl hall)] at hread
    cases hread with
    | error related => exact ⟨rfl, related⟩
  | ok value m =>
    rw [bind_of_ok hall] at hread
    generalize parsed.failure = res at hread ⊢
    cases res with
    | some e =>
      cases hread with
      | error related => exact ⟨rfl, related⟩
    | none =>
      cases hread with
      | ok related => exact ⟨rfl, related⟩

theorem evalLine_eq :
    ∃ r : Reading, s.evalLine source = ({ s with machine := s.machine.afterReading r } : Session).perform
      (match (s.parse source).1.failure with
        | some failure => throw failure
        | none => Run.executeAll (s.parse source).1.units .null) := 
  ⟨(Carrier.self.read s.layers source s.machine).2, rfl⟩

theorem evalLine_unread (h : (s.parse source).1.failure = some e) :
    (s.evalLine source).1 = .error e ∧ (s.evalLine source).2.machine.Same s.machine := by
  obtain ⟨r, hline⟩ := s.evalLine_eq source
  rw [hline, h, perform_eq]
  exact ⟨rfl, (Machine.Same.refl s.machine).read r⟩

theorem evalLine_executes (h : (s.parse source).1.failure = none) :
    (s.evalLine source).1 = outcomeOf (Run.executeAll (s.parse source).1.units .null s.machine) ∧
      (s.evalLine source).2.machine.Same
        (finalState (Run.executeAll (s.parse source).1.units .null s.machine)) := by
  obtain ⟨r, hline⟩ := s.evalLine_eq source
  rw [hline, h, perform_eq]
  have hall := executeAll_same ((Machine.Same.refl s.machine).read r) (s.parse source).1.units .null
  dsimp only
  generalize Run.executeAll _ .null (s.machine.afterReading r) = x at hall ⊢
  generalize Run.executeAll _ .null s.machine = y at hall ⊢
  cases hall with
  | ok related => exact ⟨rfl, related⟩
  | error related => exact ⟨rfl, related⟩

/-- A source that is run unit by unit and a line that is read as a whole execute the same units.  A source runs those
that come before the first failure, be it one of the units or of reading on, and its failure carries the name of the
source.  A line that can be read to its end comes to the same; one that cannot be executes nothing. -/
theorem source_and_line_agree :
    ∃ outcome machine, Executes (s.parse source).1.units .null s.machine outcome machine ∧
      (s.run name source).1 = sourceOutcome name (s.parse source).1.failure outcome ∧
      (s.run name source).2.machine.Same machine ∧
      match (s.parse source).1.failure with
      | none => (s.evalLine source).1 = outcome ∧ (s.evalLine source).2.machine.Same machine
      | some e => (s.evalLine source).1 = .error e ∧ (s.evalLine source).2.machine.Same s.machine := by
  refine ⟨_, _, executes_executeAll _ .null s.machine, (s.run_executes name source).1, (s.run_executes name source).2, ?_⟩
  cases hfailure : (s.parse source).1.failure with
  | none => exact s.evalLine_executes source hfailure
  | some e => exact s.evalLine_unread source hfailure

end Session

end StoneLang
