/-
  Sessions under other settings.

  PROGRAM: `Session.runStream` and `Session.evalLine`, with a limit of nesting, and with a journal that is kept or not.

  SPEC: whether the journal is kept changes nothing but the journal (`Session.journal_changes_nothing`).  A higher limit
  changes nothing unless the lower one is met, and then what was written before is the beginning of what is written
  under the higher one (`Session.higher_limit_keeps_results`).

  Both are about a session and one in a guise, so they are shown as one: reading agrees, executing a unit agrees, and
  a session does one after the other.
-/
import StoneLang.Proofs.Sessions.Carriers
import StoneLang.Proofs.Settings.Evaluation
import StoneLang.Proofs.Settings.Reading

namespace StoneLang

open Carrier

namespace Run

variable {v : Guise}

/-! ## Sources -/

theorem writes_execute (unit : Node) (m : Machine) : m.output.Before (finalState (execute unit m)).output :=
  (agrees_execute (Variant.recalls (v := ⟨0, true, id⟩) rfl) unit).writes m

theorem writes_runUnits (layers : Layers) (source : Text) (bound : Nat) (r : Reading) (last : Value) (count : Nat)
    (m : Machine) : m.output.Before (finalState (runUnits layers source bound r last count m)).output := by
  induction bound generalizing r last count m with
  | zero => exact .refl _
  | succ bound ih =>
    rw [runUnits_turn]
    cases Language.turn layers (parseSettings m) r with
    | error e r' => exact .refl _
    | ok found r' =>
      cases found with
      | none => exact .of_eq (Machine.output_note ..)
      | some unit =>
        dsimp only
        split
        · exact ih _ _ _ (m.afterReading r')
        · have hwrites := writes_execute unit ((m.afterReading r').note (unitRecord source unit))
          rw [Machine.output_note] at hwrites
          exact before_bind hwrites fun _ m' _ => ih _ _ _ m'

theorem agrees_runUnits {v : Variant} (hv : v.guise.Recalls) (layers : Layers) (source : Text) (bound : Nat) {r : Reading}
    (hr : r.stream.Poised false) (last : Value) (count : Nat) :
    Agrees v.guise (fun _ => True) (runUnits layers source bound r last count) (runUnits layers source bound r last count) where
  agree m records := by
    induction bound generalizing r last count m records with
    | zero => exact .inl ⟨records, rfl⟩
    | succ bound ih =>
      have hturns := Language.agrees_turn (l := layers) (k := v.deeper) (parseSettings m)
        (parseSettings (m.guised v.guise records)) rfl r r.trace hr
      rcases hturns with ⟨trace, hright, hholds⟩ | ⟨hdeeper, e, r', hleft, he⟩
      · have hright : Language.turn layers (parseSettings (m.guised v.guise records)) r = _ := hright
        rw [runUnits_turn, runUnits_turn, hright]
        cases hturn : Language.turn layers (parseSettings m) r with
        | error e r' => exact .inl ⟨records ++ trace, rfl⟩
        | ok found r' =>
          cases found with
          | none =>
            obtain ⟨records', hnoted⟩ := (m.afterReading r').note_guised v.guise (records ++ trace) (sourceRecord source count)
              (sourceRecord source count)
            exact .inl ⟨records', congrArg (EStateM.Result.ok last) hnoted⟩
          | some unit =>
            have hrest : ∀ value count, Agrees v.guise (fun _ => True)
                (runUnits layers source bound (r'.withTrace #[]) value count)
                (runUnits layers source bound (r'.withTrace #[]) value count) := fun value count =>
              ⟨ih (r := r'.withTrace #[]) (hholds _ r' hturn) value count, writes_runUnits layers source bound _ value count, fun _ _ _ _ => trivial⟩
            dsimp only [onState]
            split
            · exact (hrest last count).agree (m.afterReading r') (records ++ trace)
            · obtain ⟨records', hnoted⟩ := (m.afterReading r').note_guised v.guise (records ++ trace) (unitRecord source unit)
                (unitRecord source unit)
              have hstart : ((m.guised v.guise records).afterReading (r'.withTrace trace)).note (unitRecord source unit)
                  = ((m.afterReading r').note (unitRecord source unit)).guised v.guise records' := hnoted
              rw [hstart]
              exact ((agrees_execute hv unit).bind fun value _ => hrest value (count + 1)).agree _ records'
      · have hwritten := writes_runUnits layers source (bound + 1) r last count (m.guised v.guise records)
        have hstops : runUnits layers source (bound + 1) r last count m = .error e (m.afterReading r') := by
          rw [runUnits_turn, hleft]
        rw [hstops]
        exact .inr ⟨hdeeper, e, _, rfl, he, hwritten⟩
  writes := writes_runUnits layers source bound r last count
  holds _ _ _ _ := trivial

/-! ## Lines -/

theorem agrees_executeAll (hv : v.Recalls) (units : List Node) (last : Value) :
    Agrees v (fun _ => True) (executeAll units last) (executeAll units last) := by
  induction units generalizing last with
  | nil => exact .pure trivial
  | cons unit rest ih =>
    unfold executeAll
    split
    · exact ih last
    · exact (agrees_execute hv unit).bind fun value _ => ih value

def afterParsing (parsed : Language.Units) : Run Value :=
  match parsed.failure with
  | some failure => throw failure
  | none => executeAll parsed.units .null

theorem agrees_afterParsing (hv : v.Recalls) (parsed : Language.Units) :
    Agrees v (fun _ => True) (afterParsing parsed) (afterParsing parsed) := by
  unfold afterParsing
  cases parsed.failure with
  | some failure => exact .throw failure
  | none => exact agrees_executeAll hv parsed.units .null

theorem agrees_line {v : Variant} (hv : v.guise.Recalls) (layers : Layers) (source : Text) :
    Agrees v.guise (fun _ => True) (parseStream layers (.ofSource source) >>= afterParsing)
      (parseStream layers (.ofSource source) >>= afterParsing) where
  agree m records := by
    let start : Reading := .start (.ofSource source) m.nextSite
    have hleft : parseStream layers (.ofSource source) m
        = .ok (Language.parseAll layers (parseSettings m) start).1
            (m.afterReading (Language.parseAll layers (parseSettings m) start).2) := rfl
    let read := Language.parseAll layers (parseSettings (m.guised v.guise records)) start
    have hright : parseStream layers (.ofSource source) (m.guised v.guise records)
        = .ok read.1 ((m.guised v.guise records).afterReading read.2) := rfl
    have hplace : start.stream.Poised false := Stream.poised_ofText source none
    have hunits := Language.agrees_parseUnits (l := layers) (k := v.deeper) (parseSettings m)
      (parseSettings (m.guised v.guise records)) rfl start.bound hplace start.trace
    rw [bind_of_ok hleft, bind_of_ok hright]
    rcases hunits with ⟨trace, hsame⟩ | ⟨hdeeper, e, hfailure, he⟩
    · have hsame : read = _ := hsame
      rw [hsame]
      exact (agrees_afterParsing hv _).agree (m.afterReading _) (records ++ trace)
    · have hfails : ∀ m', afterParsing (Language.parseAll layers (parseSettings m) start).1 m' = .error e m' := by
        intro m'
        have hfailure : (Language.parseAll layers (parseSettings m) start).1.failure = some e := hfailure
        unfold afterParsing
        rw [hfailure]
        rfl
      rw [hfails]
      have hwrites := (agrees_afterParsing hv read.1).writes ((m.guised v.guise records).afterReading read.2)
      exact .inr ⟨hdeeper, e, _, rfl, he, hwrites⟩
  writes m := (agrees_afterParsing hv _).writes (m.afterReading _)
  holds _ _ _ _ := trivial

theorem agree_labelled (name : Text) {x y : Run Value} {m m' : Machine} (h : Agree v (x m) (y m')) :
    Agree v (labelled name x m) (labelled name y m') := by
  unfold labelled
  rcases h with ⟨records, hright⟩ | ⟨hdeeper, e, s, hleft, he, hbefore⟩
  · rw [hright]
    cases x m <;> exact .inl ⟨records, rfl⟩
  · rw [hleft]
    refine .inr ⟨hdeeper, e.label name, s, rfl, he, ?_⟩
    cases hright : y m' <;> rw [hright] at hbefore <;> exact hbefore

end Run

namespace Session

def guised (s : Session) (v : Guise) (records : Array Record) : Session :=
  { s with machine := s.machine.guised v records }

def Agree (v : Guise) (left right : Except Failure Value × Session) : Prop :=
  right.1 = left.1 ∧ (∃ records, right.2 = left.2.guised v records) ∨
    0 < v.deeper ∧ ∃ e, left.1 = .error e ∧ e.kind = .stackExhausted ∧
      left.2.machine.output.text <+: right.2.machine.output.text

variable {v : Guise}

theorem agree_perform {s : Session} {records : Array Record} {x y : Run Value}
    (h : Run.Agree v (x s.machine) (y (s.machine.guised v records))) :
    Agree v (s.perform x) ((s.guised v records).perform y) := by
  unfold perform
  rcases h with ⟨records', hright⟩ | ⟨hdeeper, e, m, hleft, he, hbefore⟩
  · have hright : y (s.guised v records).machine = _ := hright
    rw [hright]
    cases x s.machine <;> exact .inl ⟨rfl, records', rfl⟩
  · rw [hleft]
    refine .inr ⟨hdeeper, e, rfl, he, ?_⟩
    have hbefore : m.output.Before (finalState (y (s.guised v records).machine)).output := hbefore
    cases hright : y (s.guised v records).machine <;> rw [hright] at hbefore <;> exact hbefore.text

theorem agree_runStream {v : Variant} (hv : v.guise.Recalls) (s : Session) (records : Array Record) (name source : Text)
    (broken : Option Text) :
    Agree v.guise (s.runStream name (.ofText source broken))
      ((s.guised v.guise records).runStream name (.ofText source broken)) := by
  refine agree_perform (Run.agree_labelled name ?_)
  have hplace : (Reading.start (.ofText source broken) s.machine.nextSite).stream.Poised false :=
    Stream.poised_ofText source broken
  exact (Run.agrees_runUnits hv s.layers name _ hplace .null 0).agree s.machine records

theorem agree_evalLine {v : Variant} (hv : v.guise.Recalls) (s : Session) (records : Array Record) (source : Text) :
    Agree v.guise (s.evalLine source) ((s.guised v.guise records).evalLine source) :=
  agree_perform ((Run.agrees_line hv s.layers source).agree s.machine records)

/-! ## Fresh sessions -/

theorem installNative_guised (m : Machine) (v : Guise) (records : Array Record) (name : Text) :
    ∃ records', (m.guised v records).installNative name = (m.installNative name).guised v records' := by
  unfold Machine.installNative
  cases Native.standard? name with
  | some native => exact ⟨records, rfl⟩
  | none => exact m.note_guised v records _ _

theorem installNatives_guised (m : Machine) (v : Guise) (records : Array Record) (names : List Text) :
    ∃ records', (m.guised v records).installNatives names = (m.installNatives names).guised v records' := by
  unfold Machine.installNatives
  generalize (if names = [] then Native.standard.map Native.name else names) = names
  induction names generalizing m records with
  | nil => exact ⟨records, rfl⟩
  | cons name rest ih =>
    obtain ⟨records', hname⟩ := installNative_guised m v records name
    rw [List.foldl_cons, List.foldl_cons, hname]
    exact ih (m.installNative name) records'

/-- Two fresh sessions whose configurations differ in the limit alone are the same but for their guise. -/
theorem start_guised (config config' : Config) (watched : Bool) {v : Variant} (step : Nat)
    (hmemory : v.memory .empty = .empty) (input : Input) (limit : Option Nat) (nextClass : Nat)
    (hconfig : config' = { config with maxDepth := config'.maxDepth })
    (hdepth : depthLimit config'.maxDepth = depthLimit config.maxDepth + v.deeper) :
    ∃ records, start config' v.watched input limit (nextClass + step)
      = (start config watched input limit nextClass).guised (v.numbered step) records := by
  let fresh := Machine.start ⟨depthLimit config.maxDepth, config.placesNames, watched, defaultRounds⟩ input limit nextClass
  obtain ⟨records, hinstalled⟩ := installNatives_guised fresh (v.numbered step) #[] config.natives
  refine ⟨records, ?_⟩
  have hmachine : Machine.start ⟨depthLimit config'.maxDepth, config'.placesNames, v.watched, defaultRounds⟩ input limit
      (nextClass + step) = fresh.guised (v.numbered step) #[] := by
    rw [hdepth, hconfig]
    simp only [fresh, Machine.guised, Machine.under, Machine.start, Notes.remembering, Notes.empty, hmemory, Array.map_empty]
    rfl
  unfold start guised
  rw [hmachine, show config'.natives = config.natives by rw [hconfig], hinstalled,
    show config'.layers = config.layers by rw [hconfig]]

/-! ## The journal -/

/-- The session with its journal kept or not, and with what stands in it. -/
def journalled (s : Session) (watched : Bool) (records : Array Record) : Session :=
  { s with machine := { s.machine with settings := { s.machine.settings with watched }, records } }

/-- The outcomes are the same, and so are the sessions but for their journals. -/
def SameButJournal (watched : Bool) (left right : Except Failure Value × Session) : Prop :=
  right.1 = left.1 ∧ ∃ records, right.2 = left.2.journalled watched records

theorem journalled_eq (s : Session) (watched : Bool) (records : Array Record) :
    s.journalled watched records = s.guised (Variant.guise ⟨0, watched, id⟩) records := by
  unfold guised
  rw [Machine.guised_guise]
  rfl

theorem sameButJournal_of_agree {watched : Bool} {left right : Except Failure Value × Session}
    (h : Agree (Variant.guise ⟨0, watched, id⟩) left right) : SameButJournal watched left right := by
  rcases h with ⟨houtcome, records, hsession⟩ | ⟨hdeeper, -⟩
  · exact ⟨houtcome, records, hsession.trans (journalled_eq _ watched records).symm⟩
  · exact absurd hdeeper (Nat.lt_irrefl 0)

/-- Whether the journal is kept changes nothing but the journal: not the units that are read, with bad tokens anywhere and
from a reader that fails midway, not the values, failures, output and globals of a session that runs a stream or a line,
in whatever state it is; and a fresh session with a journal is one without it but for the journal. -/
theorem journal_changes_nothing (s : Session) (watched : Bool) (records : Array Record) (name source : Text)
    (broken : Option Text) :
    (∀ (l : Layers) (depth : Nat) (site : Site),
      (Language.parseAll l ⟨depth, true⟩ (.start (.ofText source broken) site)).1
        = (Language.parseAll l ⟨depth, false⟩ (.start (.ofText source broken) site)).1) ∧
    SameButJournal watched (s.runStream name (.ofText source broken))
      ((s.journalled watched records).runStream name (.ofText source broken)) ∧
    SameButJournal watched (s.evalLine source) ((s.journalled watched records).evalLine source) ∧
    ∀ (config : Config) (input : Input) (limit : Option Nat) (nextClass : Nat), ∃ records,
      start config true input limit nextClass = (start config false input limit nextClass).journalled true records := by
  refine ⟨fun l depth site => ?_, ?_, ?_, fun config input limit nextClass => ?_⟩
  · have hplace : (Reading.start (.ofText source broken) site).stream.Poised false := Stream.poised_ofText source broken
    have hunits := Language.agrees_parseUnits (l := l) (k := 0) ⟨depth, false⟩ ⟨depth, true⟩ rfl
      (Reading.start (.ofText source broken) site).bound hplace #[]
    rcases hunits with ⟨trace, hsame⟩ | ⟨hdeeper, -⟩
    · have hsame : Language.parseAll l ⟨depth, true⟩ (.start (.ofText source broken) site) = _ := hsame
      rw [hsame]
      rfl
    · exact absurd hdeeper (Nat.lt_irrefl 0)
  · rw [journalled_eq]
    exact sameButJournal_of_agree (agree_runStream (Variant.recalls rfl) s records name source broken)
  · rw [journalled_eq]
    exact sameButJournal_of_agree (agree_evalLine (Variant.recalls rfl) s records source)
  · obtain ⟨records, hstart⟩ := start_guised config config false (v := ⟨0, true, id⟩) 0 rfl input limit
      nextClass rfl rfl
    exact ⟨records, hstart.trans (journalled_eq _ true records).symm⟩

/-! ## The limit -/

/-- A fresh session with the limit `depth` runs a stream. -/
def runWithin (depth : Int) (config : Config) (watched : Bool) (input : Input) (limit : Option Nat) (nextClass : Nat)
    (name : Text) (stream : Stream) : Except Failure Value × Session :=
  (start { config with maxDepth := depth } watched input limit nextClass).runStream name stream

/-- A higher limit of nesting never changes a result that did not meet the lower one: the outcome is the same, and so is
the whole machine, its output and its globals among it, but for the limit and the journal.  If the lower limit is met, what
has been written by then is the beginning of what is written under the higher one. -/
theorem higher_limit_keeps_results (config : Config) (watched : Bool) (input : Input) (limit : Option Nat)
    (nextClass : Nat) (name source : Text) (broken : Option Text) (d d' : Int) (hpositive : 0 < d) (hle : d ≤ d') :
    let low := runWithin d config watched input limit nextClass name (.ofText source broken)
    let high := runWithin d' config watched input limit nextClass name (.ofText source broken)
    ((∀ e, low.1 = .error e → e.kind ≠ .stackExhausted) →
      high.1 = low.1 ∧ high.2.machine.output = low.2.machine.output ∧
      (∀ n, high.2.global? n = low.2.global? n) ∧
      high.2.machine = { low.2.machine with
        settings := high.2.machine.settings, records := high.2.machine.records }) ∧
    ∀ e, low.1 = .error e → e.kind = .stackExhausted →
      low.2.machine.output.text <+: high.2.machine.output.text := by
  intro low high
  let v : Variant := ⟨(d' - d).toNat, watched, id⟩
  have hdepth : depthLimit d' = depthLimit d + v.deeper := by
    unfold depthLimit
    rw [if_neg (by omega), if_neg (by omega)]
    show d'.toNat = d.toNat + (d' - d).toNat
    omega
  obtain ⟨records, hstart⟩ := start_guised { config with maxDepth := d } { config with maxDepth := d' } watched (v := v) 0 rfl
    input limit nextClass rfl hdepth
  have hagree := agree_runStream (v := v) (Variant.recalls rfl)
    (start { config with maxDepth := d } watched input limit nextClass) records
    name source broken
  rw [← hstart] at hagree
  change Agree v.guise low high at hagree
  rcases hagree with ⟨houtcome, records', hsession⟩ | ⟨-, e, hfails, hkind, hwritten⟩
  · have hsession : high.2.machine = _ := (congrArg Session.machine hsession).trans (Machine.guised_guise _ _ records')
    refine ⟨fun _ => ⟨houtcome, ?_⟩, fun e _ _ => ?_⟩
    · unfold global?
      rw [hsession]
      exact ⟨rfl, fun _ => rfl, rfl⟩
    · rw [hsession]
      exact List.prefix_refl _
  · refine ⟨fun hnot => absurd hkind (hnot e hfails), fun e' hfails' _ => hwritten⟩

/-- A function that prints what it is called with on its way down. -/
def descendingSource : Text :=
  text "def f(n) \x7b if n == 0 \x7b 0 \x7d else \x7b print(n); f(n - 1) \x7d \x7d\nf(5)\n"

/-- It is run within a limit. -/
def descendingRun (depth : Int) : Except Failure Value × Session :=
  runWithin depth .default false (.ofText []) none 0 (text "main") (.ofText descendingSource none)

/-- It comes to its end under one limit, and under a lower one it has printed less. -/
theorem descending_prints_more :
    (descendingRun 20).2.machine.output.text = text "5\n4\n3\n2\n" ∧
      (descendingRun 40).2.machine.output.text = text "5\n4\n3\n2\n1\n" ∧
      (descendingRun 20).2.machine.output.text <+: (descendingRun 40).2.machine.output.text := by
  have hkind : (StoneLang.failure? (descendingRun 20).1).map Failure.kind = some .stackExhausted := by decide +kernel
  obtain ⟨e, he, hexhausted⟩ := Option.map_eq_some_iff.mp hkind
  have hfails := eq_error_of_failure? he
  refine ⟨by decide +kernel, by decide +kernel, ?_⟩
  unfold descendingRun at hfails ⊢
  exact (higher_limit_keeps_results .default false (.ofText []) none 0 (text "main") descendingSource none 20 40
    (by decide) (by decide)).2 e hfails hexhausted

end Session

end StoneLang
