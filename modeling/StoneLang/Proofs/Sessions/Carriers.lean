/-
  Sessions on states that carry more than a machine.

  A session reads units and executes them: a line is read as a whole and then executed, a source is read
  and executed unit by unit.  Here this is done on any state that carries a machine (`Carrier`), and it is
  left open how a unit is executed.  On the machine itself, with `Run.execute`, it is what the session does
  (`Carrier.evalLine_self`, `Carrier.run_self`); on a state that has more than a machine, the rest is what
  an observer of the session has seen.

  Units are read one after the other, so each of them has sites that nothing before it has (`Numbered`).
-/
import StoneLang.Proofs.Grammar.Units
import StoneLang.Session

namespace StoneLang

def Machine.afterReading (m : Machine) (r : Reading) : Machine :=
  { m with nextSite := r.nextSite, records := m.records ++ r.trace }

def unitRecord (source : Text) (unit : Node) : Record :=
  Record.debug "execute unit"
    [("source", .text source), ("line", .number unit.line), ("node", .text unit.kind.label)]

def sourceRecord (source : Text) (count : Nat) : Record :=
  Record.debug "source finished" [("source", .text source), ("units", .number count)]

/-! ## States that carry a machine -/

/-- The computation has ended in a state with `I`, and if it failed, with a failure that `E` allows in this
state. -/
def EndedIn {σ α : Type} (I : σ → Prop) (E : σ → Failure → Prop) : EStateM.Result Failure σ α → Prop
  | .ok _ s => I s
  | .error e s => I s ∧ E s e

theorem EndedIn.final (h : EndedIn I E x) : I (finalState x) := by
  cases x with
  | ok a s => exact h
  | error e s => exact h.1

/-- A kind of state with a machine in it. -/
structure Carrier (σ : Type) where
  machine : σ → Machine
  withMachine : σ → Machine → σ
  machine_withMachine : ∀ s m, machine (withMachine s m) = m
  withMachine_machine : ∀ s, withMachine s (machine s) = s

namespace Carrier

def self : Carrier Machine := ⟨id, fun _ m => m, fun _ _ => rfl, fun _ => rfl⟩

section
variable {σ : Type} (K : Carrier σ) (execute : Node → EStateM Failure σ Value)

def lift {α : Type} (x : Run α) : EStateM Failure σ α := fun s => onState (K.withMachine s) (x (K.machine s))

def afterReading (s : σ) (r : Reading) : σ := K.withMachine s ((K.machine s).afterReading r)

def noting (s : σ) (record : Record) : σ := K.withMachine s ((K.machine s).note record)

/-- Executes units in order; empty ones are passed over. -/
def executeAll : List Node → Value → EStateM Failure σ Value
  | [], last => return last
  | unit :: rest, last => do
    if unit.isEmpty then executeAll rest last
    else
      let value ← execute unit
      executeAll rest value

/-- Parses and executes the units of a source one at a time, at most `bound` of them. -/
def runUnits (layers : Layers) (source : Text) : Nat → Reading → Value → Nat → EStateM Failure σ Value
  | 0, _, _, _ => throw .unfinished
  | bound + 1, r, last, count => do
    match Language.atEnd r with
    | .error failure r =>
      let _ ← K.lift (Run.absorb r)
      throw failure
    | .ok true r =>
      let _ ← K.lift (Run.absorb r)
      K.lift (Run.note (sourceRecord source count))
      return last
    | .ok false r =>
      match Language.parseUnit layers (Run.parseSettings (K.machine (← get))) r with
      | .error failure r =>
        let _ ← K.lift (Run.absorb r)
        throw failure
      | .ok unit r =>
        let r ← K.lift (Run.absorb r)
        if unit.isEmpty then runUnits layers source bound r last count
        else
          K.lift (Run.note (unitRecord source unit))
          let value ← execute unit
          runUnits layers source bound r value (count + 1)

/-- Parses all of `source`, then executes it. -/
def evalLine (layers : Layers) (source : Text) : EStateM Failure σ Value := do
  let parsed ← K.lift (Run.parseStream layers (.ofSource source))
  match parsed.failure with
  | some failure => throw failure
  | none => executeAll execute parsed.units .null

def labelled {α : Type} (name : Text) (action : EStateM Failure σ α) : EStateM Failure σ α := fun s =>
  match action s with
  | .ok a s => .ok a s
  | .error failure s => .error (failure.label name) s

/-- Runs a source unit by unit; a failure is labelled with the name of the source. -/
def run (layers : Layers) (name source : Text) : EStateM Failure σ Value :=
  labelled name do
    let r ← K.lift (Run.beginReading (.ofSource source))
    K.runUnits execute layers name ((Stream.ofSource source).size + 1) r .null 0

theorem machine_afterReading (s : σ) (r : Reading) :
    K.machine (K.afterReading s r) = (K.machine s).afterReading r :=
  K.machine_withMachine _ _

theorem machine_noting (s : σ) (record : Record) : K.machine (K.noting s record) = (K.machine s).note record :=
  K.machine_withMachine _ _

end

/-! ## The machine itself -/

theorem onState_self (x : EStateM.Result Failure Machine α) : onState self.machine x = x := by
  cases x <;> rfl

theorem lift_self (x : Run α) : self.lift x = x := by
  funext m
  exact onState_self (x m)

theorem executeAll_self (units : List Node) (last : Value) :
    executeAll Run.execute units last = Run.executeAll units last := by
  induction units generalizing last with
  | nil => rfl
  | cons unit rest ih => simp only [executeAll, Run.executeAll, ih]

theorem runUnits_self (layers : Layers) (source : Text) (bound : Nat) (r : Reading) (last : Value)
    (count : Nat) :
    self.runUnits Run.execute layers source bound r last count
      = Run.runUnits layers source bound r last count := by
  induction bound generalizing r last count with
  | zero => rfl
  | succ bound ih =>
    unfold runUnits Run.runUnits
    simp only [ih, lift_self]
    rfl

theorem evalLine_self (s : Session) (source : Text) :
    s.evalLine source = s.perform (self.evalLine Run.execute s.layers source) := by
  unfold evalLine Session.evalLine
  rw [lift_self]
  refine congrArg s.perform (bind_congr fun parsed => ?_)
  cases parsed.failure with
  | some failure => rfl
  | none => exact (executeAll_self parsed.units .null).symm

theorem labelled_self (name : Text) (action : Run α) : labelled name action = Run.labelled name action := by
  funext m
  unfold labelled Run.labelled
  cases action m <;> rfl

theorem run_self (s : Session) (name source : Text) :
    s.run name source = s.perform (self.run Run.execute s.layers name source) := by
  unfold run
  rw [lift_self, labelled_self]
  simp only [runUnits_self]
  rfl

/-! ## One unit of a source -/

theorem runUnits_turn (K : Carrier σ) (execute : Node → EStateM Failure σ Value) (layers : Layers)
    (source : Text) (bound : Nat) (r : Reading) (last : Value) (count : Nat) (s : σ) :
    K.runUnits execute layers source (bound + 1) r last count s
      = match Language.turn layers (Run.parseSettings (K.machine s)) r with
        | .error e r => .error e (K.afterReading s r)
        | .ok none r => .ok last (K.noting (K.afterReading s r) (sourceRecord source count))
        | .ok (some unit) r =>
          if unit.isEmpty then K.runUnits execute layers source bound (r.withTrace #[]) last count (K.afterReading s r)
          else (do
            let value ← execute unit
            K.runUnits execute layers source bound (r.withTrace #[]) value (count + 1) : EStateM Failure σ Value)
              (K.noting (K.afterReading s r) (unitRecord source unit)) := by
  conv => lhs; unfold runUnits
  unfold Language.turn
  rw [bind_apply]
  cases Language.atEnd r with
  | error e r₁ => rfl
  | ok finished r₁ =>
    cases finished with
    | true => rfl
    | false =>
      simp only [Bool.false_eq_true, if_false]
      rw [get_bind_apply, bind_apply]
      cases Language.parseUnit layers (Run.parseSettings (K.machine s)) r₁ with
      | error e r₂ => rfl
      | ok unit r₂ =>
        show (K.lift (Run.absorb r₂) >>= fun r => _) s = if unit.isEmpty = true then _ else _
        rw [bind_of_ok (show K.lift (Run.absorb r₂) s = .ok (r₂.withTrace #[]) (K.afterReading s r₂) from rfl)]
        cases unit.isEmpty <;> rfl

end Carrier

theorem Run.runUnits_turn (layers : Layers) (source : Text) (bound : Nat) (r : Reading) (last : Value) (count : Nat)
    (m : Machine) :
    runUnits layers source (bound + 1) r last count m
      = match Language.turn layers (parseSettings m) r with
        | .error e r => .error e (m.afterReading r)
        | .ok none r => .ok last ((m.afterReading r).note (sourceRecord source count))
        | .ok (some unit) r =>
          if unit.isEmpty then runUnits layers source bound (r.withTrace #[]) last count (m.afterReading r)
          else (do
            let value ← execute unit
            runUnits layers source bound (r.withTrace #[]) value (count + 1) : Run Value)
              ((m.afterReading r).note (unitRecord source unit)) := by
  have hturn := Carrier.self.runUnits_turn execute layers source bound r last count m
  simp only [Carrier.runUnits_self] at hturn
  exact hturn

/-! ## Sites -/

theorem Parse.sites_closed :
    Parse.Closed fun x => ∀ r : Reading, r.nextSite ≤ (finalState (x r)).nextSite where
  pure _ r := Nat.le_refl _
  throw _ r := Nat.le_refl _
  bind hx hf r := finalState_bind (P := fun s => r.nextSite ≤ s.nextSite) (hx r) fun a s _ hle => Nat.le_trans hle (hf a s)
  peek r := by
    simp only [Parse.peek, Parse.onStream]
    cases Stream.peek 0 r.stream <;> exact Nat.le_refl _
  peekAnyway r := by
    simp only [Parse.peekAnyway, Parse.peek, Parse.onStream]
    cases Stream.peek 0 r.stream <;> exact Nat.le_refl _
  read r := by
    simp only [Parse.read, Parse.onStream]
    cases Stream.read r.stream <;> exact Nat.le_refl _
  freshSite r := Nat.le_succ _
  rounds r := Nat.le_refl _
  record _ r := Nat.le_refl _

/-- The units have sites from `a` on and below `b`, each its own. -/
inductive Numbered : Nat → List Node → Nat → Prop where
  | nil {a b : Nat} (h : a ≤ b) : Numbered a [] b
  | cons {a b c : Nat} {unit : Node} {rest : List Node} (isUnit : unit.IsUnit) (le : a ≤ b)
      (sites : Ascending a b unit.sites) (tail : Numbered b rest c) : Numbered a (unit :: rest) c

theorem Numbered.le (h : Numbered a units b) : a ≤ b := by
  induction h with
  | nil hle => exact hle
  | cons _ le _ _ ih => exact Nat.le_trans le ih

theorem Language.numbered_parseUnits (layers : Layers) (settings : ParseSettings) (bound : Nat) (r : Reading) :
    Numbered r.nextSite (parseUnits layers settings bound r).1.units
      (parseUnits layers settings bound r).2.nextSite := by
  induction bound generalizing r with
  | zero => exact .nil (Nat.le_refl _)
  | succ bound ih =>
    have hsites := Parse.sites_closed.turn layers settings r
    rw [parseUnits_turn]
    cases hturn : turn layers settings r with
    | error e r' =>
      rw [hturn] at hsites
      exact .nil hsites
    | ok found r' =>
      cases found with
      | none =>
        rw [hturn] at hsites
        exact .nil hsites
      | some unit =>
        obtain ⟨hle, hascending⟩ := ascending_turn hturn
        exact .cons (isUnit_turn hturn) hle hascending (ih r')

/-! ## Sessions -/

namespace Session

theorem perform_ended {α : Type} {s : Session} {action : Run α} (h : EndedIn I E (action s.machine)) :
    I (s.perform action).2.machine ∧ ∀ e, (s.perform action).1 = .error e → E (s.perform action).2.machine e := by
  unfold perform
  generalize action s.machine = res at h ⊢
  cases res with
  | ok a m => exact ⟨h, fun e he => by cases he⟩
  | error failure m =>
    refine ⟨h.1, fun e he => ?_⟩
    cases he
    exact h.2

end Session

namespace Carrier

variable {σ : Type} {K : Carrier σ} {execute : Node → EStateM Failure σ Value} {layers : Layers} {source : Text}

/-- The units of a line, as they are read in the state. -/
def read (K : Carrier σ) (layers : Layers) (source : Text) (s : σ) : Language.Units × Reading :=
  Language.parseAll layers (Run.parseSettings (K.machine s)) (.start (.ofSource source) (K.machine s).nextSite)

theorem evalLine_eq (s : σ) :
    K.evalLine execute layers source s
      = (match (read K layers source s).1.failure with
        | some failure => throw failure
        | none => executeAll execute (read K layers source s).1.units .null : EStateM Failure σ Value)
          (K.afterReading s (read K layers source s).2) := rfl

end Carrier

end StoneLang
