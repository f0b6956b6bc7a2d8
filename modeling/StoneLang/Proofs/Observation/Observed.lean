/-
  Observed sessions.

  An observer writes down what happens while a program runs: every request that the evaluator makes of the
  machine, with the machine as it is at that moment (`Moment`); every evaluation, with the globals before and
  after it (`Evaluation`); the units that are executed and the failures they end with.  Besides, the observer
  remembers what the machine itself does not: for which table each frame was made, and in whose table each
  name was placed (`Trail`).

  The observer only looks on: on the machine, an observed run is the run itself (`Observed.machine_execute`).
  So what is shown of everything that was observed is shown of everything that happens.

  What is to be shown of requests is the same for many statements (`Observed.Lifts`): only accesses to members look at what
  is remembered of them, and everything else keeps up what running keeps up (`Run.Plain`).
-/
import StoneLang.Proofs.Addresses.Placing
import StoneLang.Proofs.Evaluation.Upkeep
import StoneLang.Proofs.Sessions.Carriers
import StoneLang.Proofs.Settings.Evaluation

namespace StoneLang

/-- What is asked of the machine while a program runs. -/
inductive Request where
  /-- The names of a unit are to be placed. -/
  | placeNames (unit : Node)
  | readName (site : Site) (word : Word) (env : Env)
  | assignName (site : Site) (word : Word) (value : Value) (env : Env)
  | operate (operator : Text) (a b : Value)
  | newArray (values : List Value)
  | makeClosure (env : Env) (site : Site) (params : List Label) (body : List Node)
  | define (env : Env) (site : Site) (title : Label) (params : List Label) (body : List Node)
  | defineClass (env : Env) (site : Site) (title : Label) (parent : Option Label) (members : List Node)
  | native (ref : Nat)
  | callNative (native : Native) (env : Env) (arguments : List Value)
  | function (ref : Nat)
  | enterFunction (ref : Nat) (function : Function) (arguments : List Value)
  | className (object : Nat)
  | enterMethod (object : Nat) (method : Definition) (arguments : List Value)
  | classEntry (ref : Nat)
  | newObject (ref : Nat) (c : Class)
  | enterInitializers (object ref : Nat)
  | readMember (object : Nat) (site : Site) (title : Label)
  | assignMember (target : Value) (site : Site) (title : Label) (value : Value)
  | element (target index : Value)
  | readElement (ref index : Nat)
  | setElement (ref index : Nat) (value : Value)

/-- What is remembered beside the machine. -/
structure Trail where
  /-- In whose table each name has been placed. -/
  homes : SiteMap Owner
  /-- For whose table each frame was made. -/
  frames : SiteMap Owner
  /-- The site of the code of each function. -/
  functions : SiteMap Site
  /-- The site at which each class was defined. -/
  classes : SiteMap Site

namespace Trail

/-- What is remembered at the start: the frames of the natives and of the globals. -/
def start : Trail :=
  ⟨.empty, (SiteMap.empty.set Machine.builtinFrame .natives).set Machine.globalFrame .globals, .empty, .empty⟩

def enter (trail : Trail) (m : Machine) (owner : Owner) : Trail :=
  { trail with frames := trail.frames.set m.frames.size owner }

/-- What is remembered after a request of a machine. -/
def after (trail : Trail) (m : Machine) : Request → Trail
  | .placeNames unit => { trail with
      homes := homesOfUnit ⟨m.settings.maxDepth, m.settings.watched⟩ unit m.globalNames m.notes trail.homes }
  | .makeClosure _ site _ _ | .define _ site _ _ _ =>
    { trail with functions := trail.functions.set m.functions.size site }
  | .defineClass env site _ parent members =>
    match m.superclass env parent with
    | .error _ => trail
    | .ok base => { trail with
        homes := homesOfClass ⟨m.settings.maxDepth, m.settings.watched⟩ site members
          ((m.baseLayout base).getD .empty) m.globalNames m.notes trail.homes
        classes := trail.classes.set m.classes.size site }
  | .enterFunction ref _ _ => trail.enter m (.function ((trail.functions.get? ref).getD 0))
  | .enterMethod _ d _ => trail.enter m (.function d.site)
  | .enterInitializers _ ref => trail.enter m (.initializers ((trail.classes.get? ref).getD 0))
  | _ => trail

end Trail

/-- A request, with the machine of which it is made and what is remembered by then. -/
structure Moment where
  request : Request
  machine : Machine
  trail : Trail

/-- An evaluation in some environment, with the frame of the globals before and after it. -/
structure Evaluation where
  env : Env
  before : Option Frame
  after : Option Frame

/-- A machine under observation. -/
structure Observed where
  machine : Machine
  trail : Trail
  /-- All requests, the last one first. -/
  moments : List Moment
  /-- All evaluations, the last one that ended first. -/
  evaluations : List Evaluation
  /-- The units that have been executed, the last one first. -/
  executed : List Node
  /-- What units have failed with, the last one first. -/
  failures : List Failure

namespace Observed

def ofMachine (m : Machine) : Observed := ⟨m, .start, [], [], [], []⟩

def carrier : Carrier Observed := ⟨machine, fun s m => { s with machine := m }, fun _ _ => rfl, fun _ => rfl⟩

/-- The state after a request that was made of `s` has left the machine `m`. -/
def answered (s : Observed) (request : Request) (m : Machine) : Observed :=
  { s with
    machine := m
    trail := s.trail.after s.machine request
    moments := ⟨request, s.machine, s.trail⟩ :: s.moments }

def asking {α : Type} (request : Request) (x : Run α) : EStateM Failure Observed α := fun s =>
  onState (s.answered request) (x s.machine)

def look {α : Type} (f : Machine → α) : EStateM Failure Observed α := fun s => .ok (f s.machine) s

/-- What the evaluator asks, of a machine under observation. -/
def actions : Actions Observed where
  maxDepth := look (·.settings.maxDepth)
  rounds := look (·.settings.rounds)
  readName site word env := asking (.readName site word env) (Actions.machine.readName site word env)
  assignName site word value env :=
    asking (.assignName site word value env) (Actions.machine.assignName site word value env)
  operate operator a b line := asking (.operate operator a b) (Actions.machine.operate operator a b line)
  newArray values := asking (.newArray values) (Actions.machine.newArray values)
  makeClosure env site params body :=
    asking (.makeClosure env site params body) (Actions.machine.makeClosure env site params body)
  define env site title params body line :=
    asking (.define env site title params body) (Actions.machine.define env site title params body line)
  defineClass env site title parent members line := asking (.defineClass env site title parent members)
    (Actions.machine.defineClass env site title parent members line)
  native? ref := asking (.native ref) (Actions.machine.native? ref)
  callNative native env line arguments :=
    asking (.callNative native env arguments) (Actions.machine.callNative native env line arguments)
  function? ref := asking (.function ref) (Actions.machine.function? ref)
  enterFunction ref function arguments :=
    asking (.enterFunction ref function arguments) (Actions.machine.enterFunction ref function arguments)
  className object := asking (.className object) (Actions.machine.className object)
  enterMethod object d arguments :=
    asking (.enterMethod object d arguments) (Actions.machine.enterMethod object d arguments)
  class? ref := asking (.classEntry ref) (Actions.machine.class? ref)
  newObject ref c := asking (.newObject ref c) (Actions.machine.newObject ref c)
  enterInitializers object ref :=
    asking (.enterInitializers object ref) (Actions.machine.enterInitializers object ref)
  readMember object site title :=
    asking (.readMember object site title) (Actions.machine.readMember object site title)
  assignMember target site title value := asking (.assignMember target site title value)
    (Actions.machine.assignMember target site title value)
  element target index line := asking (.element target index) (Actions.machine.element target index line)
  readElement ref index := asking (.readElement ref index) (Actions.machine.readElement ref index)
  setElement ref index value :=
    asking (.setElement ref index value) (Actions.machine.setElement ref index value)

/-- The state after an evaluation from `s` has ended in `s'`. -/
def evaluated (s : Observed) (env : Env) (s' : Observed) : Observed :=
  { s' with
    evaluations := ⟨env, s.machine.frames[Machine.globalFrame]?, s'.machine.frames[Machine.globalFrame]?⟩ ::
      s'.evaluations }

/-- The value of a node with `levels` levels left; every evaluation is written down when it has ended. -/
def evaluate : Nat → Node → Env → EStateM Failure Observed Value
  | 0, node, env => fun s => onState (s.evaluated env) (Actions.evaluate actions 0 node env s)
  | levels + 1, node, env => fun s =>
    onState (s.evaluated env) (Actions.evaluateNode actions (evaluate levels) env node s)

def executing (s : Observed) (unit : Node) : Observed := { s with executed := unit :: s.executed }

def failed (s : Observed) (e : Failure) : Observed := { s with failures := e :: s.failures }

def runUnit (unit : Node) : EStateM Failure Observed Value := do
  let settings ← look Machine.settings
  if settings.placesNames then asking (.placeNames unit) (Run.placeNames unit)
  evaluate settings.maxDepth unit Machine.globalEnv

/-- Executes a unit, and writes down that it did and what it failed with. -/
def execute (unit : Node) : EStateM Failure Observed Value := fun s =>
  match runUnit unit (s.executing unit) with
  | .ok value s => .ok value s
  | .error e s => .error e (s.failed e)

theorem mem_failures_of_execute (h : execute unit s = .error e s') : e ∈ s'.failures := by
  unfold execute at h
  generalize runUnit unit (s.executing unit) = res at h ⊢
  cases res with
  | ok value t =>
    cases h
  | error e' t =>
    cases h
    exact List.mem_cons_self

theorem ended_execute (h : Coupling.Ended I Q E (runUnit unit (s.executing unit))) (hfailed : ∀ e s, I s → E e → I (s.failed e)) :
    Coupling.Ended I Q E (execute unit s) := by
  unfold execute
  generalize runUnit unit (s.executing unit) = r at h
  cases r with
  | ok value s' => exact h
  | error e s' => exact ⟨hfailed e s' h.1 h.2, h.2⟩

end Observed

/-! ## Requests in general -/

open Coupling

def Request.access? : Request → Option (Site × Label)
  | .readMember _ site title | .assignMember _ site title _ => some (site, title)
  | _ => none

/-- What running keeps up of the classes and of what is remembered of them is kept up, and the results satisfy `Q`. -/
abbrev Run.KeepsUp {α : Type} (K : CodeKind) (Q : α → Prop) (x : Run α) : Prop :=
  ∀ kept same remembering withClass around, ∃ E,
    Ends ((Upkeep.ofClasses K kept same remembering withClass).Upheld around) Q E x

/-- What the machine does when it is asked for anything but an access: it does not look at what is remembered. -/
structure Run.Plain {α : Type} (K : CodeKind) (Q : α → Prop) (x : Run α) : Prop where
  keeps : KeepsUp K Q x
  same : ∀ (v : Variant) (m : Machine) (records : Array Record), v.deeper = 0 →
    ∃ records', x (m.under v records) = onState (Machine.under · v records') (x m)

namespace Run.Plain

variable {α : Type} {K : CodeKind} {Q : α → Prop}

theorem of_agrees (hkeeps : KeepsUp K Q x) (h : ∀ v : Variant, Agrees v.guise (fun _ => True) x x) : Plain K Q x := by
  refine ⟨hkeeps, fun v m records hdeeper => ?_⟩
  rcases (h v).agree m records with hsame | ⟨hlimit, -⟩
  · simpa only [Machine.guised_guise] using hsame
  · exact absurd hlimit (hdeeper ▸ Nat.lt_irrefl 0)

theorem of_indifferent (hkeeps : KeepsUp K Q x) (h : ∀ v : Variant, Indifferent v.guise x) : Plain K Q x :=
  of_agrees hkeeps fun v => (h v).agrees fun _ => trivial

theorem looking (f : Machine → α) (hf : ∀ (v : Variant) m records, f (Machine.under m v records) = f m)
    (hQ : ∀ m, m.Carries K.node → Q (f m)) : Plain K Q (do return f (← get)) where
  keeps _ _ _ _ _ := ⟨fun _ => True, fun m hm => ⟨hm, hQ m hm.2.carries⟩⟩
  same v m records _ := ⟨records, congrArg (EStateM.Result.ok · (m.under v records)) (hf v m records)⟩

end Run.Plain

namespace Observed

/-- What is to be shown of requests for `R` to hold between an observed run and one whose accesses to members are the given
ones. -/
structure Lifts (K : CodeKind) (readMember : Nat → Site → Label → Run Value)
    (assignMember : Value → Site → Label → Value → Run Unit)
    (R : {α : Type} → (α → Prop) → EStateM Failure Observed α → Run α → Prop) : Prop where
  pure : ∀ {α : Type} {Q : α → Prop} {a : α}, Q a → R Q (Pure.pure a) (Pure.pure a)
  throw : ∀ {α : Type} {Q : α → Prop} (e : Failure), R Q (MonadExcept.throw e) (MonadExcept.throw e)
  bind : ∀ {α β : Type} {P : α → Prop} {Q : β → Prop} {x y f g}, R P x y → (∀ a, P a → R Q (f a) (g a)) →
    R Q (x >>= f) (y >>= g)
  rounds : R (fun _ => True) actions.rounds Actions.machine.rounds
  asks : ∀ {α : Type} {Q : α → Prop} {x request}, request.access? = none → Run.Plain K Q x → R Q (asking request x) x
  readMember : ∀ object {site title}, K.suffix (.member site title) →
    R (fun v => ∀ n ∈ v.code, K.node n) (actions.readMember object site title) (readMember object site title)
  assignMember : ∀ target {site title value}, K.suffix (.member site title) → (∀ n ∈ value.code, K.node n) →
    R (fun _ => True) (actions.assignMember target site title value) (assignMember target site title value)

def Lifts.accord {K : CodeKind} {readMember : Nat → Site → Label → Run Value}
    {assignMember : Value → Site → Label → Value → Run Unit}
    {R : {α : Type} → (α → Prop) → EStateM Failure Observed α → Run α → Prop} (L : Lifts K readMember assignMember R) :
    Accord (K.fixed fun _ => True) (fun _ Q x y => R (Q .still) x y) actions
      { Actions.machine with readMember, assignMember } where
  value _ v := ∀ n ∈ v.code, K.node n
  native _ := True
  callable _ _ f g := f = g ∧ K.node f.body
  constructible _ _ c d := c = d
  initializes _ _ _ := True
  place _ _ := True
  pure := L.pure
  throw d _ := L.throw (.diagnostic d)
  unfinished _ := L.throw .unfinished
  bind hx hf := L.bind hx fun a ha => hf .still a le_rfl ha
  value_null _ := nofun
  value_integer _ _ := nofun
  value_string _ _ := nofun
  rounds _ _ := L.rounds
  readName _ e site word _ := L.asks rfl (.of_indifferent (fun _ _ _ _ _ => ⟨_, Upkeep.ends_readName site word e⟩)
    fun _ => Run.indifferent_readName site word e)
  assignName _ e site word value _ hvalue := L.asks rfl (.of_indifferent
    (fun _ _ _ _ _ => ⟨_, Upkeep.ends_assignName site word hvalue trivial⟩)
    fun _ => Run.indifferent_assignName site word value e)
  operate _ operator a b line _ _ := L.asks rfl (.of_indifferent
    (fun _ _ _ _ _ => ⟨_, Upkeep.ends_operate operator a b line⟩) fun _ => Run.indifferent_operate operator a b line)
  newArray _ values hvalues := L.asks (x := Run.newArray values.toArray) rfl (.of_indifferent
    (fun _ _ _ _ _ => ⟨_, Upkeep.ends_newArray hvalues⟩) fun _ => Run.indifferent_modifyGet (fun _ _ => rfl) fun _ => .refl _)
  makeClosure _ e site params body hnode := L.asks rfl (.of_indifferent
    (fun _ _ _ _ _ => ⟨_, Upkeep.ends_makeFunction trivial site [] params (K.closure hnode.2)⟩)
    fun _ => Run.indifferent_makeFunction e site [] params body)
  define _ e site title params body line hnode := L.asks rfl (.of_indifferent
    (fun _ _ _ _ _ => ⟨_, Upkeep.ends_define trivial site title params (K.definition hnode.2) line⟩)
    fun _ => Run.indifferent_define e site title params body line)
  defineClass _ e site title parent members line hnode := L.asks rfl (.of_agrees
    (fun _ _ _ _ _ => ⟨_, Upkeep.ends_defineClass trivial site title parent (K.classDefinition hnode.2) line⟩)
    fun _ => Run.agrees_defineClass e site title parent members line)
  native? _ ref _ := L.asks rfl (.looking (·.natives[ref]?) (fun _ _ _ => rfl) fun _ _ _ _ => trivial)
  callNative _ e native line values _ _ hvalues _ := L.asks rfl (.of_indifferent
    (fun _ _ _ _ _ => ⟨fun _ => True,
      Upkeep.ends_callNative native e line hvalues (fun _ _ => trivial) fun _ _ => trivial⟩)
    fun _ => Run.indifferent_callNative native e line values)
  function? _ ref _ _ _ _ _ hfg := L.bind (P := fun found => ∀ f, found = some f → K.node f.body)
    (L.asks rfl (.looking (·.functions[ref]?) (fun _ _ _ => rfl) fun _ h f hf =>
      h.functions f (Array.mem_of_getElem? hf)))
    fun found hfound => hfg .still found found le_rfl (rel_self fun f hf => ⟨⟨rfl, rfl, rfl⟩, rfl, hfound f hf⟩)
  enterFunction _ ref f g values hcall hvalues _ := by
    obtain ⟨rfl, hbody⟩ : f = g ∧ _ := hcall
    exact L.asks rfl (.of_indifferent (fun _ _ _ _ _ => ⟨_, Upkeep.ends_enterFunction ref ⟨trivial, hbody⟩ hvalues⟩)
      fun _ => Run.indifferent_enter (Actions.functionFrame f values) f.env)
  className _ object _ _ := L.asks rfl (.looking (·.className object) (fun _ _ _ => rfl) fun _ _ => trivial)
  enterMethod _ object d values hmethod hvalues _ := L.asks rfl (.of_indifferent
    (fun _ _ _ _ _ => ⟨_, Upkeep.ends_enterMethod object hmethod hvalues⟩)
    fun _ => Run.indifferent_enterMethod object d values)
  class? _ ref _ _ _ _ _ hfg := L.bind (P := fun _ => True)
    (L.asks rfl (.looking (·.classes[ref]?) (fun _ _ _ => rfl) fun _ _ => trivial))
    fun found _ => hfg .still found found le_rfl (rel_self fun _ _ => ⟨rfl, rfl⟩)
  newObject _ ref c d hsame := by
    obtain rfl : c = d := hsame
    exact L.asks rfl (.of_indifferent (fun _ _ _ _ _ => ⟨_, Upkeep.ends_newObject ref c⟩)
      fun _ => Run.indifferent_newObject ref c)
  enterInitializers _ object ref _ := L.asks rfl (.of_indifferent
    (fun _ _ _ _ _ => ⟨_, Upkeep.ends_enterInitializers object ref⟩) fun _ => Run.indifferent_enterInitializers object ref)
  readMember _ _ object _ _ _ haccess := L.readMember object haccess.2
  assignMember _ _ target _ _ _ _ haccess hvalue := L.assignMember target haccess.2 hvalue
  element _ target index line _ _ := L.asks rfl (.of_indifferent
    (fun _ _ _ _ _ => ⟨_, Upkeep.ends_element target index line⟩) fun _ => Run.indifferent_element target index line)
  readElement _ ref index _ := L.asks rfl (.looking (fun m => (((m.arrays[ref]?).getD #[])[index]?).getD .null)
    (fun _ _ _ => rfl) fun _ h => h.held.element nofun ref index)
  setElement _ ref index _ _ hvalue := L.asks rfl (.of_indifferent
    (fun _ _ _ _ _ => ⟨_, Upkeep.ends_setElement ref index hvalue⟩)
    fun _ => Run.indifferent_modifyGet (fun _ _ => rfl) fun _ => .refl _)

/-! ## An observer only looks on -/

/-- A machine, under observation and by itself; no unit is executed meanwhile. -/
def watching (executed : List Node) : Coupling Observed Machine where
  World := Unit
  le _ _ := True
  refl _ := trivial
  trans _ _ := trivial
  related _ s m := s.machine = m ∧ s.executed = executed
  admits _ := True

variable {executed : List Node}

variable {α : Type} {x : EStateM.Result Failure Observed α} {y : EStateM.Result Failure Machine α}

theorem outcome_of_onState (h : onState machine x = y) (hexecuted : (finalState x).executed = executed) (hQ : ∀ a, Q a) :
    (watching executed).Outcome () (Same fun _ => Q) x y := by
  subst h
  cases x with
  | ok a s => exact .ok () trivial ⟨rfl, hexecuted⟩ ⟨rfl, hQ a⟩
  | error e s => exact .error () trivial ⟨rfl, hexecuted⟩ trivial

theorem onState_of_outcome (h : (watching executed).Outcome () (Same fun _ => Q) x y) :
    onState machine x = y ∧ (finalState x).executed = executed := by
  cases h with
  | @ok a b s m w later related holds =>
    obtain ⟨rfl, -⟩ := holds
    exact ⟨congrArg (EStateM.Result.ok a) related.1, related.2⟩
  | @error e s m w later related admitted => exact ⟨congrArg (EStateM.Result.error e) related.1, related.2⟩

theorem sim_asking (request : Request) {x : Run α} (hQ : ∀ m a m', x m = .ok a m' → Q a) :
    (watching executed).Sim () (Same fun _ => Q) (asking request x) x := by
  rintro s _ ⟨rfl, hexecuted⟩
  unfold asking
  cases hres : x s.machine with
  | ok a m => exact .ok () trivial ⟨rfl, hexecuted⟩ ⟨rfl, hQ _ a m hres⟩
  | error e m => exact .error () trivial ⟨rfl, hexecuted⟩ trivial

theorem lifts_watching (executed : List Node) : Lifts .any Run.readMember Run.assignMember
    fun Q x y => (watching executed).Sim () (Same fun _ => Q) x y where
  pure h := .pureSame h
  throw _ := .throw trivial
  bind hx hf := hx.bindSame fun _ a _ ha => hf a ha
  rounds := fun s _ h => .ok () trivial h ⟨congrArg (fun m : Machine => m.settings.rounds) h.1, trivial⟩
  asks _ hx := by
    refine sim_asking _ fun m a m' hok => ?_
    obtain ⟨E, hends⟩ := hx.keeps (fun _ => True) (fun _ _ _ _ => trivial) (fun _ _ _ _ => trivial) (fun _ _ _ => trivial)
      m.surroundings
    have hended := hends m ⟨rfl, m.carries_any, fun _ _ => trivial, fun _ _ => trivial, trivial⟩
    rw [hok] at hended
    exact hended.2
  readMember object {site title} _ := sim_asking (.readMember object site title) fun _ _ _ _ _ _ => trivial
  assignMember target {site title value} _ _ := sim_asking (.assignMember target site title value) fun _ _ _ _ => trivial

theorem machine_evaluated (s : Observed) (env : Env) (x : EStateM.Result Failure Observed α) :
    onState machine (onState (s.evaluated env) x) = onState machine x ∧
      (finalState (onState (s.evaluated env) x)).executed = (finalState x).executed := by
  cases x <;> exact ⟨rfl, rfl⟩

theorem machine_evaluate (levels : Nat) (node : Node) (env : Env) (s : Observed) :
    onState machine (evaluate levels node env s) = Run.evaluate levels node env s.machine ∧
      (finalState (evaluate levels node env s)).executed = s.executed := by
  rw [← Actions.evaluate_machine]
  induction levels generalizing node env s with
  | zero => exact ⟨rfl, rfl⟩
  | succ levels ih =>
    have hrec : ∀ (_ : Still) node env, Evaluable.any.node .still env node →
        (watching s.executed).Sim () (Same fun _ v => ∀ n ∈ v.code, True) (evaluate levels node env)
          (Actions.machine.evaluate levels node env) := by
      rintro _ node env _ t _ ⟨rfl, ht⟩
      exact outcome_of_onState (ih node env t).1 ((ih node env t).2.trans ht) fun _ _ _ => trivial
    have hnode := onState_of_outcome (@Accord.evaluateNode _ _ _ _ _ _ _ _ (lifts_watching s.executed).accord _ _ hrec
      .still env node ⟨trivial, trivial⟩ s s.machine ⟨rfl, rfl⟩)
    obtain ⟨hmachine, hexecuted⟩ := machine_evaluated s env (Actions.evaluateNode actions (evaluate levels) env node s)
    exact ⟨hmachine.trans hnode.1, hexecuted.trans hnode.2⟩

theorem machine_runUnit (unit : Node) (s : Observed) :
    onState machine (runUnit unit s) = Run.execute unit s.machine ∧
      (finalState (runUnit unit s)).executed = s.executed := by
  have hevaluate := machine_evaluate s.machine.settings.maxDepth unit Machine.globalEnv
  have hlook : look Machine.settings s = .ok s.machine.settings s := rfl
  unfold runUnit Run.execute
  rw [get_bind_apply, bind_of_ok hlook]
  by_cases hplaces : s.machine.settings.placesNames = true
  · rw [if_pos hplaces, if_pos hplaces]
    rw [bind_apply, bind_apply]
    unfold asking
    cases Run.placeNames unit s.machine with
    | ok _ m => exact hevaluate (s.answered (.placeNames unit) m)
    | error e m => exact ⟨rfl, rfl⟩
  · rw [if_neg hplaces, if_neg hplaces]
    exact hevaluate s

/-- On the machine, executing a unit under observation is executing it; and it is written down. -/
theorem machine_execute (unit : Node) (s : Observed) :
    onState machine (execute unit s) = Run.execute unit s.machine ∧
      (finalState (execute unit s)).executed = unit :: s.executed := by
  have hrun : onState machine (runUnit unit (s.executing unit)) = Run.execute unit s.machine ∧
      (finalState (runUnit unit (s.executing unit))).executed = unit :: s.executed :=
    machine_runUnit unit (s.executing unit)
  rw [← hrun.1, ← hrun.2]
  unfold execute
  cases runUnit unit (s.executing unit) <;> exact ⟨rfl, rfl⟩

end Observed

end StoneLang
