/-
  Execution stays in range.

  PROGRAM: any trees that the host has executed, and any lines and sources, in either mode.

  SPEC: at every request that the evaluator makes of the machine, all that is looked up is there (`Request.InRange`), and all
  values that the machine holds are valid; so is the value that a unit ends with (`Session.execution_stays_in_range`).

  The crux is that an observed machine stays `Observed.Safe`: a coupling of the observed machine with itself, whose world is
  the machine, carries what is valid from one request to the next.
-/
import StoneLang.Proofs.Addresses.Sessions
import StoneLang.Proofs.Heap.Actions

namespace StoneLang

open Coupling

namespace Observed

/-- The machine is intact, and all requests have been in range. -/
structure Safe (s : Observed) : Prop where
  machine : s.machine.Intact
  moments : ∀ moment ∈ s.moments, moment.request.InRange moment.machine ∧ moment.machine.Holds moment.machine.Valid

def ranging : Coupling Observed Observed where
  World := Machine
  le := Machine.Grows
  refl := .refl
  trans := .trans
  related w s t := s = t ∧ s.machine = w ∧ s.Safe
  admits _ := True

variable {α : Type}

theorem ranging_asking (request : Request) (x : Run α)
    (hrange : w.Intact → request.InRange w) (hx : w.Intact → w.Lands post (x w)) :
    ranging.Sim w (Same post) (asking request x) (asking request x) := by
  rintro s _ ⟨rfl, rfl, hs⟩
  have hlands := hx hs.machine
  have hsafe : ∀ m : Machine, m.Intact → (s.answered request m).Safe := by
    exact fun m hm => ⟨hm, List.forall_mem_cons.mpr ⟨⟨hrange hs.machine, hs.machine.held⟩, hs.moments⟩⟩
  unfold asking
  generalize x s.machine = res at hlands ⊢
  cases res with
  | ok a m => exact .ok m hlands.1 ⟨rfl, rfl, hsafe m hlands.2.1⟩ ⟨rfl, hlands.2.2⟩
  | error e m => exact .error m hlands.1 ⟨rfl, rfl, hsafe m hlands.2⟩ trivial

theorem ranging_looking (request : Request) (f : Machine → α) (hrange : w.Intact → request.InRange w)
    (hpost : w.Intact → post w (f w)) :
    ranging.Sim w (Same post) (asking request fun m => .ok (f m) m) (asking request fun m => .ok (f m) m) :=
  ranging_asking request _ hrange fun h => h.stays (hpost h)

def roaming : Evaluable ranging.World :=
  CodeKind.any.evaluable (fun w env => Machine.HasEnv w env) fun h henv => henv.later h

theorem ranging_maxDepth (w : Machine) : ranging.Sim w (Same fun _ _ => True) actions.maxDepth actions.maxDepth := by
  rintro s _ ⟨rfl, rfl, hs⟩
  exact .ok _ (.refl _) ⟨rfl, rfl, hs⟩ ⟨rfl, trivial⟩

def rangingAccord : Accord roaming (fun w Q x y => ranging.Sim w (Same Q) x y) actions actions where
  value := Machine.Valid
  callable w ref f g := f = g ∧ w.functions[ref]? = some f
  constructible w ref c d := c = d ∧ w.classes[ref]? = some c
  initializes w object ref := object < w.objects.size ∧ ref < w.classes.size
  native := Native.Fits
  place := Machine.HasElement
  pure h := .pureSame h
  throw _ _ := .throw trivial
  unfinished _ := .throw trivial
  bind hx hf := hx.bindSame hf
  value_mono h hv := hv.later h
  callable_mono h hf := ⟨hf.1, h.function hf.2⟩
  initializes_mono h hinit := ⟨Nat.lt_of_lt_of_le hinit.1 h.objects, Nat.lt_of_lt_of_le hinit.2 h.classes⟩
  rounds w _ := by
    rintro s _ ⟨rfl, rfl, hs⟩
    exact .ok _ (.refl _) ⟨rfl, rfl, hs⟩ ⟨rfl, trivial⟩
  readName w env site word hnode :=
    ranging_asking (.readName site word env) _ (fun _ => hnode.1) fun h => Machine.lands_readName h site word env
  assignName w env site word v hnode hv := ranging_asking (.assignName site word v env) _ (fun _ => ⟨hnode.1, hv⟩)
    fun h => Machine.lands_assignName h site word hv env
  operate w operator a b line ha hb := ranging_asking (.operate operator a b) (Actions.machine.operate operator a b line)
    (fun _ => ⟨ha, hb⟩) fun h => Machine.lands_operate h operator a b line
  newArray w values hvalues := ranging_asking (.newArray values) (Actions.machine.newArray values) (fun _ => hvalues)
    fun h => Machine.lands_newArray h hvalues
  makeClosure w env site params body hnode := ranging_asking (.makeClosure env site params body)
    (Actions.machine.makeClosure env site params body) (fun _ => hnode.1)
    fun h => Machine.lands_makeFunction h hnode.1 site [] params body
  define w env site title params body line hnode := ranging_asking (.define env site title params body)
    (Actions.machine.define env site title params body line) (fun _ => hnode.1)
    fun h => Machine.lands_define h hnode.1 site title params body line
  defineClass w env site title parent members line hnode :=
    ranging_asking (.defineClass env site title parent members) _ (fun _ => hnode.1)
      fun h => Machine.lands_defineClass h hnode.1 site title parent members line
  native? w ref href := ranging_looking (.native ref) (·.natives[ref]?) (fun _ => href)
    fun h n hn => h.natives n (Array.mem_of_getElem? hn)
  callNative w env n line values henv hn hvalues harity := by
    have hreads : n.action.reads ≤ values.length := by
      rcases hn with hnone | hsome <;> omega
    exact ranging_asking (.callNative n env values) _ (fun _ => ⟨henv, hvalues, hreads⟩)
      fun h => Machine.lands_callNative h n env line hvalues
  function? w ref _ _ _ _ href hfg := by
    have hlook : ranging.Sim w (Same fun w' found => found = w'.functions[ref]?) (actions.function? ref)
        (actions.function? ref) :=
      ranging_looking (.function ref) (·.functions[ref]?) (fun _ => href) fun _ => rfl
    exact hlook.bindSame fun w' found hle hfound =>
      hfg w' found found hle (rel_self fun f hf => ⟨⟨rfl, rfl, rfl⟩, rfl, hfound.symm.trans hf⟩)
  enterFunction w ref f g values hcall hvalues hlength := by
    obtain ⟨rfl, hf⟩ := hcall
    have henv : w.Intact → w.HasEnv f.env := fun h => h.functions f (Array.mem_of_getElem? hf)
    exact (ranging_asking (.enterFunction ref f values) (Actions.machine.enterFunction ref f values)
      (fun h => ⟨hf, henv h, hvalues, hlength⟩) fun h => Machine.lands_enterFunction h ref (henv h) hvalues).imp
      fun _ _ _ hentered => ⟨hentered, trivial⟩
  className w object d hmethod := ranging_looking (.className object) (·.className object)
    (fun h => h.isSome_classOf hmethod.1) fun _ => trivial
  enterMethod w object d values hmethod hvalues hlength :=
    (ranging_asking (.enterMethod object d values) (Actions.machine.enterMethod object d values)
      (fun h => ⟨h.isSome_classOf hmethod.1, hmethod.2, hvalues, hlength⟩)
      fun h => Machine.lands_enterMethod h hmethod hvalues).imp fun _ _ _ hentered => ⟨hentered, trivial⟩
  class? w ref _ _ _ _ href hfg := by
    have hlook : ranging.Sim w (Same fun w' found => found = w'.classes[ref]?) (actions.class? ref) (actions.class? ref) :=
      ranging_looking (.classEntry ref) (·.classes[ref]?) (fun _ => href) fun _ => rfl
    exact hlook.bindSame fun w' found hle hfound =>
      hfg w' found found hle (rel_self fun c hc => ⟨rfl, rfl, hfound.symm.trans hc⟩)
  newObject w ref c d hclass := by
    obtain ⟨rfl, hc⟩ := hclass
    exact (ranging_asking (.newObject ref c) (Actions.machine.newObject ref c) (fun _ => hc)
      fun h => Machine.lands_newObject h hc).imp
      fun _ _ _ hmade => ⟨hmade.1, fun r hr => ⟨hmade.1, hmade.2 r hr⟩⟩
  enterInitializers w object ref hinit :=
    (ranging_asking (.enterInitializers object ref) (Actions.machine.enterInitializers object ref)
      (fun h => ⟨h.isSome_classOf hinit.1, hinit.2⟩) fun h => Machine.lands_enterInitializers h hinit.1 ref).imp
      fun _ _ _ hentered env members hfound _ _ _ => ⟨hentered env members hfound, trivial⟩
  readMember w _ object site title hobject _ := ranging_asking (.readMember object site title) _
    (fun h => Machine.findsMember h hobject site title) fun h => Machine.lands_readMember h hobject site title
  assignMember w _ target site title v htarget _ hv := by
    refine ranging_asking (.assignMember target site title v) _ (fun h => ⟨htarget, hv, ?_⟩)
      fun h => Machine.lands_assignMember h htarget site title hv
    rintro object rfl
    exact Machine.findsMember h htarget site title
  element w target i line htarget hi :=
    ranging_asking (.element target i) _ (fun _ => ⟨htarget, hi⟩) fun h => Machine.lands_element h target i line
  readElement w ref i hplace := ranging_looking (.readElement ref i)
    (fun m => (((m.arrays[ref]?).getD #[])[i]?).getD .null) (fun _ => hplace) fun h => h.held.element trivial ref i
  setElement w ref i v hplace hv := ranging_asking (.setElement ref i v) (Actions.machine.setElement ref i v)
    (fun _ => ⟨hplace, hv⟩) fun h => Machine.lands_setElement h ref i hv

/-! ## Units -/

theorem ranging_evaluated
    (h : ranging.Sim w post x x) (env : Env) :
    ranging.Sim w post (fun s => onState (s.evaluated env) (x s)) fun s => onState (s.evaluated env) (x s) := by
  rintro s _ ⟨rfl, hs⟩
  have hx := h s s ⟨rfl, hs⟩
  dsimp only
  generalize x s = r at hx
  cases hx with
  | ok w' later related holds => exact .ok w' later ⟨rfl, related.2.1, related.2.2.machine, related.2.2.moments⟩ holds
  | error w' later related _ =>
    exact .error w' later ⟨rfl, related.2.1, related.2.2.machine, related.2.2.moments⟩ trivial

theorem ranging_evaluate (levels : Nat) (node : Node) (henv : w.HasEnv env) :
    ranging.Sim w (Same Machine.Valid) (evaluate levels node env) (evaluate levels node env) := by
  induction levels generalizing w node env with
  | zero => exact ranging_evaluated (rangingAccord.evaluate ranging_maxDepth 0 ⟨henv, trivial⟩) env
  | succ levels ih =>
    have hrec : ∀ (w : Machine) (node : Node) (env : Env), roaming.node w env node →
        ranging.Sim w (Same Machine.Valid) (evaluate levels node env) (evaluate levels node env) :=
      fun _ node _ hnode => ih node hnode.1
    exact ranging_evaluated (rangingAccord.evaluateNode hrec ⟨henv, trivial⟩) env

theorem safe_execute (hs : s.Safe) (unit : Node) :
    (finalState (execute unit s)).Safe ∧
      ∀ value s', execute unit s = .ok value s' → s'.machine.Valid value := by
  have hrun : ranging.Sim s.machine (Same Machine.Valid) (runUnit unit) (runUnit unit) := by
    have hlook : ranging.Sim s.machine (Same fun _ _ => True) (look Machine.settings) (look Machine.settings) := by
      rintro t _ ⟨rfl, ht⟩
      exact .ok _ (.refl _) ⟨rfl, ht⟩ ⟨rfl, trivial⟩
    refine hlook.bindSame fun w settings hle _ => ?_
    have hevaluate : ∀ w' : Machine, s.machine.Grows w' → ranging.Sim w' (Same Machine.Valid)
        (evaluate settings.maxDepth unit Machine.globalEnv) (evaluate settings.maxDepth unit Machine.globalEnv) :=
      fun w' hgrows => ranging_evaluate settings.maxDepth unit (hs.machine.globals.later hgrows)
    split
    · have hplace : ranging.Sim w (Same fun _ _ => True) (asking (.placeNames unit) (Run.placeNames unit))
          (asking (.placeNames unit) (Run.placeNames unit)) :=
        ranging_asking (.placeNames unit) _ (fun _ => trivial) fun h => Machine.lands_placeNames h unit
      exact hplace.bindSame fun w' _ hle' _ => hevaluate w' (hle.trans hle')
    · exact hevaluate w hle
  have hended := hrun (s.executing unit) _ ⟨rfl, rfl, hs.machine, hs.moments⟩
  unfold execute
  generalize runUnit unit (s.executing unit) = r at hended
  cases hended with
  | ok w' later related holds =>
    refine ⟨related.2.2, fun value s' hvalue => ?_⟩
    cases hvalue
    rw [related.2.1]
    exact holds.2
  | error w' later related _ =>
    exact ⟨⟨related.2.2.machine, related.2.2.moments⟩, fun _ _ hvalue => by cases hvalue⟩

theorem safe_discipline : Discipline carrier execute (fun _ s => s.Safe) fun _ _ => True where
  read nextSite records hs := ⟨hs.machine.read nextSite records, hs.moments⟩
  widen _ hs := hs
  execute {k l s unit} hs _ _ _ := by
    refine ⟨(machine_execute unit s).1, ?_⟩
    have hsafe := (safe_execute hs unit).1
    generalize execute unit s = res at hsafe ⊢
    cases res with
    | ok value s' => exact hsafe
    | error e s' => exact ⟨hsafe, trivial⟩

end Observed

/-! ## Sessions -/

namespace Session

variable (config : Config) (watched : Bool) (input : Input) (limit : Option Nat) (nextClass : Nat)

theorem intact_start : (start config watched input limit nextClass).machine.Intact := by
  refine start_induction (P := Machine.Intact) ?_ (fun hnative hm => hm.registerNative ?_) fun record hm => hm.note record
  · constructor
    case held => exact .start ..
    case memory => exact .start ..
    case globals =>
      exact List.forall_mem_cons.mpr ⟨Nat.one_lt_two, List.forall_mem_singleton.mpr Nat.zero_lt_two⟩
    all_goals simp [Machine.start]
  · -- each standard native takes what it looks at
    simp only [Native.standard, List.mem_cons, List.not_mem_nil, or_false] at hnative
    rcases hnative with rfl | rfl | rfl | rfl | rfl | rfl <;> simp [Native.Fits, NativeAction.reads]

/-- Whatever lines, sources, natives and trees a session has been given, in either mode, and whatever tree is executed then:
at each request that is made of the machine, all that is looked up is there and all values that the machine holds are valid;
and if the unit ends with a value, the value is valid.  The tree can be any that is built from checked children: these are
its children. -/
theorem execution_stays_in_range (entries : List Entry) (hnatives : ∀ entry ∈ entries, entry.Meets Native.Fits fun _ => True)
    (unit : Node) (s : Observed) (hs : s = observed config watched input limit nextClass entries) :
    (∀ (site : Site) (shape : Shape) children node, shape.build site children = .ok node →
      node.children = children ∨ shape = .primary ∧ children = [node]) ∧
    (start config watched input limit nextClass).after entries = ⟨config.layers, s.machine⟩ ∧
    onState Observed.machine (Observed.execute unit s) = Run.execute unit s.machine ∧
    (∀ moment ∈ (finalState (Observed.execute unit s)).moments,
      moment.request.InRange moment.machine ∧ moment.machine.Holds moment.machine.Valid) ∧
    (finalState (Run.execute unit s.machine)).Holds (finalState (Run.execute unit s.machine)).Valid ∧
    ∀ value m, Run.execute unit s.machine = .ok value m → m.Valid value := by
  subst hs
  obtain ⟨hafter, hsafe⟩ := Observed.safe_discipline.after (fun hn hs => ⟨hs.machine.registerNative hn, hs.moments⟩)
    (fun {k s node} _ hs => ⟨(Observed.machine_execute node s).1, (Observed.safe_execute hs node).1⟩) hnatives config.layers
    (s := .ofMachine (start config watched input limit nextClass).machine)
    ⟨intact_start config watched input limit nextClass, List.forall_mem_nil _⟩
  let s := observed config watched input limit nextClass entries
  have hsafe : s.Safe := hsafe
  have hmachine : onState Observed.machine (Observed.execute unit s) = Run.execute unit s.machine :=
    (Observed.machine_execute unit s).1
  obtain ⟨hended, hvalue⟩ := Observed.safe_execute hsafe unit
  refine ⟨fun _ _ _ _ h => Shape.children_build h, hafter, hmachine, hended.moments, ?_, fun value m hm => ?_⟩
  · rw [← hmachine, finalState_onState]
    exact hended.machine.held
  · rw [← hmachine] at hm
    cases hres : Observed.execute unit s with
    | error e s' =>
      rw [hres] at hm
      cases hm
    | ok value' s' =>
      rw [hres] at hm
      cases hm
      exact hvalue value s' hres

/-- A class whose method gives an array, an object of it, a native of the host, and a tree that is no unit of the grammar. -/
def rangingEntries : List Entry :=
  [.line (text "class A \x7b x = 1; def m(a) \x7b x = x + a; [x, a] \x7d \x7d; o = A.new\n"),
    .native ⟨text "list", -1, .host .collect⟩, .tree (.suffix (.arguments [.empty]))]

/-- The tree of `list(o.m(2)[1], o.x)`, built by hand; both accesses to `o` are one and the same node. -/
def rangingUnit : Node :=
  let word (t : String) : Word := ⟨text t, 0⟩
  let object : Node := .name 90 (word "o")
  .primary (.name 91 (word "list")) [] (.arguments
    [.primary object [.member 92 (.plain (word "m")), .arguments [.number (word "2") 2]] (.element (.number (word "1") 1)),
      .primary object [] (.member 93 (.plain (word "x")))])

/-- It makes an array in the method and one in the native, and all its requests are in range. -/
theorem ranging_unit_stays_in_range :
    let s := observed .default false (.ofText []) none 0 rangingEntries
    (finalState (Run.execute rangingUnit s.machine)).arrays.size = 2 ∧
      s.moments.length + 10 < (finalState (Observed.execute rangingUnit s)).moments.length ∧
      ∀ moment ∈ (finalState (Observed.execute rangingUnit s)).moments, moment.request.InRange moment.machine := by
  intro s
  have hentries : ∀ entry ∈ rangingEntries, entry.Meets Native.Fits fun _ => True := by
    simp [rangingEntries, Entry.Meets, Native.Fits, NativeAction.reads]
  obtain ⟨-, -, -, hmoments, -⟩ :=
    execution_stays_in_range .default false (.ofText []) none 0 rangingEntries hentries rangingUnit s rfl
  exact ⟨by decide +kernel, by decide +kernel, fun moment hmoment => (hmoments moment hmoment).1⟩

end Session

end StoneLang
