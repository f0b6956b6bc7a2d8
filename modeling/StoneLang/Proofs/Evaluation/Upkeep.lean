/-
  What running keeps up.

  PROGRAM: `Run.execute`.  Whatever it does to a machine, it does in a few ways: values are stored, a frame is made, a
  name is bound or a slot is written, an access remembers what it found, names are placed, a class is added.

  SPEC: `Upkeep` bundles a property of machines with one fact for each of these ways.  Executing a unit then keeps the
  property, and fails only as a running program can (`Upkeep.ends_execute`).

  The crux is where code and environments come from.  A machine holds code in its functions, in the members of its
  classes, in the methods that classes inherit, and in the methods that are values (`Machine.Carries`); environments stand
  with functions and classes.  If all of them are of the kind that may turn up, so is what is evaluated.
-/
import StoneLang.Proofs.Classes.Layouts
import StoneLang.Proofs.Evaluation.Accord
import StoneLang.Proofs.Evaluation.Failures
import StoneLang.Proofs.Evaluation.Stored
import StoneLang.Proofs.Settings.Placing

namespace StoneLang

open Coupling

/-- The code in a value: that of a method. -/
def Value.code : Value → List Node
  | .method _ d => d.body
  | _ => []

/-- All code in the machine is as `P` says. -/
structure Machine.Carries (P : Node → Prop) (m : Machine) : Prop where
  functions : ∀ f ∈ m.functions, P f.body
  members : ∀ c ∈ m.classes, ∀ n ∈ c.members, P n
  methods : ∀ c ∈ m.classes, ∀ d ∈ c.layout.definitions, ∀ n ∈ d.body, P n
  held : m.Holds fun value => ∀ n ∈ value.code, P n

theorem Machine.Carries.mono {m : Machine} (h : m.Carries P) (himp : ∀ n, P n → Q n) : m.Carries Q where
  functions f hf := himp _ (h.functions f hf)
  members c hc n hn := himp n (h.members c hc n hn)
  methods c hc d hd n hn := himp n (h.methods c hc d hd n hn)
  held := h.held.mono fun _ hv n hn => himp n (hv n hn)

theorem Machine.carries_any (m : Machine) : m.Carries CodeKind.any.node where
  functions _ _ := trivial
  members _ _ _ _ := trivial
  methods _ _ _ _ _ _ := trivial
  held := (Holds.trivial m).mono fun _ _ _ _ => trivial

/-- The native of the host fails as if a loop had been cut short. -/
def Native.pretends (n : Native) : Bool :=
  match n.action with
  | .host (.fail .unfinished) => true
  | _ => false

/-- A property of machines that goes with every way in which running changes a machine. -/
structure Upkeep where
  /-- The kind of code that may turn up. -/
  kind : CodeKind
  /-- An environment that may turn up. -/
  env : Env → Prop
  /-- What is kept of the machine. -/
  kept : Machine → Prop
  env_nil : env []
  env_push : ∀ {m : Machine} {e : Env}, kept m → env e → env (m.frames.size :: e)
  /-- Values, functions, streams and records change. -/
  stored : ∀ {m m' : Machine}, kept m → m'.frames = m.frames → m'.classes = m.classes → m'.nextClass = m.nextClass →
    m'.notes = m.notes → kept m'
  pushed : ∀ {m : Machine} (frame : Frame), kept m → kept { m with frames := m.frames.push frame }
  bound : ∀ {m : Machine} {e : Env} (name : Text) (value : Value), kept m → env e →
    kept { m with frames := m.frames.bindIn (m.frames.assignee? name e) name value }
  written : ∀ {m : Machine} {e : Env} {nest index : Int} {f : Nat} (value : Value), kept m →
    m.frames.slotOwner e nest index = .ok f → kept { m with frames := m.frames.write f index value }
  remembering : ∀ {m : Machine} {site : Site} {title : Label} {c : Class} {entry : MemberCache}, kept m →
    kind.suffix (.member site title) → c ∈ m.classes → searchMember c title.text = some entry →
    kept (m.remembering site entry)
  placed : ∀ {m : Machine} (settings : ResolveSettings) {unit : Node}, kept m → kind.node unit →
    kept (m.placed (finalState (resolve settings unit m.globalNames m.notes)))
  laidOut : ∀ {m : Machine} (settings : ResolveSettings) (title : Text) {members : List Node} (base : Option Layout),
    kept m → (∀ n ∈ members, kind.node n) →
    kept (m.laidOut (finalState (resolveClass settings title members base m.globalNames m.notes)))
  withClass : ∀ {m : Machine} {settings : ResolveSettings} {title : Text} {members : List Node} {base : Option Nat}
    {globals : List Text} {notes : Notes} {layout : Layout} {s : Resolving} (e : Env), kept m →
    resolveClass settings title members (m.baseLayout base) globals notes = .ok layout s →
    kept (m.withClass title (m.parentsOf base) layout members e)

/-- A property of the classes and of what is remembered of them. -/
def Upkeep.ofClasses (kind : CodeKind) (kept : Machine → Prop)
    (same : ∀ {m m' : Machine}, kept m → m'.classes = m.classes → m'.nextClass = m.nextClass →
      m'.notes.caches = m.notes.caches → kept m')
    (remembering : ∀ {m : Machine} {site : Site} {title : Label} {c : Class} {entry : MemberCache}, kept m →
      kind.suffix (.member site title) → c ∈ m.classes → searchMember c title.text = some entry →
      kept (m.remembering site entry))
    (withClass : ∀ {m : Machine} {settings : ResolveSettings} {title : Text} {members : List Node} {base : Option Nat}
      {globals : List Text} {notes : Notes} {layout : Layout} {s : Resolving} (e : Env), kept m →
      resolveClass settings title members (m.baseLayout base) globals notes = .ok layout s →
      kept (m.withClass title (m.parentsOf base) layout members e)) : Upkeep where
  kind := kind
  env _ := True
  kept := kept
  env_nil := trivial
  env_push _ _ := trivial
  stored h _ hclasses hnext hnotes := same h hclasses hnext (congrArg Notes.caches hnotes)
  pushed _ h := same h rfl rfl rfl
  bound _ _ h _ := same h rfl rfl rfl
  written _ h _ := same h rfl rfl rfl
  remembering := remembering
  placed settings unit h _ := same h rfl rfl (caches_resolve settings unit _ _)
  laidOut settings title members base h _ := same h rfl rfl (caches_resolveClass settings title members base _ _)
  withClass := withClass

namespace Upkeep

variable {U : Upkeep} {around : Surroundings} {m m' : Machine} {α β : Type}

def good (U : Upkeep) (value : Value) : Prop := ∀ n ∈ value.code, U.kind.node n

/-- The property holds, and all code and all environments are such as may turn up. -/
structure Holds (U : Upkeep) (m : Machine) : Prop where
  carries : m.Carries U.kind.node
  functions : ∀ f ∈ m.functions, U.env f.env
  classes : ∀ c ∈ m.classes, U.env c.env
  kept : U.kept m

theorem Holds.stepped (h : U.Holds m) (hfunctions : m'.functions = m.functions) (hclasses : m'.classes = m.classes)
    (hheld : m'.Holds U.good) (hkept : U.kept m') : U.Holds m' where
  carries := ⟨hfunctions ▸ h.carries.functions, hclasses ▸ h.carries.members, hclasses ▸ h.carries.methods, hheld⟩
  functions := hfunctions ▸ h.functions
  classes := hclasses ▸ h.classes
  kept := hkept

/-- The machine runs among the given things, and all holds. -/
def Upheld (U : Upkeep) (around : Surroundings) (m : Machine) : Prop := m.surroundings = around ∧ U.Holds m

/-- What running can fail with.  A loop is cut short only if there are loops, but a native of the host may pretend. -/
def Fails (U : Upkeep) (around : Surroundings) (e : Failure) : Prop :=
  around.Fails e ∧ (e = .unfinished → U.kind.loops ∨ ∃ n ∈ around.natives, n.pretends = true)

/-- The computation keeps all this up; its results satisfy `Q`. -/
abbrev Ends (U : Upkeep) (around : Surroundings) (Q : α → Prop) (x : Run α) : Prop :=
  Coupling.Ends (U.Upheld around) Q (U.Fails around) x

variable {Q : α → Prop} {value : Value} {e : Env} {arguments : List Value}

theorem ends_of_upheld {x : Run α} (h : ∀ around, ∃ E, Coupling.Ends (U.Upheld around) Q E x) :
    Coupling.Ends U.Holds Q (fun _ => True) x := by
  intro m hm
  obtain ⟨E, hends⟩ := h m.surroundings
  exact (hends m ⟨rfl, hm⟩).imp (fun _ hm' => hm'.2) (fun _ => id) fun _ _ => trivial

theorem good_of_isFlat (h : value.isFlat) : U.good value := by
  cases value with
  | method object d => cases h
  | _ => exact nofun

theorem good_object (ref : Nat) : U.good (.object ref) := nofun

theorem good_array (ref : Nat) : U.good (.array ref) := nofun

theorem fails_atLine (line : Int) (h : cause.isOfRun = true) : U.Fails around (.atLine cause line) :=
  ⟨.cause line h, nofun⟩

namespace Upheld

section
variable (hm : U.Upheld around m)

include hm

theorem held : m.Holds U.good := hm.2.carries.held

theorem methodAt? (hd : Run.methodAt? m object index = some d) : ∀ n ∈ d.body, U.kind.node n := by
  obtain ⟨c, hc, hd⟩ := Option.bind_eq_some_iff.mp hd
  exact hm.2.carries.methods c (Machine.mem_of_classOf? hc) d (List.mem_of_getElem? hd)

theorem stepped (haround : m'.surroundings = m.surroundings) (hfunctions : m'.functions = m.functions)
    (hclasses : m'.classes = m.classes) (hheld : m'.Holds U.good) (hkept : U.kept m') : U.Upheld around m' :=
  ⟨haround.trans hm.1, hm.2.stepped hfunctions hclasses hheld hkept⟩

theorem stored (hsame : m'.surroundings = m.surroundings ∧ m'.functions = m.functions ∧
      m'.classes = m.classes ∧ m'.nextClass = m.nextClass ∧ m'.notes = m.notes ∧ m'.frames = m.frames)
    (hheld : m'.Holds U.good) : U.Upheld around m' := by
  obtain ⟨haround, hfunctions, hclasses, hnext, hnotes, hframes⟩ := hsame
  exact hm.stepped haround hfunctions hclasses hheld (U.stored hm.2.kept hframes hclasses hnext hnotes)

theorem framed (hframes : frames.Hold U.good) (hkept : U.kept { m with frames }) : U.Upheld around { m with frames } :=
  hm.stepped rfl rfl rfl (hm.held.withFrames hframes) hkept

theorem push (hframe : frame.Holds U.good) : U.Upheld around { m with frames := m.frames.push frame } :=
  hm.framed (hm.held.frames.push hframe) (U.pushed frame hm.2.kept)

theorem bound (he : U.env e) (hvalue : U.good value)
    (hbound : m.bound e slot name value = .ok m') : U.Upheld around m' := by
  rcases Machine.bound_cases hbound with ⟨-, rfl⟩ | ⟨index, f, -, howner, rfl⟩
  · exact hm.framed (hm.held.frames.bindIn _ _ hvalue) (U.bound name value hm.2.kept he)
  · exact hm.framed (hm.held.frames.write _ _ hvalue) (U.written value hm.2.kept howner)

theorem member (haccess : U.kind.suffix (.member site title)) (hmember : m.member object site title = .ok (entry, m')) :
    U.Upheld around m' := by
  rcases Machine.member_remembers hmember with rfl | ⟨c, hc, hfound, rfl⟩
  · exact hm
  · exact hm.stepped rfl rfl rfl ⟨hm.held.frames, hm.held.arrays, hm.held.objects⟩
      (U.remembering hm.2.kept haccess hc hfound)

theorem newFunction (hbody : U.kind.node f.body) (henv : U.env f.env) :
    U.Upheld around { m with functions := m.functions.push f } where
  left := hm.1
  right :=
    { carries.functions := Array.forall_mem_push.mpr ⟨hbody, hm.2.carries.functions⟩
      carries.members := hm.2.carries.members
      carries.methods := hm.2.carries.methods
      carries.held := ⟨hm.held.frames, hm.held.arrays, hm.held.objects⟩
      functions := Array.forall_mem_push.mpr ⟨henv, hm.2.functions⟩
      classes := hm.2.classes
      kept := U.stored hm.2.kept rfl rfl rfl rfl }

theorem withClass (he : U.env e) (hmembers : ∀ n ∈ members, U.kind.node n)
    (hlaid : resolveClass settings title members (m.baseLayout base) globals notes = .ok layout s) :
    U.Upheld around (m.withClass title (m.parentsOf base) layout members e) := by
  -- the methods of the new class are those of its superclass and those of its body
  have hmethods : ∀ d ∈ layout.definitions, ∀ n ∈ d.body, U.kind.node n := by
    intro d hd
    rcases definitions_layOutClass hlaid d hd with hbase | hown
    · cases hlayout : m.baseLayout base with
      | none =>
        rw [hlayout] at hbase
        exact absurd hbase List.not_mem_nil
      | some inherited =>
        rw [hlayout] at hbase
        obtain ⟨c, hc, rfl⟩ := Option.map_eq_some_iff.mp hlayout
        obtain ⟨ref, -, hc⟩ := Option.bind_eq_some_iff.mp hc
        exact hm.2.carries.methods c (Array.mem_of_getElem? hc) d hbase
    · exact U.kind.definition (hmembers _ hown)
  exact ⟨hm.1, ⟨hm.2.carries.functions, Array.forall_mem_push.mpr ⟨hmembers, hm.2.carries.members⟩,
    Array.forall_mem_push.mpr ⟨hmethods, hm.2.carries.methods⟩, hm.held.frames, hm.held.arrays, hm.held.objects⟩,
    hm.2.functions, Array.forall_mem_push.mpr ⟨he, hm.2.classes⟩, U.withClass e hm.2.kept hlaid⟩

end

end Upheld

/-! ## Actions -/

theorem ends_look {f : Machine → α} (h : ∀ m, U.Upheld around m → Q (f m)) : U.Ends around Q (do return f (← get)) :=
  fun m hm => ⟨hm, h m hm⟩

theorem ends_ofCause (hok : ∀ a, x = .ok a → Q a)
    (herror : ∀ cause, x = .error cause → cause.isOfRun = true) : U.Ends around Q (Run.ofCause line x) := by
  cases x with
  | ok a => exact fun m hm => ⟨hm, hok a rfl⟩
  | error cause => exact fun m hm => ⟨hm, fails_atLine line (herror cause rfl)⟩

theorem ends_readName (site : Site) (word : Word) (e : Env) : U.Ends around U.good (Run.readName site word e) := by
  intro m hm
  rw [Run.readName_eq]
  cases hread : m.read site word e with
  | ok value => exact ⟨hm, hm.held.read (fun _ _ d hd => hm.methodAt? hd) hread⟩
  | error cause => exact ⟨hm, fails_atLine word.line (Machine.isOfRun_read hread)⟩

theorem ends_assignName (site : Site) (word : Word) (hvalue : U.good value) (he : U.env e) :
    U.Ends around (fun _ => True) (Run.assignName site word value e) := by
  intro m hm
  rw [Run.assignName_eq]
  cases hassigned : m.assigned site word value e with
  | error cause => exact ⟨hm, fails_atLine word.line (Machine.isOfRun_assigned hassigned)⟩
  | ok m' =>
    refine ⟨?_, trivial⟩
    rcases Machine.assigned_cases hassigned with ⟨-, rfl⟩ | ⟨nest, index, f, -, howner, rfl⟩ |
      ⟨index, hops, object, old, -, -, -, rfl⟩
    · exact hm.framed (hm.held.frames.bindIn _ _ hvalue) (U.bound word.text value hm.2.kept he)
    · exact hm.framed (hm.held.frames.write _ _ hvalue) (U.written value hm.2.kept howner)
    · exact hm.stored ⟨rfl, rfl, rfl, rfl, rfl, rfl⟩ (hm.held.withField object index hvalue)

theorem ends_bind (he : U.env e) (slot : Option Nat) (name : Text) (hvalue : U.good value) (line : Int) :
    U.Ends around (fun _ => True) (Run.bind e slot name value line) := by
  intro m hm
  rw [Run.bind_eq]
  cases hbound : m.bound e slot name value with
  | ok m' => exact ⟨hm.bound he hvalue hbound, trivial⟩
  | error cause => exact ⟨hm, fails_atLine line (Machine.isOfRun_bound hbound)⟩

theorem ends_newArray {values : List Value} (hvalues : ∀ v ∈ values, U.good v) :
    U.Ends around U.good (Run.newArray values.toArray) := by
  intro m hm
  have hall : ∀ v ∈ values.toArray, U.good v := fun v hv => hvalues v (List.mem_toArray.mp hv)
  exact ⟨hm.stored ⟨rfl, rfl, rfl, rfl, rfl, rfl⟩ (hm.held.newArray hall), good_array m.arrays.size⟩

theorem ends_makeFunction (he : U.env e) (site : Site) (name : Text) (params : List Label)
    (hbody : ∀ n ∈ body, U.kind.node n) : U.Ends around U.good (Run.makeFunction e site name params body) :=
  fun _ hm => ⟨hm.newFunction (U.kind.block.mpr hbody) he, nofun⟩

theorem ends_define (he : U.env e) (site : Site) (title : Label) (params : List Label)
    (hbody : ∀ n ∈ body, U.kind.node n) (line : Int) :
    U.Ends around U.good (Actions.machine.define e site title params body line) := by
  refine (ends_makeFunction he site title.text params hbody).bind fun function hfunction m hm => ?_
  refine Coupling.Ends.bind (ends_bind he _ title.text hfunction line) (fun _ _ m hm => ?_) m hm
  exact ⟨hm, good_of_isFlat rfl⟩

theorem ends_defineClass (he : U.env e) (site : Site) (title : Label) (parent : Option Label)
    (hmembers : ∀ n ∈ members, U.kind.node n) (line : Int) :
    U.Ends around U.good (Run.defineClass e site title parent members line) := by
  intro m hm
  have hlaid : ∀ base, U.Upheld around (m.laidOut (finalState
      (resolveClass ⟨m.settings.maxDepth, m.settings.watched⟩ title.text members base m.globalNames m.notes))) := fun base =>
    hm.stepped rfl rfl rfl ⟨hm.held.frames, hm.held.arrays, hm.held.objects⟩ (U.laidOut _ _ base hm.2.kept hmembers)
  rcases Run.defineClass_cases e site title parent members line m with ⟨cause, hsuper, hdefine⟩ |
    ⟨base, -, ⟨failure, s, hclass, hdefine⟩ | ⟨layout, s, made, hclass, rfl, hmade⟩⟩
  · rw [hdefine]
    exact ⟨hm, fails_atLine line (Machine.isOfRun_superclass hsuper)⟩
  · have hleft := hlaid (m.baseLayout base)
    rw [hclass] at hleft
    obtain ⟨pass, depth, found, rfl⟩ := (Resolve.ends_layOutClass _ _ members _).tooDeep hclass
    rw [hdefine]
    exact ⟨hleft, fails_atLine found rfl⟩
  · have hleft := hlaid (m.baseLayout base)
    rw [hclass] at hleft
    have hmade' := hleft.withClass he hmembers hclass
    rcases hmade with ⟨cause, hbound, hdefine⟩ | ⟨bound, record, hbound, hdefine⟩
    · rw [hdefine]
      exact ⟨hmade', fails_atLine line (Machine.isOfRun_bound hbound)⟩
    · have hbound' := hmade'.bound he (fun _ hn => absurd hn List.not_mem_nil) hbound
      rw [hdefine, Machine.note_eq]
      exact ⟨hbound'.stored ⟨rfl, rfl, rfl, rfl, rfl, rfl⟩ ⟨hbound'.held.frames, hbound'.held.arrays,
        hbound'.held.objects⟩, good_of_isFlat rfl⟩

theorem ends_enter (hframe : ∀ f, frame = .ok f → f.Holds U.good)
    (hroom : ∀ reason, frame = .error reason → ∃ size : Nat, reason = .outside size size) (he : U.env e) :
    U.Ends around U.env (Actions.enter frame e) := by
  intro m hm
  cases frame with
  | ok f => exact ⟨hm.push (hframe f rfl), U.env_push hm.2.kept he⟩
  | error reason =>
    obtain ⟨size, rfl⟩ := hroom reason rfl
    exact ⟨hm, .noRoom size, nofun⟩

theorem slotFrame_error (h : Run.slotFrame size arguments = .error reason) :
    ∃ size : Nat, reason = .outside size size := by
  unfold Run.slotFrame at h
  split at h
  · cases h
  · cases h
    exact ⟨size, rfl⟩

theorem ends_enterFunction (ref : Nat) (hf : U.env f.env ∧ U.kind.node f.body)
    (harguments : ∀ v ∈ arguments, U.good v) :
    U.Ends around (fun e => U.env e ∧ U.kind.node f.body) (Actions.machine.enterFunction ref f arguments) := by
  refine (ends_enter (fun frame h => ?_) (fun reason h => ?_) hf.1).imp fun _ he => ⟨he, hf.2⟩
  · unfold Actions.functionFrame at h
    split at h
    · cases h
      exact holds_namedFrame _ harguments
    · exact (holds_slotFrame h harguments).2
  · unfold Actions.functionFrame at h
    split at h
    · cases h
    · exact slotFrame_error h

theorem Upheld.methodEnv (hm : U.Upheld around m) (object : Nat) : U.env (Actions.methodEnv m object) := by
  unfold Actions.methodEnv
  cases hc : m.classOf? object with
  | none => exact U.env_nil
  | some c => exact hm.2.classes c (Machine.mem_of_classOf? hc)

theorem ends_enterMethod (object : Nat) (hbody : ∀ n ∈ d.body, U.kind.node n) (harguments : ∀ v ∈ arguments, U.good v) :
    U.Ends around (fun e => U.env e ∧ U.kind.node (.block d.body)) (Actions.machine.enterMethod object d arguments) := by
  intro m hm
  have hall : ∀ v ∈ Value.object object :: arguments, U.good v :=
    List.forall_mem_cons.mpr ⟨good_object object, harguments⟩
  exact (ends_enter (fun _ h => (holds_slotFrame h hall).2) (fun _ h => slotFrame_error h) (hm.methodEnv object)).imp
    (fun _ he => ⟨he, U.kind.block.mpr hbody⟩) m hm

theorem ends_function? (ref : Nat) : U.Ends around (fun found => ∀ f, found = some f → U.env f.env ∧ U.kind.node f.body)
    (Actions.machine.function? ref) :=
  ends_look fun _ hm f hf =>
    have hmem := Array.mem_of_getElem? hf
    ⟨hm.2.functions f hmem, hm.2.carries.functions f hmem⟩

theorem ends_newObject (ref : Nat) (c : Class) :
    U.Ends around (fun made => U.good (.object made.1) ∧ ∀ r ∈ made.2, True) (Actions.machine.newObject ref c) := by
  intro m hm
  have hnull : ∀ v ∈ Array.replicate c.layout.fieldCount Value.null, U.good v := by
    intro v hv
    rw [(Array.mem_replicate.mp hv).2]
    exact good_of_isFlat rfl
  exact ⟨hm.stored ⟨rfl, rfl, rfl, rfl, rfl, rfl⟩ (hm.held.newObject hnull), good_object m.objects.size,
    fun _ _ => trivial⟩

theorem ends_enterInitializers (object ref : Nat) :
    U.Ends around (fun found => ∀ e members, found = some (e, members) → ∀ n ∈ members, Definition.ofNode? n = none →
      U.env e ∧ U.kind.node n) (Actions.machine.enterInitializers object ref) := by
  intro m hm
  rw [Actions.enterInitializers_machine]
  cases hc : m.classes[ref]? with
  | none => exact ⟨hm, nofun⟩
  | some c =>
    have hmem := Array.mem_of_getElem? hc
    refine ⟨hm.push (holds_receiver (good_object object)), ?_⟩
    rintro _ _ ⟨⟩ n hn -
    exact ⟨U.env_push hm.2.kept (hm.2.classes c hmem), hm.2.carries.members c hmem n hn⟩

theorem ends_readMember (object : Nat) (haccess : U.kind.suffix (.member site title)) :
    U.Ends around U.good (Run.readMember object site title) := by
  intro m hm
  rw [Run.readMember_eq]
  cases hmember : m.member object site title with
  | error cause => exact ⟨hm, fails_atLine _ (Cause.isOfRun_of_isOfStore (Machine.isOfStore_member hmember))⟩
  | ok found =>
    have hm' := hm.member haccess hmember
    exact ⟨hm', hm'.held.memberValue (good_of_isFlat rfl) found.1 fun d hd => hm'.methodAt? hd⟩

theorem ends_assignMember (target : Value) (haccess : U.kind.suffix (.member site title)) (hvalue : U.good value) :
    U.Ends around (fun _ => True) (Run.assignMember target site title value) := by
  intro m hm
  cases target with
  | object ref =>
    rw [Run.assignMember_eq]
    cases hmember : m.member ref site title with
    | error cause => exact ⟨hm, fails_atLine _ (Cause.isOfRun_of_isOfStore (Machine.isOfStore_member hmember))⟩
    | ok found =>
      have hm' := hm.member haccess hmember
      dsimp only
      split
      · exact ⟨hm'.stored ⟨rfl, rfl, rfl, rfl, rfl, rfl⟩ (hm'.held.withField ref found.1.index hvalue), trivial⟩
      · exact ⟨hm', fails_atLine _ rfl⟩
  | _ => exact ⟨hm, fails_atLine _ rfl⟩

theorem ends_element (target index : Value) (line : Int) :
    U.Ends around (fun _ => True) (Run.element target index line) := by
  intro m hm
  rcases Run.element_cases target index line m with ⟨ref, i, -, -, -, -, h⟩ | ⟨cause, hcause, h⟩
  · rw [h]
    exact ⟨hm, trivial⟩
  · rw [h]
    exact ⟨hm, fails_atLine line (Cause.isOfRun_of_isOfStore hcause)⟩

theorem ends_setElement (ref index : Nat) (hvalue : U.good value) :
    U.Ends around (fun _ => True) (Run.setElement ref index value) :=
  fun _ hm => ⟨hm.stored ⟨rfl, rfl, rfl, rfl, rfl, rfl⟩ (hm.held.setElement ref index hvalue), trivial⟩

theorem ends_operate (operator : Text) (a b : Value) (line : Int) :
    U.Ends around U.good (Actions.machine.operate operator a b line) :=
  fun m hm => ends_ofCause (fun _ h => good_of_isFlat (isFlat_binaryOperation h))
    (fun _ h => Cause.isOfRun_of_isOfStore (isOfStore_binaryOperation h)) m hm

theorem ends_callNative (native : Native) (e : Env) (line : Int) (harguments : ∀ v ∈ arguments, U.good v)
    (hfails : ∀ failure, U.Fails around failure → E failure)
    (hhost : ∀ failure, native.action = .host (.fail failure) → E (failure.withLine line)) :
    Coupling.Ends (U.Upheld around) U.good E (Run.callNative native e line arguments) := by
  intro m hm
  have hends := Run.ends_callNative native e line arguments m
  generalize Run.callNative native e line arguments m = x at hends ⊢
  cases hends with
  | @flat value s hflat hinput houtput =>
    have hlimit : s.output.limit = m.output.limit := by
      rcases houtput with houtput | ⟨t, houtput⟩ <;> exact congrArg (·.limit) houtput
    have haround : (m.withStreamsOf s).surroundings = m.surroundings := by
      show (⟨_, _, s.output.limit, s.input.broken, _⟩ : Surroundings) = m.surroundings
      rw [hlimit, hinput]
      rfl
    exact ⟨hm.stored ⟨haround, rfl, rfl, rfl, rfl, rfl⟩ ⟨hm.held.frames, hm.held.arrays, hm.held.objects⟩,
      good_of_isFlat hflat⟩
  | @found name =>
    refine ⟨hm, ?_⟩
    cases hget : m.frames.get? name e with
    | none => exact good_of_isFlat rfl
    | some value => exact hm.held.frames.get? hget
  | collected => exact ends_newArray harguments m hm
  | fault hcause => exact ⟨hm, hfails _ (fails_atLine line (Cause.isOfRun_of_isOfStore hcause))⟩
  | closed writer hlimit => exact ⟨hm, hfails _ ⟨.closed writer (hm.1 ▸ hlimit), nofun⟩⟩
  | broken source hbroken =>
    exact ⟨hm.stored ⟨rfl, rfl, rfl, rfl, rfl, rfl⟩ ⟨hm.held.frames, hm.held.arrays, hm.held.objects⟩,
      hfails _ ⟨.broken (hm.1 ▸ hbroken), nofun⟩⟩
  | host haction => exact ⟨hm, hhost _ haction⟩

theorem fails_host (hnative : native ∈ around.natives) {failure : Failure}
    (haction : native.action = .host (.fail failure)) (line : Int) : U.Fails around (failure.withLine line) := by
  refine ⟨.host line hnative haction, fun hunfinished => .inr ⟨native, hnative, ?_⟩⟩
  cases failure with
  | unfinished => simp [Native.pretends, haction]
  | _ => cases hunfinished

/-! ## Evaluation -/

def accord (U : Upkeep) (around : Surroundings) :
    Accord (U.kind.fixed U.env) (fun _ Q x _ => U.Ends around (Q .still) x) Actions.machine Actions.machine where
  value _ := U.good
  native n := n ∈ around.natives
  callable _ _ f _ := U.env f.env ∧ U.kind.node f.body
  constructible _ _ _ _ := True
  initializes _ _ _ := True
  place _ _ := True
  pure h := fun _ hm => ⟨hm, h⟩
  throw d h := fun _ hm => ⟨hm, fails_atLine d.line (Cause.isOfRun_of_isOwn h)⟩
  unfinished h := fun _ hm => ⟨hm, .unfinished, fun _ => .inl h⟩
  bind hx hf := hx.bind fun a ha => hf .still a le_rfl ha
  value_null _ := good_of_isFlat rfl
  value_integer _ _ := good_of_isFlat rfl
  value_string _ _ := good_of_isFlat rfl
  rounds _ _ := ends_look fun _ _ => trivial
  readName _ e site word _ := ends_readName site word e
  assignName _ _ site word _ ht h := ends_assignName site word h ht.1
  operate _ operator a b line _ _ := ends_operate operator a b line
  newArray _ _ h := ends_newArray h
  makeClosure _ _ site params _ h := ends_makeFunction h.1 site [] params (U.kind.closure h.2)
  define _ _ site title params _ line h := ends_define h.1 site title params (U.kind.definition h.2) line
  defineClass _ _ site title parent _ line h := ends_defineClass h.1 site title parent (U.kind.classDefinition h.2) line
  native? _ ref _ := ends_look fun m hm n hn => by
    have hnatives : m.natives = around.natives := congrArg Surroundings.natives hm.1
    exact hnatives ▸ Array.mem_of_getElem? hn
  callNative _ e n line _ _ hn h _ :=
    ends_callNative n e line h (fun _ => id) fun _ haction => fails_host hn haction line
  function? _ ref _ _ _ _ _ hfg := (ends_function? ref).bind fun found hfound =>
    hfg .still found found le_rfl (rel_self fun f hf => ⟨⟨rfl, rfl, rfl⟩, hfound f hf⟩)
  enterFunction _ ref _ _ _ hf h _ := ends_enterFunction ref hf h
  className _ _ _ _ := ends_look fun _ _ => trivial
  enterMethod _ object _ _ hbody h _ := ends_enterMethod object hbody h
  class? _ ref _ _ _ _ _ hfg := Coupling.Ends.bind (P := fun _ => True) (ends_look (f := fun m => m.classes[ref]?) fun _ _ => trivial)
    fun found _ => hfg .still found found le_rfl (rel_self fun _ _ => ⟨rfl, trivial⟩)
  newObject _ ref c _ _ := ends_newObject ref c
  enterInitializers _ object ref _ := ends_enterInitializers object ref
  readMember _ _ object _ _ _ h := ends_readMember object h.2
  assignMember _ _ target _ _ _ _ h hv := ends_assignMember target h.2 hv
  element _ target i line _ _ := ends_element target i line
  readElement _ ref i _ := ends_look fun _ hm => hm.held.element (good_of_isFlat rfl) ref i
  setElement _ ref i _ _ h := ends_setElement ref i h

theorem ends_evaluate (levels : Nat) (hnode : U.kind.node node) (he : U.env e) :
    U.Ends around U.good (Run.evaluate levels node e) := by
  induction levels generalizing node e with
  | zero => exact fun _ hm => ⟨hm, fails_atLine _ rfl⟩
  | succ levels ih =>
    unfold Run.evaluate
    rw [← Actions.evaluateNode_machine]
    exact @Accord.evaluateNode _ _ _ _ _ _ _ _ (U.accord around) _ (Run.evaluate levels) (fun _ _ _ h => ih h.2 h.1) .still _ _
      ⟨he, hnode⟩

theorem ends_placeNames (hunit : U.kind.node unit) : U.Ends around (fun _ => True) (Run.placeNames unit) := by
  intro m hm
  have hplaced : U.Upheld around (m.placed (finalState
      (resolve ⟨m.settings.maxDepth, m.settings.watched⟩ unit m.globalNames m.notes))) := by
    have hheld := hm.held.withGlobalNames
      (finalState (resolve ⟨m.settings.maxDepth, m.settings.watched⟩ unit m.globalNames m.notes)).scope.outermostNames
    exact hm.stepped rfl rfl rfl ⟨hheld.frames, hheld.arrays, hheld.objects⟩ (U.placed _ hm.2.kept hunit)
  rw [Run.placeNames_eq]
  cases hres : resolve ⟨m.settings.maxDepth, m.settings.watched⟩ unit m.globalNames m.notes with
  | ok _ s =>
    rw [hres] at hplaced
    exact ⟨hplaced, trivial⟩
  | error failure s =>
    rw [hres] at hplaced
    obtain ⟨pass, limit, line, rfl⟩ := (Resolve.ends_visitWithin _ _ unit).tooDeep hres
    exact ⟨hplaced, fails_atLine line rfl⟩

theorem ends_execute (hunit : U.kind.node unit) (hglobal : U.env Machine.globalEnv) :
    U.Ends around U.good (Run.execute unit) := by
  intro m hm
  have hrun : U.Ends around U.good (Run.evaluate m.settings.maxDepth unit Machine.globalEnv) :=
    ends_evaluate m.settings.maxDepth hunit hglobal
  unfold Run.execute
  rw [get_bind_apply]
  by_cases hplaces : m.settings.placesNames = true
  · rw [if_pos hplaces]
    exact ((ends_placeNames hunit).bind fun _ _ => hrun) m hm
  · rw [if_neg hplaces]
    exact hrun m hm

def nothing : Upkeep :=
  .ofClasses .any (fun _ => True) (fun _ _ _ _ => trivial) (fun _ _ _ _ => trivial) fun _ _ _ => trivial

end Upkeep

/-! ## What is around -/

theorem Surroundings.ends_execute (around : Surroundings) (unit : Node) : around.Ends (Run.execute unit) := by
  intro m hm
  have hunit : Upkeep.nothing.Ends around Upkeep.nothing.good (Run.execute unit) := Upkeep.ends_execute trivial trivial
  exact (hunit m ⟨hm, m.carries_any, fun _ _ => trivial, fun _ _ => trivial, trivial⟩).imp (fun _ hm' => hm'.1)
    (fun _ _ => trivial) fun _ he => he.1

theorem Run.surroundings_execute (unit : Node) (m : Machine) :
    (finalState (Run.execute unit m)).surroundings = m.surroundings :=
  (Surroundings.ends_execute m.surroundings unit m rfl).state

theorem Run.nextSite_execute (unit : Node) (m : Machine) :
    (finalState (Run.execute unit m)).nextSite = m.nextSite :=
  congrArg Surroundings.nextSite (surroundings_execute unit m)

theorem Run.natives_execute (unit : Node) (m : Machine) :
    (finalState (Run.execute unit m)).natives = m.natives :=
  congrArg Surroundings.natives (surroundings_execute unit m)

end StoneLang
