/-
  Evaluation over the actions that it takes on its state.

  `Actions σ` lists what the evaluator asks of a state of type `σ`: to read a name, to enter a function,
  to make an object, and so on.  `Actions.evaluate` is the evaluator with these actions left open; it
  decides the order in which things happen and nothing else.  With the machine's own actions it is the
  evaluator of the language (`Actions.evaluate_machine`), and with other actions it is that evaluator
  over another state, for instance one that also remembers what every scope was made for.

  So a statement that compares two evaluators is shown action by action, and the walk over the tree is
  made only once.
-/
import StoneLang.Eval.Evaluate
import StoneLang.Proofs.Result

namespace StoneLang

/-- A cause that the evaluator finds by itself, without asking its state. -/
def Cause.isOwn : Cause → Bool
  | .tooDeep .. | .argumentCount .. | .notCallable _ | .noMemberAccess .. | .noClassMember .. | .cannotIndex _
  | .notAssignable _ | .cannotNegate _ | .notEvaluable _ => true
  | _ => false

/-- What the evaluator asks of a state. -/
structure Actions (σ : Type) where
  /-- The bound on nesting, for the failure that names it. -/
  maxDepth : EStateM Failure σ Nat
  /-- The bound on the rounds of one loop. -/
  rounds : EStateM Failure σ Nat
  readName : Site → Word → Env → EStateM Failure σ Value
  assignName : Site → Word → Value → Env → EStateM Failure σ Unit
  /-- Applies a binary operator, at a line. -/
  operate : Text → Value → Value → Int → EStateM Failure σ Value
  newArray : List Value → EStateM Failure σ Value
  makeClosure : Env → Site → List Label → List Node → EStateM Failure σ Value
  define : Env → Site → Label → List Label → List Node → Int → EStateM Failure σ Value
  defineClass : Env → Site → Label → Option Label → List Node → Int → EStateM Failure σ Value
  native? : Nat → EStateM Failure σ (Option Native)
  callNative : Native → Env → Int → List Value → EStateM Failure σ Value
  function? : Nat → EStateM Failure σ (Option Function)
  /-- Makes the frame of a call of a function entry, and gives the environment of its body. -/
  enterFunction : Nat → Function → List Value → EStateM Failure σ Env
  className : Nat → EStateM Failure σ Text
  /-- Makes the frame of a call of a method on an object, and gives the environment of its body. -/
  enterMethod : Nat → Definition → List Value → EStateM Failure σ Env
  class? : Nat → EStateM Failure σ (Option Class)
  /-- Makes an object, and gives the classes whose initializers are to run, the root first. -/
  newObject : Nat → Class → EStateM Failure σ (Nat × List Nat)
  /-- Makes the frame in which a class initializes an object, and gives the environment and the members
  of the class. -/
  enterInitializers : Nat → Nat → EStateM Failure σ (Option (Env × List Node))
  readMember : Nat → Site → Label → EStateM Failure σ Value
  assignMember : Value → Site → Label → Value → EStateM Failure σ Unit
  element : Value → Value → Int → EStateM Failure σ (Nat × Nat)
  readElement : Nat → Nat → EStateM Failure σ Value
  setElement : Nat → Nat → Value → EStateM Failure σ Unit

namespace Actions

/-! ## The evaluator over its actions -/

section
variable {σ : Type} (A : Actions σ) (recur : Node → Env → EStateM Failure σ Value) (env : Env)

def fault {α : Type} (cause : Cause) (line : Int) : EStateM Failure σ α := throw (.atLine cause line)

def evaluateAll : List Node → EStateM Failure σ (List Value)
  | [] => return []
  | node :: rest => do
    let value ← recur node env
    let values ← evaluateAll rest
    return value :: values

/-- The value of the last statement that is run. -/
def evaluateBlock : List Node → Value → EStateM Failure σ Value
  | [], last => return last
  | statement :: rest, last => do
    if statement.isEmpty then evaluateBlock rest last
    else
      let value ← recur statement env
      evaluateBlock rest value

def evaluateLoop (condition body : Node) : Nat → Value → EStateM Failure σ Value
  | 0, _ => throw .unfinished
  | bound + 1, last => do
    let test ← recur condition env
    if test.isTrue then
      let value ← recur body env
      evaluateLoop condition body bound value
    else return last

/-- Fails because a callee wants another number of arguments. -/
def wrongArity {α : Type} (callee : Text) (wanted : Int) (arguments : List Node) :
    EStateM Failure σ α :=
  fault (.argumentCount callee wanted arguments.length) (firstLine arguments)

def call (target : Value) (arguments : List Node) : EStateM Failure σ Value := do
  match target with
  | .native ref =>
    match ← A.native? ref with
    | none => fault (.notCallable target.kind) (firstLine arguments)
    | some native =>
      if 0 ≤ native.arity ∧ native.arity ≠ arguments.length then
        wrongArity native.name native.arity arguments
      else
        let values ← evaluateAll recur env arguments
        A.callNative native env (firstLine arguments) values
  | .function ref =>
    match ← A.function? ref with
    | none => fault (.notCallable target.kind) (firstLine arguments)
    | some function =>
      if function.parameters.length ≠ arguments.length then
        wrongArity function.shownName function.parameters.length arguments
      else
        let values ← evaluateAll recur env arguments
        let inner ← A.enterFunction ref function values
        recur function.body inner
  | .method object d =>
    if d.parameters.length ≠ arguments.length then
      let owner ← A.className object
      wrongArity (owner ++ text "." ++ d.name) d.parameters.length arguments
    else
      let values ← evaluateAll recur env arguments
      let inner ← A.enterMethod object d values
      recur (.block d.body) inner
  | other => fault (.notCallable other.kind) (firstLine arguments)

def initializeFields : List Node → EStateM Failure σ Unit
  | [] => return ()
  | member :: rest => do
    if (Definition.ofNode? member).isNone then
      let _ ← recur member env
    initializeFields rest

def initializeAs (object : Nat) : List Nat → EStateM Failure σ Unit
  | [] => return ()
  | ref :: rest => do
    match ← A.enterInitializers object ref with
    | none => initializeAs object rest
    | some (inner, members) =>
      initializeFields recur inner members
      initializeAs object rest

def evaluateMember (target : Value) (site : Site) (title : Label) : EStateM Failure σ Value := do
  match target with
  | .classValue ref =>
    match ← A.class? ref with
    | none => fault (.noMemberAccess title.text target.kind) (orLine title.line 0)
    | some c =>
      if title.text = text "new" then
        let (object, lineage) ← A.newObject ref c
        initializeAs A recur object lineage
        return .object object
      else fault (.noClassMember c.name title.text) (orLine title.line 0)
  | .object object => A.readMember object site title
  | other => fault (.noMemberAccess title.text other.kind) (orLine title.line 0)

def evaluateIndex (target : Value) (index : Node) : EStateM Failure σ (Nat × Nat) := do
  match target with
  | .array _ =>
    let i ← recur index env
    A.element target i (orLine index.line 0)
  | other => fault (.cannotIndex other.kind) (orLine index.line 0)

def applySuffix (target : Value) : Suffix → EStateM Failure σ Value
  | .arguments arguments => call A recur env target arguments
  | .member site title => evaluateMember A recur target site title
  | .element index => do
    let (ref, i) ← evaluateIndex A recur env target index
    A.readElement ref i

def applySuffixes : Value → List Suffix → EStateM Failure σ Value
  | target, [] => return target
  | target, s :: rest => do
    let value ← applySuffix A recur env target s
    applySuffixes value rest

def assign (left right : Node) (line : Int) : EStateM Failure σ Value := do
  match left with
  | .name site word =>
    let value ← recur right env
    A.assignName site word value env
    return value
  | .primary operand inner (.member site title) =>
    let value ← recur right env
    let base ← recur operand env
    let owner ← applySuffixes A recur env base inner
    A.assignMember owner site title value
    return value
  | .primary operand inner (.element index) =>
    let value ← recur right env
    let base ← recur operand env
    let owner ← applySuffixes A recur env base inner
    let (ref, i) ← evaluateIndex A recur env owner index
    A.setElement ref i value
    return value
  | other => fault (.notAssignable other.shown) line

def ofCause {α : Type} (line : Int) : Except Cause α → EStateM Failure σ α
  | .ok a => return a
  | .error cause => fault cause line

/-- The value of a node, `recur` evaluating the nodes inside. -/
def evaluateNode (node : Node) : EStateM Failure σ Value := do
  match node with
  | .number _ value => return .integer value
  | .string word => return .string word.text
  | .name site word => A.readName site word env
  | .empty => return .null
  | .block statements => evaluateBlock recur env statements .null
  | .binary left operator right =>
    if operator.text = text "=" then assign A recur env left right node.line
    else
      let a ← recur left env
      let b ← recur right env
      A.operate operator.text a b node.line
  | .negative operand =>
    let value ← recur operand env
    ofCause node.line (negation value)
  | .conditional condition consequence alternative =>
    let test ← recur condition env
    if test.isTrue then recur consequence env
    else
      match alternative with
      | some other => recur other env
      | none => return .integer 0
  | .loop condition body => evaluateLoop recur env condition body (← A.rounds) (.integer 0)
  | .primary operand inner last =>
    let base ← recur operand env
    let target ← applySuffixes A recur env base inner
    applySuffix A recur env target last
  | .definition site title params body => A.define env site title params body node.line
  | .closure site params body => A.makeClosure env site params body
  | .classDefinition site title parent members =>
    A.defineClass env site title parent members node.line
  | .array elements =>
    let values ← evaluateAll recur env elements
    A.newArray values
  | .leaf _ | .list _ | .parameters _ | .suffix _ | .classBody _ => fault (.notEvaluable node.kind) node.line

end

/-- The value of a node with `levels` levels left. -/
def evaluate {σ : Type} (A : Actions σ) : Nat → Node → Env → EStateM Failure σ Value
  | 0, node, _ => do fault (.tooDeep (text "interpreter") (← A.maxDepth)) node.line
  | levels + 1, node, env => evaluateNode A (evaluate A levels) env node

/-! ## The machine's own actions -/

/-- Makes a frame, unless it has a fault, and gives the environment that starts with it. -/
def enter (frame : Except SlotFault Frame) (env : Env) : Run Env := do
  match frame with
  | .ok frame =>
    let f ← Run.newFrame frame
    return f :: env
  | .error reason => throw (.plain reason.message)

def functionFrame (function : Function) (arguments : List Value) : Except SlotFault Frame :=
  match function.size with
  | none => .ok (Run.namedFrame function.parameters arguments)
  | some size => Run.slotFrame size arguments

def methodEnv (m : Machine) (object : Nat) : Env :=
  match m.classOf? object with
  | some c => c.env
  | none => []

/-- What the evaluator of the language does to the machine. -/
def machine : Actions Machine where
  maxDepth := do return (← get).settings.maxDepth
  rounds := do return (← get).settings.rounds
  readName := Run.readName
  assignName := Run.assignName
  operate operator a b line := do Run.ofCause line (binaryOperation (← get) operator a b)
  newArray values := Run.newArray values.toArray
  makeClosure env site params body := Run.makeFunction env site [] params body
  define env site title params body line := do
    let function ← Run.makeFunction env site title.text params body
    Run.bind env ((← get).notes.slots.get? site) title.text function line
    return .string title.text
  defineClass := Run.defineClass
  native? ref := do return (← get).natives[ref]?
  callNative := Run.callNative
  function? ref := do return (← get).functions[ref]?
  enterFunction _ function arguments := enter (functionFrame function arguments) function.env
  className object := do return (← get).className object
  enterMethod object d arguments := do
    let m ← get
    enter (Run.slotFrame ((m.notes.sizes.get? d.site).getD 0) (.object object :: arguments))
      (methodEnv m object)
  class? ref := do return (← get).classes[ref]?
  newObject ref c := do
    let object ← Run.newObject ⟨ref, Array.replicate c.layout.fieldCount .null⟩
    return (object, (← get).lineage ref)
  enterInitializers object ref := do
    match (← get).classes[ref]? with
    | none => return none
    | some c =>
      let f ← Run.newFrame (.slots #[some (.object object)])
      return some (f :: c.env, c.members)
  readMember := Run.readMember
  assignMember := Run.assignMember
  element := Run.element
  readElement := Run.readElement
  setElement := Run.setElement

theorem enterInitializers_machine (object ref : Nat) (m : Machine) :
    machine.enterInitializers object ref m = match m.classes[ref]? with
      | none => .ok none m
      | some c => .ok (some (m.frames.size :: c.env, c.members))
        { m with frames := m.frames.push (.slots #[some (.object object)]) } := by
  show (get >>= _ : Run _) m = _
  rw [get_bind_apply]
  cases m.classes[ref]? <;> rfl

/-! ## The evaluator of the language is the one over the machine's actions -/

section
variable (recur : Evaluator) (env : Env)

theorem evaluateAll_machine (nodes : List Node) :
    evaluateAll recur env nodes = Run.evaluateAll recur env nodes := by
  induction nodes with
  | nil => rfl
  | cons node rest ih => simp only [evaluateAll, Run.evaluateAll, ih]

theorem evaluateBlock_machine (nodes : List Node) (last : Value) :
    evaluateBlock recur env nodes last = Run.evaluateBlock recur env nodes last := by
  induction nodes generalizing last with
  | nil => rfl
  | cons node rest ih => simp only [evaluateBlock, Run.evaluateBlock, ih]

theorem evaluateLoop_machine (condition body : Node) (bound : Nat) (last : Value) :
    evaluateLoop recur env condition body bound last
      = Run.evaluateLoop recur env condition body bound last := by
  induction bound generalizing last with
  | zero => rfl
  | succ bound ih => simp only [evaluateLoop, Run.evaluateLoop, ih]

theorem enter_bind (frame : Except SlotFault Frame) (outer : Env) (body : Node) :
    (do let inner ← enter frame outer; recur body inner) = Run.runBody recur frame outer body := by
  cases frame <;> rfl

theorem call_machine (target : Value) (arguments : List Node) :
    call machine recur env target arguments = Run.call recur env target arguments := by
  cases target with
  | native ref =>
    funext m
    simp only [call, Run.call, evaluateAll_machine]
    rfl
  | function ref =>
    have hcall : ∀ (function : Function) (values : List Value),
        (do let inner ← machine.enterFunction ref function values; recur function.body inner)
          = Run.callFunction recur function values := by
      intro function values
      show (do let inner ← enter (functionFrame function values) function.env; recur function.body inner) = _
      rw [enter_bind, Run.callFunction, functionFrame]
      cases function.size <;> rfl
    simp only [call, Run.call, evaluateAll_machine, hcall]
    rfl
  | method object d =>
    have hcall : ∀ values : List Value,
        (do let inner ← machine.enterMethod object d values; recur (.block d.body) inner)
          = Run.callMethod recur object d values := by
      intro values
      funext m
      exact congrFun (enter_bind recur
        (Run.slotFrame ((m.notes.sizes.get? d.site).getD 0) (.object object :: values))
        (methodEnv m object) (.block d.body)) m
    simp only [call, Run.call, evaluateAll_machine, hcall]
    rfl
  | _ => rfl

theorem initializeFields_machine (members : List Node) :
    initializeFields recur env members = Run.initializeFields recur env members := by
  induction members with
  | nil => rfl
  | cons member rest ih => simp only [initializeFields, Run.initializeFields, ih]

theorem initializeAs_machine (object : Nat) (refs : List Nat) :
    initializeAs machine recur object refs = Run.initializeAs recur object refs := by
  induction refs with
  | nil => rfl
  | cons ref rest ih =>
    funext m
    simp only [initializeAs, Run.initializeAs, ih, initializeFields_machine]
    rw [get_bind_apply, bind_apply, enterInitializers_machine]
    -- the class is looked up in the machine as it is, and its frame is made at once
    cases m.classes[ref]? <;> rfl

theorem evaluateMember_machine (target : Value) (site : Site) (title : Label) :
    evaluateMember machine recur target site title = Run.evaluateMember recur target site title := by
  cases target with
  | classValue ref =>
    funext m
    simp only [evaluateMember, Run.evaluateMember, Run.instantiate, initializeAs_machine]
    rfl
  | _ => rfl

theorem evaluateIndex_machine (target : Value) (index : Node) :
    evaluateIndex machine recur env target index = Run.evaluateIndex recur env target index := by
  cases target <;> rfl

theorem applySuffix_machine (target : Value) (s : Suffix) :
    applySuffix machine recur env target s = Run.applySuffix recur env target s := by
  cases s with
  | arguments arguments => exact call_machine recur env target arguments
  | member site title => exact evaluateMember_machine recur target site title
  | element index => simp only [applySuffix, Run.applySuffix, evaluateIndex_machine]; rfl

theorem applySuffixes_machine (target : Value) (suffixes : List Suffix) :
    applySuffixes machine recur env target suffixes
      = Run.applySuffixes recur env target suffixes := by
  induction suffixes generalizing target with
  | nil => rfl
  | cons s rest ih => simp only [applySuffixes, Run.applySuffixes, applySuffix_machine, ih]

theorem assign_machine (left right : Node) (line : Int) :
    assign machine recur env left right line = Run.assign recur env left right line := by
  unfold assign Run.assign
  split <;> (try simp only [applySuffixes_machine, evaluateIndex_machine]) <;> rfl

theorem evaluateNode_machine (node : Node) :
    evaluateNode machine recur env node = Run.evaluateNode recur node env := by
  cases node <;>
    simp only [evaluateNode, Run.evaluateNode, evaluateBlock_machine, assign_machine,
      evaluateLoop_machine, applySuffixes_machine, applySuffix_machine, evaluateAll_machine] <;> rfl

end

theorem evaluate_machine (levels : Nat) (node : Node) (env : Env) :
    evaluate machine levels node env = Run.evaluate levels node env := by
  induction levels generalizing node env with
  | zero => rfl
  | succ levels ih =>
    have hrec : evaluate machine levels = Run.evaluate levels := by
      funext node env
      exact ih node env
    simp only [evaluate, Run.evaluate, hrec, evaluateNode_machine]

end Actions

end StoneLang
