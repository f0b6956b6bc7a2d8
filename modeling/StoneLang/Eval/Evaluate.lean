/-
  Evaluation.

  `evaluateNode` gives the value of a node in an environment, given how the nodes inside are evaluated.
  `evaluate` ties the knot: it recurses on the number of levels left, and a node for which none is left
  fails as too deep.  Every cycle of evaluation, through calls, methods and field initializers alike,
  passes through `evaluate`, so nesting alone never runs on for ever.  Only a loop can: its rounds are
  bounded by the settings, and a loop that is cut short there is `unfinished`, which no program sees.

  The order is from left to right, with three rules of its own.  The number of arguments is checked
  before any of them is evaluated.  The target of an assignment is checked for its form first, then the
  right side is evaluated, then the owner of the target, then the subscript.  A class looks up its
  superclass by name before anything else.
-/
import StoneLang.Eval.Members
import StoneLang.Eval.Natives
import StoneLang.Eval.Operations
import StoneLang.Scope.Resolve

namespace StoneLang

/-- How the nodes inside a node are evaluated. -/
abbrev Evaluator := Node → Env → Run Value

namespace Run

/-! ## Sequences -/

def evaluateAll (recur : Evaluator) (env : Env) : List Node → Run (List Value)
  | [] => return []
  | node :: rest => do
    let value ← recur node env
    let values ← evaluateAll recur env rest
    return value :: values

/-- The value of the last statement that is run, `last` before the first; empty statements are passed
over. -/
def evaluateBlock (recur : Evaluator) (env : Env) : List Node → Value → Run Value
  | [], last => return last
  | statement :: rest, last => do
    if statement.isEmpty then evaluateBlock recur env rest last
    else
      let value ← recur statement env
      evaluateBlock recur env rest value

/-- The value of the last round of a loop of at most `bound` rounds, `last` before the first. -/
def evaluateLoop (recur : Evaluator) (env : Env) (condition body : Node) : Nat → Value → Run Value
  | 0, _ => throw .unfinished
  | bound + 1, last => do
    let test ← recur condition env
    if test.isTrue then
      let value ← recur body env
      evaluateLoop recur env condition body bound value
    else return last

/-! ## Calls -/

/-- Fails because a callee wants another number of arguments. -/
def wrongArity {α : Type} (callee : Text) (wanted : Int) (arguments : List Node) : Run α :=
  fault (.argumentCount callee wanted arguments.length) (firstLine arguments)

/-- The frame of a call by name: later parameters hide earlier ones of the same name. -/
def namedFrame (names : List Text) (arguments : List Value) : Frame :=
  .byName ((names.zip arguments).foldl (fun b (name, value) => Bindings.set name value b) [])

/-- The frame of a call by slot, with the arguments in the first slots. -/
def slotFrame (size : Nat) (arguments : List Value) : Except SlotFault Frame :=
  if arguments.length ≤ size then
    .ok (.slots (arguments.map some ++ List.replicate (size - arguments.length) none).toArray)
  else .error (.outside size size)

/-- Evaluates the body of a function in a new frame under `env`. -/
def runBody (recur : Evaluator) (frame : Except SlotFault Frame) (env : Env) (body : Node) :
    Run Value := do
  match frame with
  | .ok frame =>
    let f ← newFrame frame
    recur body (f :: env)
  | .error reason => throw (.plain reason.message)

def callFunction (recur : Evaluator) (function : Function) (arguments : List Value) : Run Value :=
  match function.size with
  | none => runBody recur (.ok (namedFrame function.parameters arguments)) function.env function.body
  | some size => runBody recur (slotFrame size arguments) function.env function.body

/-- Calls a method: the receiver is in slot zero, and around the call is what is around its class. -/
def callMethod (recur : Evaluator) (object : Nat) (d : Definition) (arguments : List Value) :
    Run Value := do
  let m ← get
  let size := (m.notes.sizes.get? d.site).getD 0
  let env := match m.classOf? object with
    | some c => c.env
    | none => []
  runBody recur (slotFrame size (.object object :: arguments)) env (.block d.body)

def call (recur : Evaluator) (env : Env) (target : Value) (arguments : List Node) : Run Value := do
  match target with
  | .native ref =>
    match (← get).natives[ref]? with
    | none => fault (.notCallable target.kind) (firstLine arguments)
    | some native =>
      if 0 ≤ native.arity ∧ native.arity ≠ arguments.length then
        wrongArity native.name native.arity arguments
      else
        let values ← evaluateAll recur env arguments
        callNative native env (firstLine arguments) values
  | .function ref =>
    match (← get).functions[ref]? with
    | none => fault (.notCallable target.kind) (firstLine arguments)
    | some function =>
      if function.parameters.length ≠ arguments.length then
        wrongArity function.shownName function.parameters.length arguments
      else
        let values ← evaluateAll recur env arguments
        callFunction recur function values
  | .method object d =>
    if d.parameters.length ≠ arguments.length then
      wrongArity ((← get).className object ++ text "." ++ d.name) d.parameters.length arguments
    else
      let values ← evaluateAll recur env arguments
      callMethod recur object d values
  | other => fault (.notCallable other.kind) (firstLine arguments)

/-! ## Objects -/

def initializeFields (recur : Evaluator) (env : Env) : List Node → Run Unit
  | [] => return ()
  | member :: rest => do
    if (Definition.ofNode? member).isNone then
      let _ ← recur member env
    initializeFields recur env rest

/-- Runs the field initializers of classes, each in a scope that holds only the object. -/
def initializeAs (recur : Evaluator) (object : Nat) : List Nat → Run Unit
  | [] => return ()
  | ref :: rest => do
    match (← get).classes[ref]? with
    | none => initializeAs recur object rest
    | some c =>
      let f ← newFrame (.slots #[some (.object object)])
      initializeFields recur (f :: c.env) c.members
      initializeAs recur object rest

/-- A new object of a class: every field is null, then the initializers run from the root class down. -/
def instantiate (recur : Evaluator) (ref : Nat) (c : Class) : Run Value := do
  let object ← newObject ⟨ref, Array.replicate c.layout.fieldCount .null⟩
  initializeAs recur object ((← get).lineage ref)
  return .object object

/-- The member of a value: the fields and methods of an object, and the objects of a class. -/
def evaluateMember (recur : Evaluator) (target : Value) (site : Site) (title : Label) : Run Value := do
  match target with
  | .classValue ref =>
    match (← get).classes[ref]? with
    | none => fault (.noMemberAccess title.text target.kind) (orLine title.line 0)
    | some c =>
      if title.text = text "new" then instantiate recur ref c
      else fault (.noClassMember c.name title.text) (orLine title.line 0)
  | .object object => readMember object site title
  | other => fault (.noMemberAccess title.text other.kind) (orLine title.line 0)

/-! ## Suffixes -/

/-- The array and the place that a subscript refers to.  A target that is no array fails before the
subscript is evaluated. -/
def evaluateIndex (recur : Evaluator) (env : Env) (target : Value) (index : Node) : Run (Nat × Nat) := do
  let line := orLine index.line 0
  match target with
  | .array _ =>
    let i ← recur index env
    element target i line
  | other => fault (.cannotIndex other.kind) line

def applySuffix (recur : Evaluator) (env : Env) (target : Value) : Suffix → Run Value
  | .arguments arguments => call recur env target arguments
  | .member site title => evaluateMember recur target site title
  | .element index => do
    let (ref, i) ← evaluateIndex recur env target index
    readElement ref i

def applySuffixes (recur : Evaluator) (env : Env) : Value → List Suffix → Run Value
  | target, [] => return target
  | target, s :: rest => do
    let value ← applySuffix recur env target s
    applySuffixes recur env value rest

/-! ## Assignment -/

def assign (recur : Evaluator) (env : Env) (left right : Node) (line : Int) : Run Value := do
  match left with
  | .name site word =>
    let value ← recur right env
    assignName site word value env
    return value
  | .primary operand inner (.member site title) =>
    let value ← recur right env
    let base ← recur operand env
    let owner ← applySuffixes recur env base inner
    assignMember owner site title value
    return value
  | .primary operand inner (.element index) =>
    let value ← recur right env
    let base ← recur operand env
    let owner ← applySuffixes recur env base inner
    let (ref, i) ← evaluateIndex recur env owner index
    setElement ref i value
    return value
  | other => fault (.notAssignable other.shown) line

/-! ## Classes -/

def superclass? (env : Env) (parent : Option Label) (line : Int) : Run (Option Nat) := do
  match parent.map Label.text with
  | none | some [] => return none
  | some name =>
    match (← get).frames.get? name env with
    | none => fault (.undefinedSuperclass name) line
    | some (.classValue ref) => return some ref
    | some other => fault (.superclassKind name other.kind) line

def layOut (title : Text) (members : List Node) (base : Option Layout) : Run Layout := fun m =>
  let settings : ResolveSettings := ⟨m.settings.maxDepth, m.settings.watched⟩
  match resolveClass settings title members base m.globalNames m.notes with
  | .ok layout s => .ok layout { m with notes := s.notes, records := m.records ++ s.records }
  | .error failure s => .error failure { m with notes := s.notes, records := m.records ++ s.records }

/-- Adds a class with a number of its own, and gives its entry. -/
def newClass (title : Text) (parents : List Nat) (layout : Layout) (members : List Node) (env : Env) :
    Run (Nat × Nat) :=
  modifyGet fun m =>
    ((m.classes.size, m.nextClass),
      { m with
        classes := m.classes.push ⟨m.nextClass, title, parents, layout, members, env⟩
        nextClass := m.nextClass + 1 })

def defineClass (env : Env) (site : Site) (title : Label) (parent : Option Label) (members : List Node)
    (line : Int) : Run Value := do
  let base ← superclass? env parent line
  let m ← get
  let baseClass := base.bind fun ref => m.classes[ref]?
  let layout ← layOut title.text members (baseClass.map Class.layout)
  let parents := match base, baseClass with
    | some ref, some c => ref :: c.parents
    | _, _ => []
  let (ref, id) ← newClass title.text parents layout members env
  bind env ((← get).notes.slots.get? site) title.text (.classValue ref) line
  note (Record.debug "defined class"
    [("class", .text title.text), ("id", .serial id), ("fields", .number layout.fieldCount)])
  return .string title.text

/-! ## Nodes -/

def makeFunction (env : Env) (site : Site) (name : Text) (params : List Label) (body : List Node) :
    Run Value := do
  newFunction ⟨name, params.map Label.text, .block body, env, (← get).notes.sizes.get? site⟩

/-- The value of a node, `recur` evaluating the nodes inside. -/
def evaluateNode (recur : Evaluator) (node : Node) (env : Env) : Run Value := do
  match node with
  | .number _ value => return .integer value
  | .string word => return .string word.text
  | .name site word => readName site word env
  | .empty => return .null
  | .block statements => evaluateBlock recur env statements .null
  | .binary left operator right =>
    if operator.text = text "=" then assign recur env left right node.line
    else
      let a ← recur left env
      let b ← recur right env
      ofCause node.line (binaryOperation (← get) operator.text a b)
  | .negative operand =>
    let value ← recur operand env
    ofCause node.line (negation value)
  | .conditional condition consequence alternative =>
    let test ← recur condition env
    if test.isTrue then recur consequence env
    else
      match alternative with
      | some other => recur other env
      | none => return .integer 0
  | .loop condition body =>
    evaluateLoop recur env condition body (← get).settings.rounds (.integer 0)
  | .primary operand inner last =>
    let base ← recur operand env
    let target ← applySuffixes recur env base inner
    applySuffix recur env target last
  | .definition site title params body =>
    let function ← makeFunction env site title.text params body
    bind env ((← get).notes.slots.get? site) title.text function node.line
    return .string title.text
  | .closure site params body => makeFunction env site [] params body
  | .classDefinition site title parent members => defineClass env site title parent members node.line
  | .array elements =>
    let values ← evaluateAll recur env elements
    newArray values.toArray
  | .leaf _ | .list _ | .parameters _ | .suffix _ | .classBody _ => fault (.notEvaluable node.kind) node.line

/-- The value of a node with `levels` levels left. -/
def evaluate : Nat → Evaluator
  | 0, node, _ => do fault (.tooDeep (text "interpreter") (← get).settings.maxDepth) node.line
  | levels + 1, node, env => evaluateNode (evaluate levels) node env

/-! ## Units -/

def placeNames (unit : Node) : Run Unit := fun m =>
  let settings : ResolveSettings := ⟨m.settings.maxDepth, m.settings.watched⟩
  let keep (s : Resolving) : Machine :=
    { m.withGlobalNames s.scope.outermostNames with notes := s.notes, records := m.records ++ s.records }
  match resolve settings unit m.globalNames m.notes with
  | .ok _ s => .ok () (keep s)
  | .error failure s => .error failure (keep s)

/-- Runs a unit at the global level: its names are placed, unless the settings say otherwise, and it is
evaluated. -/
def execute (unit : Node) : Run Value := do
  let settings := (← get).settings
  if settings.placesNames then placeNames unit
  evaluate settings.maxDepth unit Machine.globalEnv

end Run

end StoneLang
