/-
  Accesses to names, as functions of the machine.

  Reading a name looks at the machine and leaves it as it is; assigning to one changes it in one place or
  not at all.  `Machine.read`, `Machine.assigned` and `Machine.bound` say so without a monad, and the
  evaluator's own actions are these (`Run.readName_eq`, `Run.assignName_eq`, `Run.bind_eq`).  The same is
  done for members of objects, whose lookup may also remember what it found.
-/
import StoneLang.Eval.Evaluate
import StoneLang.Proofs.Result

namespace StoneLang

/-- A cause that says that a variable is not where it was addressed. -/
def Cause.isAddress : Cause → Bool
  | .slotRefused .. | .bindingRefused .. | .noReceiver _ => true
  | _ => false

/-- A cause that a step on the store meets: operands, members, elements or arguments that do not fit. -/
def Cause.isOfStore : Cause → Bool
  | .operandKinds .. | .unsupportedOperator _ | .divisionByZero | .moduloByZero | .noMember .. | .noMemberStore ..
  | .methodAssignment _ | .cannotIndex _ | .indexKind _ | .indexOutOfBounds .. | .noLength _ | .notAnInteger _
  | .noInteger _ => true
  | _ => false

theorem Cause.isAddress_of_isOfStore {cause : Cause} (h : cause.isOfStore = true) : cause.isAddress = false := by
  cases cause <;> first | rfl | cases h

theorem isOfStore_binaryOperation (h : binaryOperation m operator a b = .error cause) : cause.isOfStore = true := by
  unfold binaryOperation at h
  split at h
  · cases h
  · split at h
    · unfold integerOperation at h
      repeat' split at h
      all_goals cases h <;> rfl
    · split at h <;> cases h <;> rfl

namespace Machine

/-- The object in slot zero of the frame `hops` hops outward. -/
def receiver? (m : Machine) (env : Env) (hops : Nat) : Option Nat :=
  match m.frames.getAt? env hops 0 with
  | some (.object ref) => some ref
  | _ => none

/-- The value of a name, or why it has none. -/
def read (m : Machine) (site : Site) (word : Word) (env : Env) : Except Cause Value :=
  match m.notes.places.get? site with
  | none =>
    match m.frames.get? word.text env with
    | some value => .ok value
    | none => .error (.undefinedName word.text)
  | some (.lexical nest index) =>
    match m.frames.getAt? env nest index with
    | some value => .ok value
    | none => .error (.undefinedName word.text)
  | some (.field index hops) =>
    match m.receiver? env hops with
    | none => .error (.noReceiver word.text)
    | some object =>
      match Run.fieldAt? m object index with
      | some value => .ok value
      | none => .error (.noMember (m.className object) word.text)
  | some (.method index hops) =>
    match m.receiver? env hops with
    | none => .error (.noReceiver word.text)
    | some object =>
      match Run.methodAt? m object index with
      | some d => .ok (.method object d)
      | none => .error (.noMember (m.className object) word.text)

def withField (m : Machine) (object index : Nat) (value : Value) : Machine :=
  { m with objects := m.objects.modify object fun o =>
      { o with fields := o.fields.setIfInBounds index value } }

/-- The machine after an assignment to a name, or why there is none. -/
def assigned (m : Machine) (site : Site) (word : Word) (value : Value) (env : Env) :
    Except Cause Machine :=
  match m.notes.places.get? site with
  | none => .ok { m with frames := m.frames.bindIn (m.frames.assignee? word.text env) word.text value }
  | some (.lexical nest index) =>
    match m.frames.slotOwner env nest index with
    | .ok f => .ok { m with frames := m.frames.write f index value }
    | .error reason => .error (.slotRefused word.text reason.message)
  | some (.field index hops) =>
    match m.receiver? env hops with
    | none => .error (.noReceiver word.text)
    | some object =>
      match Run.fieldAt? m object index with
      | some _ => .ok (m.withField object index value)
      | none => .error (.noMember (m.className object) word.text)
  | some (.method ..) => .error (.methodAssignment word.text)

/-- The machine with a definition bound, or why there is none. -/
def bound (m : Machine) (env : Env) (slot : Option Nat) (name : Text) (value : Value) :
    Except Cause Machine :=
  match slot with
  | none => .ok { m with frames := m.frames.bindIn (m.frames.assignee? name env) name value }
  | some index =>
    match m.frames.slotOwner env 0 index with
    | .ok f => .ok { m with frames := m.frames.write f index value }
    | .error reason => .error (.bindingRefused name reason.message)

variable {m m' : Machine} {site : Site} {object : Nat} {title : Label}

/-- What an assignment that succeeds does: it binds a name, writes a slot or sets a field. -/
theorem assigned_cases (h : m.assigned site word value env = .ok m') : (m.notes.places.get? site = none ∧
      m' = { m with frames := m.frames.bindIn (m.frames.assignee? word.text env) word.text value }) ∨
    (∃ nest index f, m.notes.places.get? site = some (.lexical nest index) ∧
      m.frames.slotOwner env nest index = .ok f ∧ m' = { m with frames := m.frames.write f index value }) ∨
    ∃ index hops object old, m.notes.places.get? site = some (.field index hops) ∧
      m.receiver? env hops = some object ∧ Run.fieldAt? m object index = some old ∧
      m' = m.withField object index value := by
  unfold assigned at h
  split at h
  · cases h
    exact .inl ⟨‹_›, rfl⟩
  · split at h <;> cases h
    exact .inr (.inl ⟨_, _, _, ‹_›, ‹_›, rfl⟩)
  · split at h
    · cases h
    · split at h <;> cases h
      exact .inr (.inr ⟨_, _, _, _, ‹_›, ‹_›, ‹_›, rfl⟩)
  · cases h

theorem bound_cases (h : m.bound env slot name value = .ok m') : (slot = none ∧
      m' = { m with frames := m.frames.bindIn (m.frames.assignee? name env) name value }) ∨
    ∃ index f, slot = some index ∧ m.frames.slotOwner env 0 index = .ok f ∧
      m' = { m with frames := m.frames.write f index value } := by
  unfold bound at h
  split at h
  · cases h
    exact .inl ⟨rfl, rfl⟩
  · split at h <;> cases h
    exact .inr ⟨_, _, rfl, ‹_›, rfl⟩

/-- The superclass that a class names, if it names one, or why it cannot be one. -/
def superclass (m : Machine) (env : Env) (parent : Option Label) : Except Cause (Option Nat) :=
  match parent.map Label.text with
  | none | some [] => .ok none
  | some name =>
    match m.frames.get? name env with
    | none => .error (.undefinedSuperclass name)
    | some (.classValue ref) => .ok (some ref)
    | some other => .error (.superclassKind name other.kind)

/-- Values are shown alike where the arrays are the same and all else is shown alike. -/
theorem render_congr (harrays : m'.arrays = m.arrays) (hflat : ∀ v, m'.renderFlat v = m.renderFlat v) (value : Value) :
    m'.render value = m.render value := by
  have hwithin : ∀ levels opened v, m'.renderWithin levels opened v = m.renderWithin levels opened v := by
    intro levels
    induction levels with
    | zero =>
      intro opened v
      cases v <;> exact hflat _
    | succ levels ih =>
      intro opened v
      have hrest : ∀ ref, m'.renderWithin levels (ref :: opened) = m.renderWithin levels (ref :: opened) :=
        fun ref => funext (ih _)
      cases v with
      | array ref => simp only [renderWithin, harrays, hrest]
      | _ => exact hflat _
  have hbound : ∀ m : Machine, m.render value = m.renderWithin (m.arrays.size + 1) [] value := fun _ => rfl
  rw [hbound, hbound, harrays]
  exact hwithin _ [] value

theorem note_eq (m : Machine) (record : Record) :
    m.note record = { m with records := (m.note record).records } := by
  unfold note
  split <;> rfl

theorem mem_of_classOf? (h : m.classOf? object = some c) : c ∈ m.classes := by
  obtain ⟨o, -, hclass⟩ := Option.bind_eq_some_iff.mp h
  exact Array.mem_of_getElem? hclass

def remembering (m : Machine) (site : Site) (entry : MemberCache) : Machine :=
  { m with notes := { m.notes with caches := m.notes.caches.set site entry } }

/-- The member that an access refers to, with the machine that remembers it; or why there is none. -/
def member (m : Machine) (object : Nat) (site : Site) (title : Label) :
    Except Cause (MemberCache × Machine) :=
  match m.classOf? object with
  | none => .error (.noMember [] title.text)
  | some c =>
    match (m.notes.caches.get? site).filter fun entry => entry.classId == c.id with
    | some entry => .ok (entry, m)
    | none =>
      match searchMember c title.text with
      | some entry => .ok (entry, m.remembering site entry)
      | none => .error (.noMember c.name title.text)

theorem member_remembers (h : m.member object site title = .ok (entry, m')) :
    m' = m ∨ ∃ c ∈ m.classes, searchMember c title.text = some entry ∧ m' = m.remembering site entry := by
  unfold member at h
  split at h
  · cases h
  · rename_i c hc
    split at h
    · cases h
      exact .inl rfl
    · split at h
      · rename_i hfound
        cases h
        exact .inr ⟨c, mem_of_classOf? hc, hfound, rfl⟩
      · cases h

theorem member_cases (h : m.member object site title = .ok (entry, m')) : m' = m ∨ m' = m.remembering site entry :=
  (member_remembers h).imp_right fun ⟨_, _, _, hm⟩ => hm

theorem isOfStore_member (h : m.member object site title = .error cause) : cause.isOfStore = true := by
  unfold member at h
  split at h <;> try split at h <;> try split at h
  all_goals cases h <;> rfl

def memberValue (m : Machine) (object : Nat) (entry : MemberCache) : Value :=
  if entry.isField then (Run.fieldAt? m object entry.index).getD .null
  else
    match Run.methodAt? m object entry.index with
    | some d => .method object d
    | none => .null

end Machine

namespace Run

theorem receiver_eq (m : Machine) (env : Env) (hops : Nat) (word : Word) :
    receiver env hops word m = match m.receiver? env hops with
      | some object => .ok object m
      | none => .error (.atLine (.noReceiver word.text) word.line) m := by
  unfold receiver Machine.receiver?
  rw [get_bind_apply]
  cases m.frames.getAt? env hops 0 with
  | none => rfl
  | some value => cases value <;> rfl

theorem receiver_bind (m : Machine) (env : Env) (hops : Nat) (word : Word) (f : Nat → Run α) :
    (receiver env hops word >>= f) m = match m.receiver? env hops with
      | some object => f object m
      | none => .error (.atLine (.noReceiver word.text) word.line) m := by
  rw [bind_apply, receiver_eq]
  cases m.receiver? env hops <;> rfl

theorem readName_eq (site : Site) (word : Word) (env : Env) (m : Machine) :
    readName site word env m = match m.read site word env with
      | .ok value => .ok value m
      | .error cause => .error (.atLine cause word.line) m := by
  unfold readName Machine.read
  rw [get_bind_apply]
  cases m.notes.places.get? site with
  | none =>
    dsimp only
    rw [get_bind_apply]
    cases m.frames.get? word.text env <;> rfl
  | some location =>
    cases location with
    | lexical nest index =>
      dsimp only
      rw [get_bind_apply]
      cases m.frames.getAt? env nest index <;> rfl
    | field index hops | method index hops =>
      dsimp only
      rw [receiver_bind]
      cases m.receiver? env hops with
      | none => rfl
      | some object =>
        dsimp only
        rw [get_bind_apply]
        cases fieldAt? m object index <;> cases methodAt? m object index <;> rfl

theorem assignName_eq (site : Site) (word : Word) (value : Value) (env : Env) (m : Machine) :
    assignName site word value env m = match m.assigned site word value env with
      | .ok m' => .ok () m'
      | .error cause => .error (.atLine cause word.line) m := by
  unfold assignName Machine.assigned
  rw [get_bind_apply]
  cases m.notes.places.get? site with
  | none => rfl
  | some location =>
    cases location with
    | lexical nest index =>
      dsimp only
      rw [get_bind_apply]
      cases m.frames.slotOwner env nest index <;> rfl
    | field index hops =>
      dsimp only
      rw [receiver_bind]
      cases m.receiver? env hops with
      | none => rfl
      | some object =>
        dsimp only
        rw [get_bind_apply]
        cases fieldAt? m object index <;> rfl
    | method index hops => rfl

theorem bind_eq (env : Env) (slot : Option Nat) (name : Text) (value : Value) (line : Int)
    (m : Machine) :
    bind env slot name value line m = match m.bound env slot name value with
      | .ok m' => .ok () m'
      | .error cause => .error (.atLine cause line) m := by
  unfold bind Machine.bound
  cases slot with
  | none => rfl
  | some index =>
    dsimp only
    rw [get_bind_apply]
    cases m.frames.slotOwner env 0 index <;> rfl

theorem superclass?_eq (env : Env) (parent : Option Label) (line : Int) (m : Machine) :
    superclass? env parent line m = match m.superclass env parent with
      | .ok base => .ok base m
      | .error cause => .error (.atLine cause line) m := by
  unfold superclass? Machine.superclass
  cases parent.map Label.text with
  | none => rfl
  | some name =>
    cases name with
    | nil => rfl
    | cons b rest =>
      dsimp only
      rw [get_bind_apply]
      cases m.frames.get? (b :: rest) env with
      | none => rfl
      | some value => cases value <;> rfl

theorem lookupMember_eq (object : Nat) (site : Site) (title : Label) (m : Machine) :
    lookupMember object site title m = match m.member object site title with
      | .ok (entry, m') => .ok entry m'
      | .error cause => .error (.atLine cause (orLine title.line 0)) m := by
  unfold lookupMember Machine.member
  rw [get_bind_apply]
  cases m.classOf? object with
  | none => rfl
  | some c =>
    dsimp only
    rw [get_bind_apply]
    cases (m.notes.caches.get? site).filter fun entry => entry.classId == c.id with
    | some entry => rfl
    | none =>
      dsimp only
      cases searchMember c title.text <;> rfl

theorem readMember_eq (object : Nat) (site : Site) (title : Label) (m : Machine) :
    readMember object site title m = match m.member object site title with
      | .ok (entry, m') => .ok (m'.memberValue object entry) m'
      | .error cause => .error (.atLine cause (orLine title.line 0)) m := by
  unfold readMember
  rw [bind_apply, lookupMember_eq]
  cases m.member object site title with
  | error cause => rfl
  | ok found =>
    obtain ⟨entry, m'⟩ := found
    dsimp only
    unfold Machine.memberValue
    cases entry.isField with
    | true => rfl
    | false =>
      simp only [Bool.false_eq_true, if_false]
      rw [get_bind_apply]
      cases methodAt? m' object entry.index <;> rfl

theorem assignMember_eq (object : Nat) (site : Site) (title : Label) (value : Value) (m : Machine) :
    assignMember (.object object) site title value m = match m.member object site title with
      | .ok (entry, m') =>
        if entry.isField then .ok () (m'.withField object entry.index value)
        else .error (.atLine (.methodAssignment (m'.className object ++ text "." ++ title.text))
          (orLine title.line 0)) m'
      | .error cause => .error (.atLine cause (orLine title.line 0)) m := by
  refine bind_apply.trans ?_
  rw [lookupMember_eq]
  cases m.member object site title with
  | error cause => rfl
  | ok found =>
    obtain ⟨entry, m'⟩ := found
    dsimp only
    cases entry.isField <;> rfl

/-- A subscript that fits refers to an element that is there; otherwise it has a cause to fail. -/
theorem element_cases (target index : Value) (line : Int) (m : Machine) :
    (∃ ref i, target = .array ref ∧ index = .integer i ∧ 0 ≤ i.toInt ∧
      i.toInt < (((m.arrays[ref]?).getD #[]).size : Nat) ∧
      element target index line m = .ok (ref, i.toInt.toNat) m) ∨
    ∃ cause, cause.isOfStore = true ∧ element target index line m = .error (.atLine cause line) m := by
  cases target with
  | array ref =>
    cases index with
    | integer i =>
      have helement : element (.array ref) (.integer i) line m
          = (if i.toInt < 0 ∨ (((m.arrays[ref]?).getD #[]).size : Nat) ≤ i.toInt then
              fault (.indexOutOfBounds i ((m.arrays[ref]?).getD #[]).size) line
            else pure (ref, i.toInt.toNat) : Run (Nat × Nat)) m := rfl
      rw [helement]
      split
      · exact .inr ⟨_, rfl, rfl⟩
      · exact .inl ⟨ref, i, rfl, rfl, by omega, by omega, rfl⟩
    | _ => exact .inr ⟨_, rfl, rfl⟩
  | _ => cases index <;> exact .inr ⟨_, rfl, rfl⟩

end Run

/-! ## Classes -/

def Machine.laidOut (m : Machine) (s : Resolving) : Machine :=
  { m with notes := s.notes, records := m.records ++ s.records }

def Machine.withClass (m : Machine) (title : Text) (parents : List Nat) (layout : Layout)
    (members : List Node) (env : Env) : Machine :=
  { m with
    classes := m.classes.push ⟨m.nextClass, title, parents, layout, members, env⟩
    nextClass := m.nextClass + 1 }

/-- The superclasses of a class with the given base, the nearest first. -/
def Machine.parentsOf (m : Machine) (base : Option Nat) : List Nat :=
  match base, base.bind (m.classes[·]?) with
  | some ref, some c => ref :: c.parents
  | _, _ => []

def Machine.baseLayout (m : Machine) (base : Option Nat) : Option Layout :=
  (base.bind (m.classes[·]?)).map Class.layout

/-- Defining a class: its superclass is looked up, its body is placed, and it is made and bound. -/
theorem Run.defineClass_eq (env : Env) (site : Site) (title : Label) (parent : Option Label)
    (members : List Node) (line : Int) (m : Machine) :
    ∃ record : Nat → Layout → Record, defineClass env site title parent members line m =
      match m.superclass env parent with
      | .error cause => .error (.atLine cause line) m
      | .ok base =>
        match resolveClass ⟨m.settings.maxDepth, m.settings.watched⟩ title.text members (m.baseLayout base)
            m.globalNames m.notes with
        | .error e s => .error e (m.laidOut s)
        | .ok layout s =>
          let made := (m.laidOut s).withClass title.text (m.parentsOf base) layout members env
          match made.bound env (made.notes.slots.get? site) title.text (.classValue m.classes.size) with
          | .error cause => .error (.atLine cause line) made
          | .ok bound => .ok (.string title.text) (bound.note (record m.nextClass layout)) := by
  refine ⟨fun id layout => Record.debug "defined class"
    [("class", .text title.text), ("id", .serial id), ("fields", .number layout.fieldCount)], ?_⟩
  unfold defineClass
  rw [bind_apply, superclass?_eq]
  cases m.superclass env parent with
  | error cause => rfl
  | ok base =>
    dsimp only
    rw [get_bind_apply]
    show EStateM.bind (layOut title.text members (m.baseLayout base)) _ m = _
    unfold EStateM.bind layOut
    dsimp only
    cases resolveClass ⟨m.settings.maxDepth, m.settings.watched⟩ title.text members (m.baseLayout base)
        m.globalNames m.notes with
    | error e s => rfl
    | ok layout s =>
      let made := (m.laidOut s).withClass title.text (m.parentsOf base) layout members env
      show EStateM.bind (bind env (made.notes.slots.get? site) title.text (.classValue m.classes.size) line)
        _ made = match made.bound env (made.notes.slots.get? site) title.text (.classValue m.classes.size) with
          | .error cause => .error (.atLine cause line) made
          | .ok bound => .ok _ _
      unfold EStateM.bind
      rw [bind_eq]
      cases made.bound env (made.notes.slots.get? site) title.text (.classValue m.classes.size) <;> rfl

/-- How defining a class can end: without a superclass, with a body that cannot be placed, with a class that
cannot be bound, or well. -/
theorem Run.defineClass_cases (env : Env) (site : Site) (title : Label) (parent : Option Label)
    (members : List Node) (line : Int) (m : Machine) :
    (∃ cause, m.superclass env parent = .error cause ∧
      defineClass env site title parent members line m = .error (.atLine cause line) m) ∨
    ∃ base, m.superclass env parent = .ok base ∧
      ((∃ e s, resolveClass ⟨m.settings.maxDepth, m.settings.watched⟩ title.text members (m.baseLayout base)
            m.globalNames m.notes = .error e s ∧
          defineClass env site title parent members line m = .error e (m.laidOut s)) ∨
        ∃ layout s made, resolveClass ⟨m.settings.maxDepth, m.settings.watched⟩ title.text members
            (m.baseLayout base) m.globalNames m.notes = .ok layout s ∧
          made = (m.laidOut s).withClass title.text (m.parentsOf base) layout members env ∧
          ((∃ cause, made.bound env (made.notes.slots.get? site) title.text (.classValue m.classes.size)
                = .error cause ∧
              defineClass env site title parent members line m = .error (.atLine cause line) made) ∨
            ∃ bound record, made.bound env (made.notes.slots.get? site) title.text
                (.classValue m.classes.size) = .ok bound ∧
              defineClass env site title parent members line m
                = .ok (.string title.text) (bound.note record))) := by
  obtain ⟨record, hdefine⟩ := defineClass_eq env site title parent members line m
  cases hsuper : m.superclass env parent with
  | error cause => exact .inl ⟨cause, rfl, by rw [hdefine, hsuper]⟩
  | ok base =>
    refine .inr ⟨base, rfl, ?_⟩
    cases hclass : resolveClass ⟨m.settings.maxDepth, m.settings.watched⟩ title.text members (m.baseLayout base)
        m.globalNames m.notes with
    | error e s => exact .inl ⟨e, s, rfl, by simp only [hdefine, hsuper, hclass]⟩
    | ok layout s =>
      refine .inr ⟨layout, s, _, rfl, rfl, ?_⟩
      cases hbound : ((m.laidOut s).withClass title.text (m.parentsOf base) layout members env).bound env
          (((m.laidOut s).withClass title.text (m.parentsOf base) layout members env).notes.slots.get? site)
          title.text (.classValue m.classes.size) with
      | error cause => exact .inl ⟨cause, rfl, by simp only [hdefine, hsuper, hclass, hbound]⟩
      | ok bound =>
        exact .inr ⟨bound, record m.nextClass layout, rfl, by simp only [hdefine, hsuper, hclass, hbound]⟩

/-! ## Units -/

/-- The machine after the names of a unit have been placed. -/
def Machine.placed (m : Machine) (s : Resolving) : Machine :=
  { m.withGlobalNames s.scope.outermostNames with notes := s.notes, records := m.records ++ s.records }

theorem Run.placeNames_eq (unit : Node) (m : Machine) :
    placeNames unit m = onState m.placed
      (resolve ⟨m.settings.maxDepth, m.settings.watched⟩ unit m.globalNames m.notes) := by
  unfold placeNames
  dsimp only
  cases resolve ⟨m.settings.maxDepth, m.settings.watched⟩ unit m.globalNames m.notes <;> rfl

theorem Run.execute_evaluates (h : m.settings.placesNames = false) (unit : Node) :
    execute unit m = evaluate m.settings.maxDepth unit Machine.globalEnv m := by
  unfold execute
  rw [get_bind_apply]
  simp only [h]
  rfl

theorem Run.execute_places (h : m.settings.placesNames = true)
    (hplaced : resolve ⟨m.settings.maxDepth, m.settings.watched⟩ unit m.globalNames m.notes = .ok () s) :
    execute unit m = evaluate m.settings.maxDepth unit Machine.globalEnv (m.placed s) := by
  unfold execute
  rw [get_bind_apply]
  simp only [h, if_true]
  rw [bind_apply, placeNames_eq, hplaced]
  rfl

end StoneLang
