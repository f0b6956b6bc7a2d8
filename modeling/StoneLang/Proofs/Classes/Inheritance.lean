/-
  Inheritance.

  PROGRAM: `resolveClass`, called for one class after the other, each on top of the layout of its superclass (`Lineage`).

  SPEC: `Layout.Realises`: the members of a superclass come first and keep their slots, every method has one definition,
  and this is the last one in the most derived class that defines it.

  `Machine.Inheriting` says that every class of a machine is laid out so.  Only the definition of a class adds a class, and
  nothing changes one (`Machine.Develops`), so it holds whatever is executed.
-/
import StoneLang.Proofs.Evaluation.Upkeep
import StoneLang.Proofs.Observation.Observed

namespace StoneLang

open Coupling

/-! ## Layouts -/

/-- The bodies and layouts of a class and its superclasses, the class itself first. -/
inductive Lineage : List (List Node × Layout) → Prop where
  | root : Lineage []
  | derived {settings : ResolveSettings} {title : Text} {members : List Node} {above : List (List Node × Layout)}
      {globals : List Text} {notes : Notes} {layout : Layout} {s : Resolving}
      (laid : resolveClass settings title members (above.head?.map Prod.snd) globals notes = .ok layout s)
      (up : Lineage above) : Lineage ((members, layout) :: above)

/-- The last definition of a name in the first body that has one. -/
def mostDerived? (bodies : List (List Node)) (name : Text) : Option Definition :=
  bodies.findSome? fun members => lastDefinition? members name

/-- The layout is that of a class with the given body under the given superclasses. -/
structure Layout.Realises (layout : Layout) (members : List Node) (above : List (List Node × Layout)) : Prop where
  /-- The fields of a superclass come first, in the same slots. -/
  fields : ∀ base ∈ above, base.2.fields <+: layout.fields
  /-- So do its methods. -/
  methods : ∀ base ∈ above, base.2.methods <+: layout.methods
  /-- There is one definition for each method. -/
  full : layout.definitions.length = layout.methods.length
  distinct : layout.methods.Nodup
  /-- It is the last one in the most derived class that defines the method. -/
  derived : ∀ (slot : Nat) name, layout.methods[slot]? = some name →
    ∃ d, layout.definitions[slot]? = some d ∧ mostDerived? (members :: above.map Prod.fst) name = some d
  /-- The methods are those that some class defines. -/
  defined : ∀ name, name ∈ layout.methods ↔ (mostDerived? (members :: above.map Prod.fst) name).isSome

theorem Lineage.definitions (h : Lineage classes) : ((classes.head?.map Prod.snd).getD .empty).Sound ∧
      ∀ name, ((classes.head?.map Prod.snd).getD .empty).definition? name
        = mostDerived? (classes.map Prod.fst) name := by
  induction h with
  | root => exact ⟨Layout.sound_empty, fun name => rfl⟩
  | @derived settings title members above globals notes layout s laid up ih =>
    obtain ⟨hsound, hdefinitions⟩ := definition?_layOutClass ih.1 laid
    refine ⟨hsound, fun name => ?_⟩
    show layout.definition? name = _
    rw [hdefinitions, ih.2]
    unfold mostDerived?
    rw [List.map_cons, List.findSome?_cons]
    cases lastDefinition? members name <;> rfl

theorem Lineage.extends (h : Lineage classes) :
    ∀ base ∈ classes, ((classes.head?.map Prod.snd).getD .empty).Extends base.2 := by
  induction h with
  | root => exact nofun
  | derived laid up ih =>
    exact List.forall_mem_cons.mpr ⟨.refl _, fun base hbase => (extends_layOutClass laid).trans (ih base hbase)⟩

theorem Lineage.realises (h : Lineage ((members, layout) :: above)) : layout.Realises members above := by
  have hextends : ∀ base ∈ above, layout.Extends base.2 := fun base hbase => h.extends base (List.mem_cons_of_mem _ hbase)
  obtain ⟨hsound, hdefinitions⟩ := h.definitions
  have hsound : layout.Sound := hsound
  have hdefinitions : ∀ name, layout.definition? name = mostDerived? (members :: above.map Prod.fst) name := hdefinitions
  constructor
  case fields => exact fun base hbase => (hextends base hbase).fields
  case methods => exact fun base hbase => (hextends base hbase).methods
  case full => exact hsound.full
  case distinct => exact hsound.nodup
  case derived =>
    intro slot name hslot
    have hsome : (layout.definition? name).isSome := (hsound.definition?_isSome name).mpr (List.mem_of_getElem? hslot)
    obtain ⟨d, hd⟩ := Option.isSome_iff_exists.mp hsome
    exact ⟨d, (hsound.definition?_of_slot hslot).symm.trans hd, (hdefinitions name).symm.trans hd⟩
  case defined =>
    intro name
    rw [← hdefinitions]
    exact (hsound.definition?_isSome name).symm

/-! ## Machines -/

namespace Machine

/-- The superclasses of a class, the nearest first. -/
def superclasses (m : Machine) (c : Class) : List Class := c.parents.filterMap fun ref => m.classes[ref]?

/-- The body and the layout of a class. -/
def anatomy (c : Class) : List Node × Layout := (c.members, c.layout)

/-- The definition of a method that a class has: the last one in the most derived class that defines it. -/
def inherited? (m : Machine) (c : Class) (name : Text) : Option Definition :=
  mostDerived? (c.members :: (m.superclasses c).map Class.members) name

/-- Every class is laid out on top of its superclasses. -/
structure Inheriting (m : Machine) : Prop where
  parents : ∀ c ∈ m.classes, ∀ ref ∈ c.parents, ref < m.classes.size
  lineage : ∀ c ∈ m.classes, Lineage ((c :: m.superclasses c).map anatomy)

/-- Classes may have been added, and all of them are laid out so. -/
structure Develops (m m' : Machine) : Prop where
  inheriting : m'.Inheriting
  classes : m.classes.toList <+: m'.classes.toList

variable {m m' m'' : Machine}

theorem Inheriting.realises (h : m.Inheriting) (hc : c ∈ m.classes) :
    c.layout.Realises c.members ((m.superclasses c).map anatomy) :=
  (h.lineage c hc).realises

theorem Inheriting.of_classes (h : m.Inheriting) (hclasses : m'.classes = m.classes) : m'.Inheriting := by
  have hsuper : m'.superclasses = m.superclasses := by
    funext c
    unfold superclasses
    rw [hclasses]
  refine ⟨?_, ?_⟩
  · rw [hclasses]
    exact h.parents
  · rw [hclasses, hsuper]
    exact h.lineage

theorem Inheriting.develops (h : m.Inheriting) (hclasses : m'.classes = m.classes) : m.Develops m' :=
  ⟨h.of_classes hclasses, hclasses ▸ List.prefix_rfl⟩

theorem Develops.trans (h : m.Develops m') (h' : m'.Develops m'') : m.Develops m'' :=
  ⟨h'.inheriting, h.classes.trans h'.classes⟩

theorem Inheriting.withClass (h : m.Inheriting) {settings : ResolveSettings} {notes : Notes}
    (hlaid : resolveClass settings title members (m.baseLayout base) globals notes = .ok layout s) (env : Env) :
    m.Develops (m.withClass title (m.parentsOf base) layout members env) := by
  let made := m.withClass title (m.parentsOf base) layout members env
  have hclasses : made.classes = m.classes.push ⟨m.nextClass, title, m.parentsOf base, layout, members, env⟩ := rfl
  -- the superclasses of what was there are where they were
  have hsuper : ∀ c : Class, (∀ ref ∈ c.parents, ref < m.classes.size) → made.superclasses c = m.superclasses c := by
    intro c hparents
    refine List.filterMap_congr fun ref href => ?_
    rw [hclasses, Array.getElem?_push_lt (hparents ref href), Array.getElem?_eq_getElem (hparents ref href)]
  -- the superclass comes next, and its superclasses after it
  have hbase : (∀ ref ∈ m.parentsOf base, ref < m.classes.size) ∧
      ∃ above : List Class, (m.parentsOf base).filterMap (m.classes[·]?) = above ∧ Lineage (above.map anatomy) ∧
        m.baseLayout base = (above.map anatomy).head?.map Prod.snd := by
    cases base with
    | none => exact ⟨List.forall_mem_nil _, [], rfl, .root, rfl⟩
    | some ref =>
      cases hc : m.classes[ref]? with
      | none =>
        have hparents : m.parentsOf (some ref) = [] := by simp [parentsOf, hc]
        rw [hparents]
        exact ⟨List.forall_mem_nil _, [], rfl, .root, by simp [baseLayout, hc]⟩
      | some c =>
        have hparents : m.parentsOf (some ref) = ref :: c.parents := by simp [parentsOf, hc]
        have hmem : c ∈ m.classes := Array.mem_of_getElem? hc
        rw [hparents]
        refine ⟨List.forall_mem_cons.mpr ⟨(Array.getElem?_eq_some_iff.mp hc).1, h.parents c hmem⟩, c :: m.superclasses c,
          ?_, h.lineage c hmem, by simp [baseLayout, hc, anatomy]⟩
        rw [List.filterMap_cons, hc]
        rfl
  obtain ⟨hparents, above, habove, hlineage, hlayout⟩ := hbase
  rw [hlayout] at hlaid
  refine ⟨⟨fun c hc ref href => ?_, fun c hc => ?_⟩, ?_⟩
  · have hsize : made.classes.size = m.classes.size + 1 := by simp [hclasses]
    rcases Array.mem_push.mp hc with hc | rfl
    · exact Nat.lt_of_lt_of_eq (Nat.lt_succ_of_lt (h.parents c hc ref href)) hsize.symm
    · exact Nat.lt_of_lt_of_eq (Nat.lt_succ_of_lt (hparents ref href)) hsize.symm
  · rcases Array.mem_push.mp hc with hc | rfl
    · rw [hsuper c (h.parents c hc)]
      exact h.lineage c hc
    · rw [hsuper _ hparents]
      have hnew : m.superclasses ⟨m.nextClass, title, m.parentsOf base, layout, members, env⟩ = above := habove
      rw [hnew]
      exact .derived hlaid hlineage
  · show m.classes.toList <+: (m.classes.push _).toList
    rw [Array.toList_push]
    exact List.prefix_append ..

end Machine

/-- Classes are added to those of `first`, each laid out on top of its superclass. -/
def Upkeep.developing (first : Machine) : Upkeep :=
  .ofClasses .any first.Develops (fun h hclasses _ _ => h.trans (h.inheriting.develops hclasses))
    (fun h _ _ _ => h.trans (h.inheriting.develops rfl)) fun e h hlaid => h.trans (h.inheriting.withClass hlaid e)

namespace Observed

/-- All classes are laid out as they should be, at all moments, and those of earlier moments are still there. -/
structure Developed (s : Observed) : Prop where
  machine : s.machine.Inheriting
  moments : ∀ moment ∈ s.moments, moment.machine.Inheriting ∧ moment.machine.classes.toList <+: s.machine.classes.toList

variable {α : Type} {Q : α → Prop}

theorem ends_asking (request : Request) {x : Run α}
    (hx : ∀ first around, ∃ E, Ends ((Upkeep.developing first).Upheld around) Q E x) :
    Ends Developed Q (fun _ => True) (asking request x) := by
  intro s hs
  have hdeveloped : ∀ m, s.machine.Develops m → (s.answered request m).Developed := by
    exact fun m hm => ⟨hm.inheriting, List.forall_mem_cons.mpr ⟨⟨hs.machine, hm.classes⟩, fun moment hmoment =>
      ⟨(hs.moments moment hmoment).1, (hs.moments moment hmoment).2.trans hm.classes⟩⟩⟩
  have hstep := Upkeep.ends_of_upheld (hx s.machine) s.machine
    ⟨s.machine.carries_any, fun _ _ => trivial, fun _ _ => trivial, hs.machine.develops rfl⟩
  exact (hstep.imp (fun m hm => hdeveloped m hm.kept) (fun _ => id) fun _ => id).onState

theorem lifts_developed :
    Lifts .any Run.readMember Run.assignMember fun Q x _ => Ends Developed Q (fun _ => True) x where
  pure h := fun _ hs => ⟨hs, h⟩
  throw _ := fun _ hs => ⟨hs, trivial⟩
  bind hx hf := hx.bind hf
  rounds := fun _ hs => ⟨hs, trivial⟩
  asks _ hx := ends_asking _ fun _ around => hx.keeps _ _ _ _ around
  readMember object _ _ _ := ends_asking _ fun _ _ => ⟨_, Upkeep.ends_readMember object trivial⟩
  assignMember target _ _ _ _ hvalue := ends_asking _ fun _ _ => ⟨_, Upkeep.ends_assignMember target trivial hvalue⟩

/-! ## Units -/

theorem developed_evaluate (levels : Nat) (node : Node) (env : Env) :
    Ends Developed (fun v => ∀ n ∈ v.code, True) (fun _ => True) (evaluate levels node env) := by
  induction levels generalizing node env with
  | zero => exact fun _ hs => ⟨⟨hs.machine, hs.moments⟩, trivial⟩
  | succ levels ih =>
    have hnode := @Accord.evaluateNode _ _ _ _ _ _ _ _ lifts_developed.accord (evaluate levels) (Run.evaluate levels)
      (fun _ node env _ => ih node env) .still env node ⟨trivial, trivial⟩
    exact fun s hs => ((hnode s hs).imp (fun _ hs' => ⟨hs'.machine, hs'.moments⟩) (fun _ => id) fun _ => id).onState

theorem developed_runUnit (unit : Node) : Ends Developed (fun _ => True) (fun _ => True) (runUnit unit) := by
  have hplace : Ends Developed (fun _ => True) (fun _ => True) (asking (.placeNames unit) (Run.placeNames unit)) :=
    ends_asking _ fun _ _ => ⟨_, Upkeep.ends_placeNames trivial⟩
  intro s hs
  have hlook : look Machine.settings s = .ok s.machine.settings s := rfl
  have hevaluate := (developed_evaluate s.machine.settings.maxDepth unit Machine.globalEnv).imp fun _ _ => trivial
  unfold runUnit
  rw [bind_of_ok hlook]
  split
  · exact hplace.bind (fun _ _ => hevaluate) s hs
  · exact hevaluate s hs

theorem developed_execute (hs : s.Developed) (unit : Node) : (finalState (execute unit s)).Developed := by
  have hended := developed_runUnit unit (s.executing unit) ⟨hs.machine, hs.moments⟩
  exact (ended_execute hended fun _ _ hs' _ => ⟨hs'.machine, hs'.moments⟩).state

end Observed

end StoneLang
