/-
  Requests that stay in range.

  PROGRAM: what the evaluator asks of the machine (`Request`).

  SPEC: `Request.InRange`: everything that is looked up for a request is there.  The values it hands over and the frames of
  its environment exist; an argument stands at every place that is looked at; a subscript is below the length of its array;
  a member that is found has its slot in the object, or its definition in the class; a method has its class and its size.

  Of an intact machine, each request leads to an intact machine that has grown, and what it gives is valid there
  (`Machine.Lands`).
-/
import StoneLang.Proofs.Heap.Intact
import StoneLang.Proofs.Observation.Observed

namespace StoneLang

open Coupling

/-! ## In range -/

def Machine.FindsMember (m : Machine) (object : Nat) (site : Site) (title : Label) : Prop :=
  (m.classOf? object).isSome ∧ ∀ entry m', m.member object site title = .ok (entry, m') →
    if entry.isField then (Run.fieldAt? m object entry.index).isSome else (Run.methodAt? m object entry.index).isSome

def Machine.HasElement (m : Machine) (place : Nat × Nat) : Prop :=
  ∃ elements, m.arrays[place.1]? = some elements ∧ place.2 < elements.size

/-- What is looked up for a request is there. -/
def Request.InRange (m : Machine) : Request → Prop
  | .placeNames _ => True
  | .readName _ _ env | .makeClosure env .. | .define env .. | .defineClass env .. => m.HasEnv env
  | .assignName _ _ value env => m.HasEnv env ∧ m.Valid value
  | .operate _ a b => m.Valid a ∧ m.Valid b
  | .newArray values => ∀ v ∈ values, m.Valid v
  | .native ref => ref < m.natives.size
  | .callNative n env arguments => m.HasEnv env ∧ (∀ v ∈ arguments, m.Valid v) ∧ n.action.reads ≤ arguments.length
  | .function ref => ref < m.functions.size
  | .enterFunction ref f arguments => m.functions[ref]? = some f ∧ m.HasEnv f.env ∧
    (∀ v ∈ arguments, m.Valid v) ∧ f.parameters.length = arguments.length
  | .className object => (m.classOf? object).isSome
  | .enterMethod object d arguments => (m.classOf? object).isSome ∧ (m.notes.sizes.get? d.site).isSome ∧
    (∀ v ∈ arguments, m.Valid v) ∧ d.parameters.length = arguments.length
  | .classEntry ref => ref < m.classes.size
  | .newObject ref c => m.classes[ref]? = some c
  | .enterInitializers object ref => (m.classOf? object).isSome ∧ ref < m.classes.size
  | .readMember object site title => m.FindsMember object site title
  | .assignMember target site title value => m.Valid target ∧ m.Valid value ∧
    ∀ object, target = .object object → m.FindsMember object site title
  | .element target index => m.Valid target ∧ m.Valid index
  | .readElement ref index => m.HasElement (ref, index)
  | .setElement ref index value => m.HasElement (ref, index) ∧ m.Valid value

/-! ## Actions -/

namespace Machine

/-- The machine has grown and is intact, and the result satisfies `post` there. -/
def Lands {α : Type} (m : Machine) (post : Machine → α → Prop) : EStateM.Result Failure Machine α → Prop
  | .ok a m' => m.Grows m' ∧ m'.Intact ∧ post m' a
  | .error _ m' => m.Grows m' ∧ m'.Intact

variable {m m' : Machine} {α β : Type}

theorem Intact.stays (h : m.Intact) (ha : post m a) : m.Lands post (.ok a m) :=
  ⟨.refl m, h, ha⟩

theorem Intact.fails (h : m.Intact) (e : Failure) : m.Lands post (.error e m) :=
  ⟨.refl m, h⟩

theorem Lands.bind {mid : Machine → α → Prop} {post : Machine → β → Prop} {x : Run α} {f : α → Run β}
    (hx : m.Lands mid (x m)) (hf : ∀ a m', m.Grows m' → m'.Intact → mid m' a → m'.Lands post (f a m')) :
    m.Lands post ((x >>= f) m) := by
  rw [bind_apply]
  generalize x m = res at hx ⊢
  cases res with
  | error e m' => exact hx
  | ok a m' =>
    obtain ⟨hgrows, hintact, ha⟩ := hx
    have hrest := hf a m' hgrows hintact ha
    dsimp only
    generalize f a m' = res at hrest ⊢
    cases res with
    | error e m'' => exact ⟨hgrows.trans hrest.1, hrest.2⟩
    | ok b m'' => exact ⟨hgrows.trans hrest.1, hrest.2⟩

section
variable (h : m.Intact)

include h

theorem lands_readName (site : Site) (word : Word) (env : Env) : m.Lands Valid (Run.readName site word env m) := by
  rw [Run.readName_eq]
  cases hread : m.read site word env with
  | ok value => exact h.stays (h.held.read (fun _ _ _ hd => h.valid_method hd) hread)
  | error cause => exact h.fails _

variable {value : Value} {env : Env} {arguments : List Value} {object : Nat}

theorem reframed {frames : Frames} (hsize : frames.size = m.frames.size) (hframes : frames.Hold m.Valid) :
    m.Grows { m with frames } ∧ Machine.Intact { m with frames } :=
  ⟨grows_withFrames (Nat.le_of_eq hsize.symm), h.withFrames (Nat.le_of_eq hsize.symm) hframes⟩

theorem lands_assignName (site : Site) (word : Word) (hvalue : m.Valid value) (env : Env) :
    m.Lands (fun _ _ => True) (Run.assignName site word value env m) := by
  rw [Run.assignName_eq]
  cases hassigned : m.assigned site word value env with
  | error cause => exact h.fails _
  | ok m' =>
    rcases assigned_cases hassigned with ⟨-, rfl⟩ | ⟨_, index, f, -, -, rfl⟩ | ⟨index, _, object, _, -, -, -, rfl⟩
    · obtain ⟨hgrows, hintact⟩ := reframed h (size_bindIn ..) (h.held.frames.bindIn _ word.text hvalue)
      exact ⟨hgrows, hintact, trivial⟩
    · obtain ⟨hgrows, hintact⟩ := reframed h (size_write ..) (h.held.frames.write f index hvalue)
      exact ⟨hgrows, hintact, trivial⟩
    · exact ⟨grows_withField m object index value, h.withField object index hvalue, trivial⟩

theorem lands_bound (hvalue : m.Valid value)
    (hbound : m.bound env slot name value = .ok m') : m.Grows m' ∧ m'.Intact := by
  rcases bound_cases hbound with ⟨-, rfl⟩ | ⟨index, f, -, -, rfl⟩
  · exact reframed h (size_bindIn ..) (h.held.frames.bindIn _ name hvalue)
  · exact reframed h (size_write ..) (h.held.frames.write f index hvalue)

theorem lands_bind (env : Env) (slot : Option Nat) (name : Text) (hvalue : m.Valid value) (line : Int) :
    m.Lands (fun _ _ => True) (Run.bind env slot name value line m) := by
  rw [Run.bind_eq]
  cases hbound : m.bound env slot name value with
  | error cause => exact h.fails _
  | ok m' =>
    obtain ⟨hgrows, hintact⟩ := lands_bound h hvalue hbound
    exact ⟨hgrows, hintact, trivial⟩

theorem lands_operate (operator : Text) (a b : Value) (line : Int) :
    m.Lands Valid (Actions.machine.operate operator a b line m) := by
  show m.Lands _ (Run.ofCause line (binaryOperation m operator a b) m)
  cases hvalue : binaryOperation m operator a b with
  | ok value => exact h.stays (valid_of_isFlat (isFlat_binaryOperation hvalue))
  | error cause => exact h.fails _

theorem lands_newArray {values : List Value} (hvalues : ∀ v ∈ values, m.Valid v) :
    m.Lands Valid (Run.newArray values.toArray m) := by
  have hpush : m.arrays.size < (m.arrays.push values.toArray).size := by simp
  have hgrows : m.Grows { m with arrays := m.arrays.push values.toArray } :=
    { Grows.refl m with arrays := Nat.le_of_lt hpush }
  exact ⟨hgrows, h.overwritten hgrows rfl rfl rfl (h.held.newArray (by simpa using hvalues)) rfl rfl h.objects, hpush⟩

theorem lands_newFunction (henv : m.HasEnv f.env) : m.Lands Valid (Run.newFunction f m) := by
  have hpush : m.functions.size < (m.functions.push f).size := by simp
  have hgrows : m.Grows { m with functions := m.functions.push f } := { Grows.refl m with functions := by simp }
  have hheld := h.held.mono fun _ hv => Valid.later hgrows hv
  exact ⟨hgrows, h.stepped hgrows rfl rfl rfl ⟨hheld.frames, hheld.arrays, hheld.objects⟩
    (fun other hother => (Array.mem_push.mp hother).elim .inl (.inr <| · ▸ henv)) (fun _ hn => .inl hn) h.objects, hpush⟩

theorem lands_makeFunction (henv : m.HasEnv env) (site : Site) (name : Text) (params : List Label) (body : List Node) :
    m.Lands Valid (Run.makeFunction env site name params body m) :=
  lands_newFunction h (f := ⟨name, params.map Label.text, .block body, env, m.notes.sizes.get? site⟩) henv

theorem lands_define (henv : m.HasEnv env) (site : Site) (title : Label) (params : List Label) (body : List Node)
    (line : Int) :
    m.Lands Valid (Actions.machine.define env site title params body line m) := by
  refine Lands.bind (lands_makeFunction h henv site title.text params body) fun function m' _ hm' hfunction => ?_
  rw [get_bind_apply]
  exact Lands.bind (lands_bind hm' env _ title.text hfunction line) fun _ _ _ hbound _ => hbound.stays trivial

theorem lands_newFrame (hframe : frame.Holds m.Valid) :
    m.Lands (fun m' f => f < m'.frames.size) (Run.newFrame frame m) := by
  have hpush : m.frames.size < (m.frames.push frame).size := by simp
  exact ⟨grows_withFrames (Nat.le_of_lt hpush), h.withFrames (Nat.le_of_lt hpush) (h.held.frames.push hframe), hpush⟩

theorem lands_enter {frame : Except SlotFault Frame} (hframe : ∀ f, frame = .ok f → f.Holds m.Valid)
    (henv : m.HasEnv env) : m.Lands HasEnv (Actions.enter frame env m) := by
  cases frame with
  | error reason => exact h.fails _
  | ok frame =>
    exact Lands.bind (lands_newFrame h (hframe frame rfl)) fun f m' hgrows hm' hf =>
      hm'.stays (.cons hf (henv.later hgrows))

theorem lands_enterFunction (ref : Nat) (henv : m.HasEnv f.env)
    (harguments : ∀ v ∈ arguments, m.Valid v) :
    m.Lands HasEnv (Actions.machine.enterFunction ref f arguments m) := by
  refine lands_enter h (fun frame hframe => ?_) henv
  unfold Actions.functionFrame at hframe
  split at hframe
  · cases hframe
    exact holds_namedFrame f.parameters harguments
  · exact (holds_slotFrame hframe harguments).2

theorem lands_enterMethod (hmethod : m.Valid (.method object d))
    (harguments : ∀ v ∈ arguments, m.Valid v) :
    m.Lands HasEnv (Actions.machine.enterMethod object d arguments m) := by
  obtain ⟨o, c, -, hc, -⟩ := h.classOf hmethod.1
  have henv : Actions.methodEnv m object = c.env := by
    unfold Actions.methodEnv
    rw [hc]
  have hall : ∀ v ∈ Value.object object :: arguments, m.Valid v := List.forall_mem_cons.mpr ⟨hmethod.1, harguments⟩
  show m.Lands _ (Actions.enter _ (Actions.methodEnv m object) m)
  rw [henv]
  exact lands_enter h (fun frame hframe => (holds_slotFrame hframe hall).2) (h.classes c (mem_of_classOf? hc)).env

theorem lands_newObject (hc : m.classes[ref]? = some c) :
    m.Lands (fun m' made => made.1 < m'.objects.size ∧ ∀ r ∈ made.2, r < m'.classes.size)
      (Actions.machine.newObject ref c m) := by
  let o : Object := ⟨ref, Array.replicate c.layout.fieldCount .null⟩
  have hpush : m.objects.size < (m.objects.push o).size := by simp
  have hgrows : m.Grows { m with objects := m.objects.push o } := { Grows.refl m with objects := Nat.le_of_lt hpush }
  have hnull : ∀ v ∈ o.fields, m.Valid v := by
    intro v hv
    rw [(Array.mem_replicate.mp hv).2]
    trivial
  have hobjects : ∀ other ∈ m.objects.push o, m.Fits other :=
    Array.forall_mem_push.mpr ⟨⟨c, hc, Array.size_replicate⟩, h.objects⟩
  refine ⟨hgrows, h.overwritten hgrows rfl rfl rfl (h.held.newObject hnull) rfl rfl hobjects, hpush, fun r hr => ?_⟩
  have hlineage : m.lineage ref = (ref :: c.parents).reverse := by
    unfold lineage
    rw [hc]
  have hr : r ∈ m.lineage ref := hr
  rw [hlineage, List.mem_reverse] at hr
  rcases List.mem_cons.mp hr with rfl | hr
  · exact (Array.getElem?_eq_some_iff.mp hc).1
  · exact (h.classes c (Array.mem_of_getElem? hc)).parents r hr

theorem lands_enterInitializers (hobject : object < m.objects.size) (ref : Nat) :
    m.Lands (fun m' found => ∀ env members, found = some (env, members) → m'.HasEnv env)
      (Actions.machine.enterInitializers object ref m) := by
  rw [Actions.enterInitializers_machine]
  cases hc : m.classes[ref]? with
  | none => exact h.stays fun _ _ hnone => by cases hnone
  | some c =>
    have hvalue : m.Valid (.object object) := hobject
    obtain ⟨hgrows, hintact, hframe⟩ := lands_newFrame h (holds_receiver hvalue)
    refine ⟨hgrows, hintact, fun env members hsome => ?_⟩
    cases hsome
    exact .cons hframe ((h.classes c (Array.mem_of_getElem? hc)).env.later hgrows)

theorem findsMember (hobject : object < m.objects.size) (site : Site) (title : Label) :
    m.FindsMember object site title := by
  obtain ⟨o, c, ho, hc, hsize⟩ := h.classOf hobject
  refine ⟨h.isSome_classOf hobject, fun entry m' hmember => ?_⟩
  obtain ⟨hcovers, -, -⟩ := h.member hc hmember
  unfold Layout.Covers at hcovers
  split
  · rename_i hfield
    rw [if_pos hfield, ← hsize] at hcovers
    simp [Run.fieldAt?, ho, hcovers]
  · rename_i hmethod
    rw [if_neg hmethod] at hcovers
    simp [Run.methodAt?, hc, hcovers]

theorem lands_readMember (hobject : object < m.objects.size) (site : Site) (title : Label) :
    m.Lands Valid (Run.readMember object site title m) := by
  obtain ⟨o, c, -, hc, -⟩ := h.classOf hobject
  rw [Run.readMember_eq]
  cases hmember : m.member object site title with
  | error cause => exact h.fails _
  | ok found =>
    obtain ⟨entry, m'⟩ := found
    obtain ⟨-, hgrows, hintact⟩ := h.member hc hmember
    exact ⟨hgrows, hintact, hintact.held.memberValue trivial entry fun d hd => hintact.valid_method hd⟩

theorem lands_assignMember (htarget : m.Valid target) (site : Site) (title : Label)
    (hvalue : m.Valid value) : m.Lands (fun _ _ => True) (Run.assignMember target site title value m) := by
  cases target with
  | object object =>
    obtain ⟨o, c, -, hc, -⟩ := h.classOf htarget
    rw [Run.assignMember_eq]
    cases hmember : m.member object site title with
    | error cause => exact h.fails _
    | ok found =>
      obtain ⟨entry, m'⟩ := found
      obtain ⟨-, hgrows, hintact⟩ := h.member hc hmember
      dsimp only
      split
      · exact ⟨hgrows.trans (grows_withField m' object entry.index value),
          hintact.withField object entry.index (hvalue.later hgrows), trivial⟩
      · exact ⟨hgrows, hintact⟩
  | _ => exact h.fails _

theorem lands_element (target index : Value) (line : Int) : m.Lands HasElement (Run.element target index line m) := by
  rcases Run.element_cases target index line m with ⟨ref, i, -, -, hnonneg, hlt, hx⟩ | ⟨cause, -, hx⟩
  · rw [hx]
    refine h.stays ?_
    cases ha : m.arrays[ref]? with
    | none =>
      rw [ha] at hlt
      have hempty : i.toInt < 0 := hlt
      omega
    | some elements =>
      rw [ha, Option.getD_some] at hlt
      have hindex : i.toInt.toNat < elements.size := by omega
      exact ⟨elements, ha, hindex⟩
  · rw [hx]
    exact h.fails _

theorem lands_setElement (ref index : Nat) (hvalue : m.Valid value) :
    m.Lands (fun _ _ => True) (Run.setElement ref index value m) := by
  have hgrows : m.Grows { m with arrays := m.arrays.modify ref fun a => a.setIfInBounds index value } :=
    { Grows.refl m with arrays := by simp }
  exact ⟨hgrows, h.overwritten hgrows rfl rfl rfl (h.held.setElement ref index hvalue) rfl rfl h.objects, trivial⟩

theorem lands_callNative (native : Native) (env : Env) (line : Int) (harguments : ∀ v ∈ arguments, m.Valid v) :
    m.Lands Valid (Run.callNative native env line arguments m) := by
  -- what a standard native changes is read by nothing here
  have hstreams : ∀ s : Machine, m.Grows (m.withStreamsOf s) ∧ (m.withStreamsOf s).Intact := by
    intro s
    have hgrows : m.Grows (m.withStreamsOf s) := { Grows.refl m with }
    exact ⟨hgrows, h.overwritten hgrows rfl rfl rfl ⟨h.held.frames, h.held.arrays, h.held.objects⟩ rfl rfl h.objects⟩
  have hends := Run.ends_callNative native env line arguments m
  generalize Run.callNative native env line arguments m = x at hends ⊢
  cases hends with
  | flat s hflat => exact ⟨(hstreams s).1, (hstreams s).2, valid_of_isFlat hflat⟩
  | @found name =>
    refine h.stays (a := (m.frames.get? name env).getD .null) ?_
    cases hvalue : m.frames.get? name env with
    | none => trivial
    | some value => exact h.held.frames.get? hvalue
  | collected => exact lands_newArray h harguments
  | broken source => exact hstreams { m with input := { m.input with source } }
  | _ => exact h.fails _

theorem lands_placeNames (unit : Node) : m.Lands (fun _ _ => True) (Run.placeNames unit m) := by
  have hcaches := caches_resolve ⟨m.settings.maxDepth, m.settings.watched⟩ unit m.globalNames m.notes
  have hsizes := Resolve.keepsSizes_visitWithin ⟨m.settings.maxDepth, m.settings.watched⟩ m.settings.maxDepth unit
    (.start m.globalNames m.notes)
  have hplaced : ∀ s : Resolving, s.notes.caches = m.notes.caches →
      (∀ site : Nat, (m.notes.sizes.get? site).isSome → (s.notes.sizes.get? site).isSome) →
      m.Grows (m.placed s) ∧ (m.placed s).Intact := by
    intro s hcaches hsizes
    have hgrows : m.Grows (m.placed s) :=
      { Grows.refl m with frames := by simp [placed, withGlobalNames], sizes := hsizes }
    have hheld := h.held.withGlobalNames s.scope.outermostNames
    exact ⟨hgrows, h.overwritten hgrows rfl rfl hcaches ⟨hheld.frames, hheld.arrays, hheld.objects⟩ rfl rfl h.objects⟩
  rw [Run.placeNames_eq]
  unfold resolve visit at hcaches ⊢
  cases hres : visitWithin ⟨m.settings.maxDepth, m.settings.watched⟩ m.settings.maxDepth unit
      (.start m.globalNames m.notes) with
  | ok _ s =>
    rw [hres] at hcaches hsizes
    obtain ⟨hgrows, hintact⟩ := hplaced s hcaches hsizes
    exact ⟨hgrows, hintact, trivial⟩
  | error e s =>
    rw [hres] at hcaches hsizes
    exact hplaced s hcaches hsizes

theorem lands_defineClass (henv : m.HasEnv env) (site : Site) (title : Label) (parent : Option Label)
    (members : List Node) (line : Int) :
    m.Lands Valid (Run.defineClass env site title parent members line m) := by
  rcases Run.defineClass_cases env site title parent members line m with ⟨cause, -, hdefine⟩ | ⟨base, -, hlaying⟩
  · rw [hdefine]
    exact h.fails _
  have hcaches := caches_resolveClass ⟨m.settings.maxDepth, m.settings.watched⟩ title.text members (m.baseLayout base)
    m.globalNames m.notes
  have hsizes : ∀ site : Nat, (m.notes.sizes.get? site).isSome → ((finalState (resolveClass
      ⟨m.settings.maxDepth, m.settings.watched⟩ title.text members (m.baseLayout base) m.globalNames m.notes)).notes.sizes.get?
        site).isSome :=
    fun site => Resolve.keepsSizes_layOutClass _ _ _ _ (.start m.globalNames m.notes) site
  rcases hlaying with ⟨e, s, hlaid, hdefine⟩ | ⟨layout, s, made, hlaid, rfl, hbinding⟩
  · rw [hlaid] at hcaches hsizes
    rw [hdefine]
    exact ⟨grows_laidOut hsizes, h.laidOut hcaches hsizes⟩
  · rw [hlaid] at hcaches hsizes
    have hlaidOut := h.laidOut hcaches hsizes
    have hgrows := grows_laidOut hsizes
    obtain ⟨hparents, hsound, hsized⟩ := h.base base
    have hhosts : (m.laidOut s).Hosts ⟨m.nextClass, title.text, m.parentsOf base, layout, members, env⟩ := by
      exact ⟨henv.later hgrows, hparents, (definition?_layOutClass hsound hlaid).1, fun d hd =>
        (definitions_layOutClass hlaid d hd).elim (fun hbase => hsizes d.site (hsized d hbase)) (sized_layOutClass hlaid)⟩
    have hmade := hlaidOut.withClass title.text members hhosts
    have hgrown := hgrows.trans (grows_withClass (m.laidOut s) title.text (m.parentsOf base) layout members env)
    rcases hbinding with ⟨cause, -, hdefine⟩ | ⟨bound, record, hbound, hdefine⟩
    · rw [hdefine]
      exact ⟨hgrown, hmade⟩
    · rw [hdefine]
      have hvalue : ((m.laidOut s).withClass title.text (m.parentsOf base) layout members env).Valid
          (.classValue m.classes.size) := by
        show m.classes.size < (m.classes.push _).size
        simp
      obtain ⟨hgrows', hbound⟩ := lands_bound hmade hvalue hbound
      exact ⟨(hgrown.trans hgrows').note record, hbound.note record, trivial⟩

end

end Machine

end StoneLang
