/-
  Machines that differ in what no program sees.

  A `Variant` says how the second of two machines differs from the first: its limit of nesting is higher, it is watched
  or not, it has another journal, and member accesses have other memories (`Machine.under`).  A `Guise` says besides that
  the counters of the second machine are elsewhere, those of its classes and of its sites (`Machine.guised`).  Nearly
  everything that the evaluator does to a machine, it does to one in a guise as well, with the same result
  (`Run.Indifferent`).  Besides, what has been written stays written.
-/
import StoneLang.Proofs.Evaluation.Actions
import StoneLang.Proofs.Evaluation.Natives
import StoneLang.Proofs.Settings.Placing

namespace StoneLang

/-- How one machine differs from another. -/
structure Variant where
  /-- By how much its limit of nesting is higher. -/
  deeper : Nat
  /-- Whether it is watched. -/
  watched : Bool
  /-- What it remembers of members. -/
  memory : SiteMap MemberCache → SiteMap MemberCache

/-- The machine as a variant has it, with the journal that it has there. -/
def Machine.under (m : Machine) (v : Variant) (records : Array Record) : Machine :=
  { m with
    settings := { m.settings with maxDepth := m.settings.maxDepth + v.deeper, watched := v.watched }
    notes := m.notes.remembering v.memory
    records }

/-- How one machine differs from another, its counters included. -/
structure Guise extends Variant where
  /-- By how much the numbers of its classes are higher. -/
  step : Nat
  /-- Where its sites go on. -/
  site : Site → Site

/-- A variant whose classes have higher numbers. -/
abbrev Variant.numbered (v : Variant) (step : Nat) : Guise := { v with step, site := id }

/-- A variant whose counters are where they were. -/
abbrev Variant.guise (v : Variant) : Guise := v.numbered 0

def Class.raised (step : Nat) (c : Class) : Class := { c with id := c.id + step }

def MemberCache.raised (step : Nat) (entry : MemberCache) : MemberCache := { entry with classId := entry.classId + step }

/-- The machine in a guise, with the journal that it has there. -/
def Machine.guised (m : Machine) (v : Guise) (records : Array Record) : Machine :=
  { m.under v.toVariant records with
    classes := m.classes.map (Class.raised v.step)
    nextClass := m.nextClass + v.step
    nextSite := v.site m.nextSite }

/-- Member accesses remember the same in this guise, but for the numbers of classes. -/
structure Guise.Recalls (v : Guise) : Prop where
  get? : ∀ caches site, (v.memory caches).get? site = (caches.get? site).map (MemberCache.raised v.step)
  set : ∀ caches site entry, v.memory (caches.set site entry) = (v.memory caches).set site (entry.raised v.step)

theorem Variant.recalls {v : Variant} (hmemory : v.memory = id) : v.guise.Recalls := by
  have hraised : MemberCache.raised 0 = id := rfl
  have hmemory : v.guise.memory = id := hmemory
  refine ⟨fun caches site => ?_, fun caches site entry => ?_⟩
  · rw [hmemory]
    show _ = (caches.get? site).map (MemberCache.raised 0)
    rw [hraised, Option.map_id]
    rfl
  · rw [hmemory]
    rfl

theorem Machine.guised_guise (m : Machine) (v : Variant) (records : Array Record) :
    m.guised v.guise records = m.under v records := by
  have hclasses : m.classes.map (Class.raised 0) = m.classes := Array.map_id m.classes
  unfold guised
  rw [show v.guise.step = 0 from rfl, hclasses]
  rfl

/-- What is in the first output stands at the beginning of the second. -/
def Output.Before (o o' : Output) : Prop := o.chunks.toList <+: o'.chunks.toList

theorem Output.Before.refl (o : Output) : o.Before o := List.prefix_refl _

variable {o o' : Output} {m m' : Machine} {site : Site} {value : Value} {env : Env}

theorem Output.Before.trans (h : o.Before o') (h' : o'.Before o'') : o.Before o'' :=
  List.IsPrefix.trans h h'

theorem Output.Before.of_eq (h : o' = o) : o.Before o' := h ▸ .refl o

theorem Output.Before.text (h : o.Before o') : o.text <+: o'.text := by
  obtain ⟨more, hmore⟩ := h
  exact ⟨more.flatten, by rw [Output.text, Output.text, ← hmore, List.flatten_append]⟩

theorem Output.before_write (o : Output) (t : Text) : o.Before (o.write t) := by
  refine ⟨[t], ?_⟩
  simp [write]

variable {v : Guise} {α β : Type}

namespace Machine

variable (m : Machine) (v : Guise) (records : Array Record)

/-! ## What looks the same in a guise -/

theorem places_guised : (m.guised v records).notes.places = m.notes.places := rfl

theorem frames_guised : (m.guised v records).frames = m.frames := rfl

theorem receiver?_guised : (m.guised v records).receiver? env = m.receiver? env := rfl

theorem fieldAt?_guised : Run.fieldAt? (m.guised v records) = Run.fieldAt? m := rfl

theorem class?_guised (ref : Nat) : (m.guised v records).classes[ref]? = (m.classes[ref]?).map (Class.raised v.step) :=
  Array.getElem?_map ..

theorem classOf?_guised (object : Nat) :
    (m.guised v records).classOf? object = (m.classOf? object).map (Class.raised v.step) := by
  have hobjects : (m.guised v records).objects = m.objects := rfl
  unfold classOf?
  rw [hobjects]
  cases m.objects[object]? with
  | none => rfl
  | some o => exact m.class?_guised v records o.classRef

theorem className_guised (object : Nat) : (m.guised v records).className object = m.className object := by
  unfold className
  rw [classOf?_guised]
  cases m.classOf? object <;> rfl

theorem methodAt?_guised (object index : Nat) :
    Run.methodAt? (m.guised v records) object index = Run.methodAt? m object index := by
  unfold Run.methodAt?
  rw [classOf?_guised]
  cases m.classOf? object <;> rfl

theorem lineage_guised (ref : Nat) : (m.guised v records).lineage ref = m.lineage ref := by
  unfold lineage
  rw [class?_guised]
  cases m.classes[ref]? <;> rfl

theorem read_guised (site : Site) (word : Word) (env : Env) :
    (m.guised v records).read site word env = m.read site word env := by
  unfold read
  simp only [places_guised, frames_guised, receiver?_guised, fieldAt?_guised, methodAt?_guised, className_guised]

theorem assigned_guised (site : Site) (word : Word) (value : Value) (env : Env) :
    (m.guised v records).assigned site word value env
      = (m.assigned site word value env).map (·.guised v records) := by
  unfold assigned
  simp only [places_guised, frames_guised, receiver?_guised, fieldAt?_guised, className_guised]
  repeat' split
  all_goals rfl

theorem bound_guised (env : Env) (slot : Option Nat) (name : Text) (value : Value) :
    (m.guised v records).bound env slot name value = (m.bound env slot name value).map (·.guised v records) := by
  unfold bound
  cases slot with
  | none => rfl
  | some index =>
    dsimp only
    rw [frames_guised]
    cases m.frames.slotOwner env 0 index <;> rfl

theorem superclass_guised (env : Env) (parent : Option Label) :
    (m.guised v records).superclass env parent = m.superclass env parent :=
  rfl

theorem render_guised (value : Value) : (m.guised v records).render value = m.render value := by
  have hflat : ∀ value, (m.guised v records).renderFlat value = m.renderFlat value := by
    intro value
    cases value with
    | classValue ref =>
      simp only [renderFlat, class?_guised, Option.map_map]
      rfl
    | object ref => simp only [renderFlat, className_guised]
    | method receiver d => simp only [renderFlat, className_guised]
    | _ => rfl
  exact @render_congr m (m.guised v records) rfl hflat value

theorem binaryOperation_guised (operator : Text) (a b : Value) :
    binaryOperation (m.guised v records) operator a b = binaryOperation m operator a b := by
  unfold binaryOperation
  simp only [render_guised]

end Machine

theorem Machine.output_assigned (h : m.assigned site word value env = .ok m') : m'.output = m.output := by
  rcases assigned_cases h with ⟨-, rfl⟩ | ⟨-, -, -, -, -, rfl⟩ | ⟨-, -, -, -, -, -, -, rfl⟩ <;> rfl

theorem Machine.output_bound (h : m.bound env slot name value = .ok m') : m'.output = m.output := by
  rcases bound_cases h with ⟨-, rfl⟩ | ⟨-, -, -, -, rfl⟩ <;> rfl

theorem Machine.member_guised (hv : v.Recalls) (m : Machine) (records : Array Record) (object : Nat)
    (site : Site) (title : Label) :
    (m.guised v records).member object site title
      = (m.member object site title).map fun found => (found.1.raised v.step, found.2.guised v records) := by
  have hcaches : (m.guised v records).notes.caches.get? site = (m.notes.caches.get? site).map (MemberCache.raised v.step) :=
    hv.get? _ site
  have hremember : ∀ entry, (m.guised v records).remembering site (entry.raised v.step)
      = (m.remembering site entry).guised v records := by
    intro entry
    simp only [remembering, guised, under, Notes.remembering, hv.set]
  unfold member
  rw [classOf?_guised, hcaches]
  cases m.classOf? object with
  | none => rfl
  | some c =>
    have hsearch : searchMember (c.raised v.step) title.text
        = (searchMember c title.text).map (MemberCache.raised v.step) := by
      have hlayout : (c.raised v.step).layout = c.layout := rfl
      unfold searchMember
      rw [hlayout]
      cases c.layout.field? title.text with
      | some index => rfl
      | none => cases c.layout.method? title.text <;> rfl
    have hfilter : ((m.notes.caches.get? site).map (MemberCache.raised v.step)).filter
          (fun entry => entry.classId == (c.raised v.step).id)
        = ((m.notes.caches.get? site).filter fun entry => entry.classId == c.id).map (MemberCache.raised v.step) := by
      cases m.notes.caches.get? site with
      | none => rfl
      | some entry =>
        have hid : ((entry.raised v.step).classId == (c.raised v.step).id) = (entry.classId == c.id) := by
          show (entry.classId + v.step == c.id + v.step) = (entry.classId == c.id)
          rw [Bool.eq_iff_iff, beq_iff_eq, beq_iff_eq, Nat.add_right_cancel_iff]
        simp only [Option.map_some, Option.filter, hid]
        split <;> rfl
    dsimp only [Option.map_some]
    rw [hfilter, hsearch]
    cases (m.notes.caches.get? site).filter fun entry => entry.classId == c.id with
    | some entry => rfl
    | none =>
      dsimp only [Option.map_none]
      cases searchMember c title.text with
      | none => rfl
      | some entry =>
        dsimp only [Option.map_some]
        rw [hremember]
        rfl

theorem Machine.memberValue_guised (m : Machine) (records : Array Record) (object : Nat) (entry : MemberCache) :
    (m.guised v records).memberValue object (entry.raised v.step) = m.memberValue object entry := by
  unfold memberValue
  rw [fieldAt?_guised, methodAt?_guised]
  rfl

theorem Machine.output_member (h : m.member object site title = .ok found) : found.2.output = m.output := by
  unfold member at h
  repeat' split at h
  all_goals
    cases h
    try rfl

namespace Run

/-! ## Actions that do the same in a guise -/

/-- The action does the same to a variant, and what has been written stays written. -/
structure Indifferent (v : Guise) (x : Run α) : Prop where
  same : ∀ (m : Machine) (records : Array Record), ∃ records', x (m.guised v records) = onState (Machine.guised · v records') (x m)
  writes : ∀ m : Machine, m.output.Before (finalState (x m)).output

theorem Indifferent.pure (a : α) : Indifferent v (Pure.pure a) := ⟨fun _ records => ⟨records, rfl⟩, fun _ => .refl _⟩

theorem Indifferent.throw (e : Failure) : Indifferent v (MonadExcept.throw e : Run α) :=
  ⟨fun _ records => ⟨records, rfl⟩, fun _ => .refl _⟩

/-- What a sequence of actions writes stays written if what each of them writes does. -/
theorem before_bind {x : Run α} {f : α → Run β} (hx : o.Before (finalState (x m)).output)
    (hf : ∀ a m', x m = .ok a m' → m'.output.Before (finalState (f a m')).output) :
    o.Before (finalState ((x >>= f) m)).output :=
  finalState_bind (P := fun m => o.Before m.output) hx fun a m' hres h => h.trans (hf a m' hres)

theorem Indifferent.bind (hx : Indifferent v x) (hf : ∀ a, Indifferent v (f a)) : Indifferent v (x >>= f) where
  same m records := by
    obtain ⟨records', hsame⟩ := hx.same m records
    rw [bind_apply, bind_apply, hsame]
    cases x m with
    | ok a m' => exact (hf a).same m' records'
    | error e m' => exact ⟨records', rfl⟩
  writes m := before_bind (hx.writes m) fun a m' _ => (hf a).writes m'

/-- An action that looks at the machine and goes on with what looks the same in a guise. -/
theorem indifferent_get (hf : ∀ m records, f (m.guised v records) = f m)
    (h : ∀ m, Indifferent v (f m)) : Indifferent v (get >>= f) where
  same m records := by
    rw [get_bind_apply, get_bind_apply, hf]
    exact (h m).same m records
  writes m := (h m).writes m

theorem indifferent_modifyGet (hf : ∀ m records, f (m.guised v records) = ((f m).1, (f m).2.guised v records))
    (hwrites : ∀ m : Machine, m.output.Before (f m).2.output) : Indifferent v (modifyGet f : Run α) where
  same m records := by
    refine ⟨records, ?_⟩
    show EStateM.Result.ok (f (m.guised v records)).1 (f (m.guised v records)).2 = _
    rw [hf]
    rfl
  writes m := hwrites m

theorem indifferent_readName (site : Site) (word : Word) (env : Env) : Indifferent v (readName site word env) where
  same m records := by
    rw [readName_eq, readName_eq, Machine.read_guised]
    cases m.read site word env <;> exact ⟨records, rfl⟩
  writes m := by
    rw [readName_eq]
    cases m.read site word env <;> exact .refl _

theorem indifferent_assignName (site : Site) (word : Word) (value : Value) (env : Env) :
    Indifferent v (assignName site word value env) where
  same m records := by
    rw [assignName_eq, assignName_eq, Machine.assigned_guised]
    cases m.assigned site word value env <;> exact ⟨records, rfl⟩
  writes m := by
    rw [assignName_eq]
    cases hassigned : m.assigned site word value env with
    | error cause => exact .refl _
    | ok m' => exact .of_eq (Machine.output_assigned hassigned)

theorem indifferent_bind (env : Env) (slot : Option Nat) (name : Text) (value : Value) (line : Int) :
    Indifferent v (bind env slot name value line) where
  same m records := by
    rw [bind_eq, bind_eq, Machine.bound_guised]
    cases m.bound env slot name value <;> exact ⟨records, rfl⟩
  writes m := by
    rw [bind_eq]
    cases hbound : m.bound env slot name value with
    | error cause => exact .refl _
    | ok m' => exact .of_eq (Machine.output_bound hbound)

theorem indifferent_makeFunction (env : Env) (site : Site) (name : Text) (params : List Label) (body : List Node) :
    Indifferent v (makeFunction env site name params body) :=
  indifferent_get (fun _ _ => rfl) fun _ => indifferent_modifyGet (fun _ _ => rfl) fun _ => .refl _

theorem indifferent_define (env : Env) (site : Site) (title : Label) (params : List Label) (body : List Node)
    (line : Int) : Indifferent v (Actions.machine.define env site title params body line) :=
  (indifferent_makeFunction env site title.text params body).bind fun function =>
    indifferent_get (fun _ _ => rfl) fun _ => (indifferent_bind env _ title.text function line).bind fun _ => .pure _

theorem indifferent_operate (operator : Text) (a b : Value) (line : Int) :
    Indifferent v (Actions.machine.operate operator a b line) := by
  refine indifferent_get (fun m records => ?_) fun m => ?_
  · rw [Machine.binaryOperation_guised]
  · cases binaryOperation m operator a b with
    | ok value => exact .pure value
    | error cause => exact .throw _

theorem indifferent_newFrame (frame : Frame) : Indifferent v (newFrame frame) :=
  indifferent_modifyGet (fun _ _ => rfl) fun _ => .refl _

theorem indifferent_enter (frame : Except SlotFault Frame) (env : Env) : Indifferent v (Actions.enter frame env) := by
  cases frame with
  | ok frame => exact (indifferent_newFrame frame).bind fun _ => .pure _
  | error reason => exact .throw _

theorem indifferent_enterMethod (object : Nat) (d : Definition) (arguments : List Value) :
    Indifferent v (Actions.machine.enterMethod object d arguments) := by
  refine indifferent_get (fun m records => ?_) fun _ => indifferent_enter _ _
  have hsizes : (m.guised v records).notes.sizes = m.notes.sizes := rfl
  have henv : Actions.methodEnv (m.guised v records) object = Actions.methodEnv m object := by
    unfold Actions.methodEnv
    rw [Machine.classOf?_guised]
    cases m.classOf? object <;> rfl
  rw [hsizes, henv]

theorem indifferent_newObject (ref : Nat) (c : Class) : Indifferent v (Actions.machine.newObject ref c) :=
  Indifferent.bind (indifferent_modifyGet (fun _ _ => rfl) fun _ => .refl _) fun _ =>
    indifferent_get (fun m records => by rw [m.lineage_guised v records]) fun _ => .pure _

theorem indifferent_enterInitializers (object ref : Nat) :
    Indifferent v (Actions.machine.enterInitializers object ref) := by
  refine indifferent_get (fun m records => ?_) fun m => ?_
  · rw [Machine.class?_guised]
    cases m.classes[ref]? <;> rfl
  cases m.classes[ref]? with
  | none => exact .pure none
  | some c => exact (indifferent_newFrame _).bind fun _ => .pure _

theorem indifferent_element (target index : Value) (line : Int) : Indifferent v (element target index line) := by
  cases target with
  | array ref =>
    cases index with
    | integer i =>
      refine indifferent_get (fun _ _ => rfl) fun m => ?_
      dsimp only
      split
      · exact .throw _
      · exact .pure _
    | _ => exact .throw _
  | _ => cases index <;> exact .throw _

/-! ## Natives -/

theorem indifferent_callNative (native : Native) (env : Env) (line : Int) (arguments : List Value) :
    Indifferent v (callNative native env line arguments) where
  same m records := by
    refine ⟨records, ?_⟩
    by_cases hstandard : native.IsStandard
    · have hstreams : m.SameStreams (m.guised v records) := ⟨rfl, rfl, rfl, rfl, m.render_guised v records⟩
      have hfinal := finalState_callNative hstandard env line arguments m
      rw [callNative_standard hstreams hstandard env env line arguments]
      cases hres : callNative native env line arguments m with
      | ok value s | error e s =>
        rw [hres] at hfinal
        have hfinal : s = m.withStreamsOf s := hfinal
        rw [hfinal]
        rfl
    · obtain ⟨action, haction⟩ := Classical.not_forall.mp hstandard
      unfold callNative
      rw [Classical.not_not.mp haction]
      cases action <;> rfl
  writes m := by
    have hends := ends_callNative native env line arguments m
    generalize callNative native env line arguments m = x at hends ⊢
    cases hends with
    | flat s _ _ houtput =>
      rcases houtput with houtput | ⟨t, houtput⟩
      · exact .of_eq houtput
      · show m.output.Before s.output
        exact houtput ▸ m.output.before_write t
    | _ => exact .refl _

/-! ## Members -/

theorem indifferent_readMember (hv : v.Recalls) (object : Nat) (site : Site) (title : Label) :
    Indifferent v (readMember object site title) where
  same m records := by
    rw [readMember_eq, readMember_eq, Machine.member_guised hv]
    cases m.member object site title with
    | error cause => exact ⟨records, rfl⟩
    | ok found =>
      refine ⟨records, ?_⟩
      dsimp only [Except.map]
      rw [Machine.memberValue_guised]
      rfl
  writes m := by
    rw [readMember_eq]
    cases hmember : m.member object site title with
    | error cause => exact .refl _
    | ok found => exact .of_eq (Machine.output_member hmember)

theorem indifferent_assignMember (hv : v.Recalls) (target : Value) (site : Site) (title : Label)
    (value : Value) : Indifferent v (assignMember target site title value) := by
  cases target with
  | object object =>
    refine ⟨fun m records => ?_, fun m => ?_⟩
    · rw [assignMember_eq, assignMember_eq, Machine.member_guised hv]
      cases m.member object site title with
      | error cause => exact ⟨records, rfl⟩
      | ok found =>
        refine ⟨records, ?_⟩
        have hfield : (found.1.raised v.step).isField = found.1.isField := rfl
        dsimp only [Except.map]
        rw [hfield, Machine.className_guised]
        cases found.1.isField <;> rfl
    · rw [assignMember_eq]
      cases hmember : m.member object site title with
      | error cause => exact .refl _
      | ok found =>
        dsimp only
        cases found.1.isField <;> exact .of_eq (Machine.output_member hmember)
  | _ => exact .throw _

end Run

end StoneLang
