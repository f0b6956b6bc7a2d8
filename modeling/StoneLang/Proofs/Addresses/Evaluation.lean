/-
  Evaluation under observation.

  What the evaluator asks keeps the invariant: `evaluation` goes through its actions, and calls are where the
  worlds grow.  Entering a function, a method or the initializers of a class makes a frame for a table, and
  the code inside fits it.

  Two forms of this are needed.  Within a call the globals stay as they are, and so every evaluation that is
  written down is right about them (`sim_evaluate_within`); at the top they may change (`sim_evaluate`).
-/
import StoneLang.Proofs.Addresses.Accesses

namespace StoneLang.Addresses

open Coupling

variable {aim : Aim} {extent : Extent} {w : World} {m : Machine} {trail : Trail} {env : Env}

theorem World.good_of_isFlat (value : Value) (h : value.isFlat) : w.Good aim value := by
  cases value <;> trivial

/-! ## Frames of calls -/

/-- The frame of a call by slot: it has the size asked for and starts with the arguments. -/
theorem slotFrame_cases (size : Nat) (arguments : List Value) :
    (∃ values, Run.slotFrame size arguments = .ok (.slots values) ∧ values.size = size ∧
        ∀ (i : Nat) v, arguments[i]? = some v → values[i]? = some (some v)) ∨
      size < arguments.length ∧ Run.slotFrame size arguments = .error (.outside size size) := by
  unfold Run.slotFrame
  by_cases hroom : arguments.length ≤ size
  · rw [if_pos hroom]
    refine .inl ⟨_, rfl, by simp; omega, fun i v hv => ?_⟩
    have hlt := (List.getElem?_eq_some_iff.mp hv).1
    rw [List.getElem?_toArray, List.getElem?_append_left (by simpa using hlt), List.getElem?_map, hv]
    rfl
  · rw [if_neg hroom]
    exact .inr ⟨by omega, rfl⟩

variable {arguments : List Value} {ref object : Nat}

theorem Inv.enter (h : Inv aim w m trail) (receiver : Option Nat)
    (harguments : ∀ v ∈ arguments, w.Good aim v) (hroom : aim.room = true → arguments.length ≤ size)
    (hreceiver : ∀ object, receiver = some object → arguments[0]? = some (.object object))
    (hP : ∀ v, w.le extent v → v.roles[m.frames.size]? = some (.table owner size receiver) →
      P v (m.frames.size :: env)) :
    Ended aim extent w (trail.enter m owner) P (Actions.enter (Run.slotFrame size arguments) env m) := by
  have hmarked := h.marked owner
  rcases slotFrame_cases size arguments with ⟨values, hframe, hsize, hvalues⟩ | ⟨hfull, hframe⟩
  · have his : w.FrameIs aim (trail.enter m owner) m.frames.size (.table owner size receiver) (.slots values) :=
      ⟨by simp [Trail.enter], hsize, fun _ object hobject => hvalues 0 _ (hreceiver object hobject)⟩
    obtain ⟨v, hle, hinv, hrole⟩ := hmarked.push his (holds_slotFrame hframe harguments).2 nofun
    rw [hframe]
    exact ⟨v, hle, hinv, hP v hle hrole⟩
  · rw [hframe]
    refine ⟨⟨w, .refl w, hmarked⟩, Aim.admits_noRoom size ?_⟩
    cases haim : aim.room with
    | false => rfl
    | true => exact absurd (hroom haim) (by omega)

theorem sim_enterFunction (hcall : w.Callable aim ref f) (harguments : ∀ v ∈ arguments, w.Good aim v)
    (hlength : f.parameters.length = arguments.length) : (coupling aim extent).Sim w
      (Same fun v env => ∃ c, (v.Fits env c ∧ (extent = .within → c.depth ≠ 0)) ∧ f.body.Every (v.Placed aim) (v.Sized aim) c)
      (Observed.asking (.enterFunction ref f arguments) (Actions.machine.enterFunction ref f arguments))
      (Observed.asking (.enterFunction ref f arguments) (Actions.machine.enterFunction ref f arguments)) := by
  refine sim_asking _ _ fun m trail h => ⟨trivial, ?_⟩
  have heq : Actions.machine.enterFunction ref f arguments m
      = Actions.enter (Actions.functionFrame f arguments) f.env m := rfl
  rw [heq]
  unfold Actions.functionFrame
  rcases hcall with ⟨n, site, t, hsite, hfits, hsize, hroom, hbody⟩ | ⟨depth, hfits, hsize, hbody⟩
  · rw [hsize]
    have hafter : trail.after m (.enterFunction ref f arguments) = trail.enter m (.function site) := by
      simp [Trail.after, h.function_sites ref site hsite]
    rw [hafter]
    refine h.enter none harguments (fun haim => hlength ▸ hroom haim) nofun fun v hle hrole => ?_
    obtain ⟨hglobals, fs, hfs, hreaches⟩ := World.fits_later hle hfits
    exact ⟨.placed (n.push (.function site) t), ⟨⟨hglobals, m.frames.size :: fs, by rw [hfs]; rfl,
      .function hrole hreaches⟩, fun _ => Nat.succ_ne_zero _⟩, World.every_later hle hbody⟩
  · rw [hsize]
    have his : w.FrameIs aim (trail.after m (.enterFunction ref f arguments)) m.frames.size .named
        (Run.namedFrame f.parameters arguments) := trivial
    obtain ⟨v, hle, hinv, hrole⟩ := (h.marked (.function ((trail.functions.get? ref).getD 0))).push his
      (holds_namedFrame f.parameters harguments) nofun
    refine ⟨v, hle, hinv, .opened (depth + 1), ⟨?_, fun _ => Nat.succ_ne_zero _⟩, World.every_later hle hbody⟩
    obtain ⟨fs, hfs, hdepth, hnamed⟩ := World.fits_later hle hfits
    exact ⟨m.frames.size :: fs, by rw [hfs]; rfl, by simp [hdepth], List.forall_mem_cons.mpr ⟨hrole, hnamed⟩⟩

theorem sim_enterMethod (hgood : w.Good aim (.method object d))
    (harguments : ∀ v ∈ arguments, w.Good aim v) (hlength : d.parameters.length = arguments.length) :
    (coupling aim extent).Sim w
      (Same fun v env => ∃ c, (v.Fits env c ∧ (extent = .within → c.depth ≠ 0)) ∧ AllEvery (v.Placed aim) (v.Sized aim) c d.body)
      (Observed.asking (.enterMethod object d arguments) (Actions.machine.enterMethod object d arguments))
      (Observed.asking (.enterMethod object d arguments) (Actions.machine.enterMethod object d arguments)) := by
  refine sim_asking _ _ fun m trail h => ⟨trivial, ?_⟩
  obtain ⟨ref, entry, href, hentry, c, globals, t, hhas, hglobals, -, htable, hbody⟩ := hgood
  have henv : Actions.methodEnv m object = Machine.globalEnv := by
    unfold Actions.methodEnv
    rw [h.classOf? href hentry]
    exact (h.classes_good entry (List.mem_of_getElem? hentry)).env
  have hsize : (m.notes.sizes.get? d.site).getD 0 = t.size := by
    rw [h.noted_size, htable.size]
    rfl
  have heq : Actions.machine.enterMethod object d arguments m
      = Actions.enter (Run.slotFrame ((m.notes.sizes.get? d.site).getD 0) (.object object :: arguments))
          (Actions.methodEnv m object) m := rfl
  rw [heq, hsize, henv]
  have hobject : w.Good aim (.object object) := (List.getElem?_eq_some_iff.mp href).1
  refine h.enter (some object) (List.forall_mem_cons.mpr ⟨hobject, harguments⟩) ?_ ?_ fun v hle hrole => ?_
  · intro haim
    rw [List.length_cons, ← hlength]
    exact htable.room haim
  · rintro _ ⟨rfl⟩
    rfl
  · have hhas' : v.Has object c := World.has_later hle ⟨ref, entry, href, hentry, hhas⟩
    exact ⟨.placed (c.methodNest globals d.site t), ⟨⟨hglobals.trans hle.names, [m.frames.size], rfl,
      .receiver rfl hrole htable.this hhas'⟩, fun _ => Nat.succ_ne_zero _⟩, World.allEvery_later hle hbody⟩

def World.Initializes (w : World) (object ref : Nat) : Prop :=
  ∃ made own entry, w.objects[object]? = some made ∧ w.classes[made]? = some own ∧
    w.classes[ref]? = some entry ∧ own.2.layout.Extends entry.2.layout

variable {v : World} {c c' : Index} {site : Site} {params : List Label} {body : List Node} {α : Type}
  {x : EStateM Failure Observed Value}

theorem World.initializes_later (hle : w.le extent v) (h : w.Initializes object ref) : v.Initializes object ref := by
  obtain ⟨made, own, entry, hmade, hown, hentry, hextends⟩ := h
  exact ⟨made, own, entry, getElem?_of_isPrefix hle.objects hmade, getElem?_of_isPrefix hle.classes hown,
    getElem?_of_isPrefix hle.classes hentry, hextends⟩

theorem sim_enterInitializers (hinit : w.Initializes object ref) :
    (coupling aim extent).Sim w
      (Same fun v found => ∀ env members, found = some (env, members) → ∀ member ∈ members,
        Definition.ofNode? member = none →
          ∃ c, (v.Fits env c ∧ (extent = .within → c.depth ≠ 0)) ∧ member.Every (v.Placed aim) (v.Sized aim) c)
      (Observed.asking (.enterInitializers object ref) (Actions.machine.enterInitializers object ref))
      (Observed.asking (.enterInitializers object ref) (Actions.machine.enterInitializers object ref)) := by
  refine sim_asking _ _ fun m trail h => ⟨trivial, ?_⟩
  obtain ⟨made, own, entry, hmade, hown, hentry, hextends⟩ := hinit
  have hclass : m.classes[ref]? = some entry.2 := by
    rw [h.class?, hentry]
    rfl
  have hgood := h.classes_good entry (List.mem_of_getElem? hentry)
  have hafter : trail.after m (.enterInitializers object ref) = trail.enter m (.initializers entry.1) := by
    simp [Trail.after, h.class_sites ref entry hentry]
  have hobject : w.Good aim (.object object) := (List.getElem?_eq_some_iff.mp hmade).1
  have his : w.FrameIs aim (trail.enter m (.initializers entry.1)) m.frames.size
      (.table (.initializers entry.1) Table.ofReceiver.size (some object)) (.slots #[some (.object object)]) :=
    ⟨by simp [Trail.enter], rfl, by rintro _ _ ⟨rfl⟩; rfl⟩
  obtain ⟨v, hle, hinv, hrole⟩ := (h.marked (.initializers entry.1)).push his (holds_receiver hobject) nofun
  unfold Actions.machine
  dsimp only
  rw [get_bind_apply, hclass, hafter]
  refine ⟨v, hle, hinv, ?_⟩
  rintro env members ⟨rfl, rfl⟩ member hmem hnone
  obtain ⟨c, globals, hsite, hhas, hglobals, hcode⟩ := hgood.initializers member hmem hnone
  have hhas' : v.Has object c :=
    World.has_later hle ⟨made, own, hmade, hown, hextends.has hhas⟩
  rw [← hsite] at hrole
  refine ⟨.placed (c.initializerNest globals), ⟨⟨hglobals.trans hle.names, [m.frames.size], ?_,
    .receiver rfl hrole rfl hhas'⟩, fun _ => Nat.succ_ne_zero _⟩, World.every_later hle hcode⟩
  rw [hgood.env]
  rfl

/-! ## Functions and objects -/

theorem World.callable_of_sized (hfits : w.Fits env c) (hsized : w.Sized aim c site params c')
    (hbody : AllEvery (w.Placed aim) (w.Sized aim) c' body) (hle : w.le extent v)
    (href : v.functions[ref]? = some site) (name : Text) :
    v.Callable aim ref ⟨name, params.map Label.text, .block body, env, (w.noted site).size⟩ := by
  have hfits' := World.fits_later hle hfits
  have hbody' := World.allEvery_later hle hbody
  cases c with
  | placed n =>
    cases c' with
    | opened inner => exact absurd hsized id
    | placed inner =>
      obtain ⟨-, t, rfl, -, hroom, hsize⟩ := hsized
      exact .inl ⟨n, site, t, href, hfits', hsize, by simpa using hroom, by simpa [Node.Every] using hbody'⟩
  | opened depth =>
    cases c' with
    | placed inner => exact absurd hsized id
    | opened inner =>
      obtain ⟨-, rfl, hsize⟩ := hsized
      exact .inr ⟨depth, hfits', hsize, by simpa [Node.Every] using hbody'⟩

theorem Inv.makeFunction (h : Inv aim w m trail) (hfits : w.Fits env c) (hsized : w.Sized aim c site params c')
    (hbody : AllEvery (w.Placed aim) (w.Sized aim) c' body) (name : Text) :
    ∃ m' v, Run.makeFunction env site name params body m = .ok (.function m.functions.size) m' ∧
      (∀ extent, w.le extent v) ∧
      Inv aim v m' { trail with functions := trail.functions.set m.functions.size site } := by
  let v : World := { w with functions := w.functions ++ [site] }
  have hprefix : w.functions <+: v.functions := List.prefix_append ..
  have hle : ∀ extent, w.le extent v := fun _ => ⟨Nat.le_refl _, fun _ _ => rfl, List.prefix_rfl, List.prefix_rfl,
    hprefix, List.prefix_rfl, List.prefix_rfl, fun _ => rfl, fun _ => ⟨rfl, rfl⟩⟩
  have hlast : v.functions[m.functions.size]? = some site := by
    rw [h.functions_size]
    simp [v]
  have hcall := World.callable_of_sized hfits hsized hbody (hle .top) hlast name
  rw [← h.noted_size] at hcall
  refine ⟨_, v, rfl, hle, { h with
    framed := { h.framed with }
    functions_size := by simp [v, h.functions_size]
    functions := fun ref f hf => ?_
    function_sites := fun ref site' hsite => ?_
    classes_good := fun entry hentry => World.classGood_later (hle .top) (h.classes_good entry hentry)
    held := World.holds_later (hle .top) { h.held with } }⟩
  · rw [Array.getElem?_push] at hf
    split at hf
    · rename_i hlast
      cases hf
      exact hlast ▸ hcall
    · exact World.callable_later (hle .top) (h.functions ref f hf)
  · rw [SiteMap.get?_set]
    split
    · rename_i heq
      subst heq
      rw [hlast] at hsite
      exact hsite
    · rename_i hne
      have hlt := (List.getElem?_eq_some_iff.mp hsite).1
      simp only [v, List.length_append, List.length_cons, List.length_nil] at hlt
      have hnew : ref ≠ w.functions.length := fun heq => hne (heq.trans h.functions_size.symm)
      rw [List.getElem?_append_left (by omega)] at hsite
      exact h.function_sites ref site' hsite

theorem Inv.newObject (h : Inv aim w m trail) (hentry : w.classes[ref]? = some entry) : Ended aim extent w trail
      (fun v made => v.Good aim (.object made.1) ∧ ∀ r ∈ made.2, v.Initializes made.1 r)
      (Actions.machine.newObject ref entry.2 m) := by
  let v : World := { w with objects := w.objects ++ [ref] }
  have hprefix : w.objects <+: v.objects := List.prefix_append ..
  have hle : ∀ extent, w.le extent v := fun _ => ⟨Nat.le_refl _, fun _ _ => rfl, List.prefix_rfl, List.prefix_rfl,
    List.prefix_rfl, List.prefix_rfl, hprefix, fun _ => rfl, fun _ => ⟨rfl, rfl⟩⟩
  have hlength : m.objects.size = w.objects.length := by
    rw [← h.objects]
    simp
  have hlast : v.objects[m.objects.size]? = some ref := by
    rw [hlength]
    simp [v]
  have hgood := h.classes_good entry (List.mem_of_getElem? hentry)
  let o : Object := ⟨ref, Array.replicate entry.2.layout.fieldCount .null⟩
  let m' : Machine := { m with objects := m.objects.push o }
  have hinv : Inv aim v m' trail := by
    refine { h with
      framed := { h.framed with }
      functions := fun ref f hf => World.callable_later (hle .top) (h.functions ref f hf)
      classes_good := fun entry hentry => World.classGood_later (hle .top) (h.classes_good entry hentry)
      objects := by simp [m', v, o, h.objects]
      fields := Array.forall_mem_push.mpr ⟨⟨entry, hentry, by simp [o]⟩, h.fields⟩
      held := World.holds_later (hle .top) (h.held.newObject fun value hvalue => ?_) }
    rw [(Array.mem_replicate.mp hvalue).2]
    trivial
  have heq : Actions.machine.newObject ref entry.2 m = .ok (m.objects.size, m'.lineage ref) m' := rfl
  rw [heq]
  refine ⟨v, hle extent, hinv, (List.getElem?_eq_some_iff.mp hlast).1, fun r hr => ?_⟩
  have hclass : m'.classes[ref]? = some entry.2 := by
    rw [hinv.class?, hentry]
    rfl
  unfold Machine.lineage at hr
  rw [hclass] at hr
  rcases List.mem_cons.mp (List.mem_reverse.mp hr) with rfl | hparent
  · exact ⟨r, entry, entry, hlast, hentry, hentry, .refl _⟩
  · obtain ⟨parent, hparent, hextends⟩ := hgood.parents r hparent
    exact ⟨ref, entry, parent, hlast, hentry, hparent, hextends⟩

/-! ## Evaluation -/

theorem sim_looking (request : Request) (f : Machine → α) (hfair : ∀ m trail, aim.Fair ⟨request, m, trail⟩)
    (htrail : ∀ (m : Machine) (trail : Trail), trail.after m request = trail)
    (h : ∀ m trail, Inv aim w m trail → P w (f m)) :
    (coupling aim extent).Sim w (Same P) (Observed.asking request (do return f (← get)))
      (Observed.asking request (do return f (← get))) :=
  sim_stepping request _ hfair htrail fun m trail hinv => ⟨⟨.refl m, hinv.held⟩, h m trail hinv⟩

theorem steps_admitted {Q : α → Prop} {x : EStateM.Result Failure Machine α}
    (h : m.Steps P Q Failure.IsOrdinary x) : m.Steps P Q aim.Admits x := by
  cases x with
  | ok a m' => exact h
  | error e m' => exact ⟨h.1, Aim.admits_of_isOrdinary h.2⟩

def scoping (aim : Aim) (extent : Extent) : Scoping (coupling aim extent).World where
  ι := Index
  use := World.Placed aim
  inner := World.Sized aim
  fits w env c := World.Fits w env c ∧ (extent = .within → c.depth ≠ 0)
  use_mono hle h := World.placed_later hle h
  inner_mono hle h := World.sized_later hle h
  fits_mono hle h := ⟨World.fits_later hle h.1, h.2⟩

theorem sim_maxDepth (w : World) : (coupling aim extent).Sim w (Same fun _ _ => True) Observed.actions.maxDepth
    Observed.actions.maxDepth := by
  rintro s _ ⟨rfl, hs⟩
  exact .ok w (.refl w) ⟨rfl, hs⟩ ⟨rfl, trivial⟩

def evaluation (aim : Aim) (extent : Extent) : Accord (scoping aim extent).evaluable
    (fun w Q x y => (coupling aim extent).Sim w (Same Q) x y) Observed.actions Observed.actions where
  value := World.Good aim
  callable w ref f g := f = g ∧ w.Callable aim ref f
  constructible w ref c d := c = d ∧ ∃ site, w.classes[ref]? = some (site, c)
  initializes := World.Initializes
  native n := ∀ failure, n.action = .host (.fail failure) → aim.Admits failure
  place _ _ := True
  pure h := .pureSame h
  throw d h := .throw (Aim.admits_atLine (fun _ => by cases hcause : d.cause <;> rw [hcause] at h <;> first | rfl | cases h) d.line)
  unfinished _ := .throw Aim.admits_unfinished
  bind hx hf := hx.bindSame hf
  value_mono hle h := World.good_later hle h
  callable_mono hle h := ⟨h.1, World.callable_later hle h.2⟩
  initializes_mono hle h := World.initializes_later hle h
  rounds w _ := by
    rintro s _ ⟨rfl, hs⟩
    exact .ok w (.refl w) ⟨rfl, hs⟩ ⟨rfl, trivial⟩
  readName _ _ _ _ := fun ⟨_, hfits, hplaced⟩ => sim_readName hfits.1 hplaced
  assignName _ _ _ _ _ := fun ⟨_, hfits, hplaced⟩ hvalue => sim_assignName hfits.1 hfits.2 hplaced hvalue
  operate _ operator a b line _ _ := sim_stepping (.operate operator a b)
    (Actions.machine.operate operator a b line) (fun _ _ => trivial) (fun _ _ => rfl) fun m _ h =>
    steps_admitted (m.steps_operate h.held World.good_of_isFlat operator a b line)
  newArray _ values hvalues := sim_stepping (.newArray values) (Actions.machine.newArray values)
    (fun _ _ => trivial) (fun _ _ => rfl) fun m _ h =>
    steps_admitted (Machine.steps_newArray h.held (by simpa using hvalues) trivial)
  makeClosure _ env site params body := by
    rintro ⟨c, hfits, c', hsized, hbody⟩
    refine sim_asking (.makeClosure env site params body) (Actions.machine.makeClosure env site params body)
      fun m trail h => ?_
    obtain ⟨m', v, hmade, hle, hinv⟩ := h.makeFunction hfits.1 hsized hbody []
    refine ⟨trivial, ?_⟩
    show Ended _ _ _ _ _ (Run.makeFunction env site [] params body m)
    rw [hmade]
    exact ⟨v, hle extent, hinv, trivial⟩
  define _ env site title params body line := by
    rintro ⟨c, -, huse⟩
    cases c <;> exact absurd huse.2.1 (by simp [Use.isPlain])
  defineClass _ env site title parent members line := by
    rintro ⟨c, -, huse⟩
    cases c <;> exact absurd huse.2.1 (by simp [Use.isPlain])
  native? _ ref _ := sim_looking (.native ref) (·.natives[ref]?) (fun _ _ => trivial) (fun _ _ => rfl)
    fun m _ h n hn => h.natives n (Array.mem_of_getElem? hn)
  callNative _ env n line values _ hn hvalues _ := by
    refine sim_stepping (.callNative n env values) (Actions.machine.callNative n env line values)
      (fun _ _ => trivial) (fun _ _ => rfl) fun m _ h => ?_
    have hsteps := Machine.steps_callNative h.held World.good_of_isFlat hvalues trivial n env line
    show m.Steps _ _ _ (Run.callNative n env line values m)
    generalize Run.callNative n env line values m = res at hsteps ⊢
    cases res with
    | ok value m' => exact hsteps
    | error e m' =>
      obtain ⟨hkept, hordinary | ⟨failure, hfail, rfl⟩⟩ := hsteps
      · exact ⟨hkept, Aim.admits_of_isOrdinary hordinary⟩
      · exact ⟨hkept, (hn failure hfail).withLine line⟩
  function? w ref _ _ _ _ _ hfg := by
    refine (sim_looking (P := fun w found => ∀ f, found = some f → w.Callable aim ref f) (.function ref)
      (·.functions[ref]?) (fun _ _ => trivial) (fun _ _ => rfl) fun m _ h f hf => h.functions ref f hf).bindSame ?_
    exact fun w' found hle hfound =>
      hfg w' found found hle (rel_self fun f hf => ⟨⟨rfl, rfl, rfl⟩, rfl, hfound f hf⟩)
  enterFunction _ ref f g values hcall hvalues hlength := by
    obtain ⟨rfl, hcall⟩ := hcall
    exact sim_enterFunction hcall hvalues hlength
  className _ object _ _ := sim_looking (.className object) (·.className object) (fun _ _ => trivial) (fun _ _ => rfl)
    fun _ _ _ => trivial
  enterMethod _ object d values hgood hvalues hlength := sim_enterMethod hgood hvalues hlength
  class? w ref _ _ _ _ _ hfg := by
    refine (sim_looking (P := fun w found => ∀ c, found = some c → ∃ site, w.classes[ref]? = some (site, c))
      (.classEntry ref) (·.classes[ref]?) (fun _ _ => trivial) (fun _ _ => rfl) fun m _ h c hc => ?_).bindSame ?_
    · rw [h.class?] at hc
      obtain ⟨entry, hentry, rfl⟩ := Option.map_eq_some_iff.mp hc
      exact ⟨entry.1, hentry⟩
    · exact fun w' found hle hfound => hfg w' found found hle (rel_self fun c hc => ⟨rfl, rfl, hfound c hc⟩)
  newObject _ ref c d hclass := by
    obtain ⟨rfl, site, hentry⟩ := hclass
    exact sim_asking (.newObject ref c) (Actions.machine.newObject ref c) fun m trail h =>
      ⟨trivial, h.newObject hentry⟩
  enterInitializers _ object ref hinit := sim_enterInitializers hinit
  readMember _ _ object site title _ _ := sim_stepping (.readMember object site title)
    (Actions.machine.readMember object site title) (fun _ _ => trivial) (fun _ _ => rfl) fun m _ h =>
    steps_admitted (Machine.steps_readMember h.held trivial (fun _ _ hd => h.method_good hd) site title)
  assignMember _ _ target site title v _ _ hv := sim_stepping (.assignMember target site title v)
    (Actions.machine.assignMember target site title v) (fun _ _ => trivial) (fun _ _ => rfl) fun m _ h =>
    steps_admitted (Machine.steps_assignMember h.held target site title hv)
  element _ target i line _ _ := sim_stepping (.element target i) (Actions.machine.element target i line)
    (fun _ _ => trivial) (fun _ _ => rfl) fun m _ h =>
    steps_admitted (Machine.steps_element h.held target i line)
  readElement _ ref i _ := sim_stepping (.readElement ref i) (Actions.machine.readElement ref i)
    (fun _ _ => trivial) (fun _ _ => rfl) fun m _ h =>
    steps_admitted (Machine.steps_readElement h.held trivial ref i)
  setElement _ ref i v _ hv := sim_stepping (.setElement ref i v) (Actions.machine.setElement ref i v)
    (fun _ _ => trivial) (fun _ _ => rfl) fun m _ h =>
    steps_admitted (Machine.steps_setElement h.held ref i hv)

/-- An evaluation is written down when it has ended: one that is not at the top has kept the globals. -/
theorem sim_evaluated (h : (coupling aim extent).Sim w (Same (World.Good aim)) x x)
    (htop : env ≠ Machine.globalEnv → extent = .within) :
    (coupling aim extent).Sim w (Same (World.Good aim)) (fun s => onState (s.evaluated env) (x s))
      (fun s => onState (s.evaluated env) (x s)) := by
  rintro s _ ⟨rfl, hinv, hlogged⟩
  have hlog : ∀ v s', w.le extent v → Inv aim v s'.machine s'.trail → Logged aim s' →
      Logged aim (s.evaluated env s') := by
    intro v s' hle hinv' hlogged'
    refine { hlogged' with evaluations := List.forall_mem_cons.mpr ⟨fun hne => ?_, hlogged'.evaluations⟩ }
    obtain ⟨hnames, hvalues⟩ := hle.top (htop hne)
    show s'.machine.frames[Machine.globalFrame]? = s.machine.frames[Machine.globalFrame]?
    rw [hinv.globalFrame, hinv'.globalFrame, hnames, hvalues]
  have hx := h s s ⟨rfl, hinv, hlogged⟩
  dsimp only
  generalize x s = result at hx
  cases hx with
  | ok v hle related holds =>
    exact .ok v hle ⟨rfl, related.2.1, hlog v _ hle related.2.1 related.2.2⟩ holds
  | error v hle related admitted =>
    exact .error v hle ⟨rfl, related.2.1, hlog v _ hle related.2.1 related.2.2⟩ admitted

theorem sim_evaluate_within (aim : Aim) (levels : Nat) (w : World) (node : Node) (env : Env)
    (hcode : (scoping aim .within).Code w env node) :
    (coupling aim .within).Sim w (Same (World.Good aim)) (Observed.evaluate levels node env)
      (Observed.evaluate levels node env) := by
  induction levels generalizing w node env with
  | zero => exact sim_evaluated ((evaluation aim .within).evaluate sim_maxDepth 0 hcode) fun _ => rfl
  | succ levels ih => exact sim_evaluated ((evaluation aim .within).evaluateNode ih hcode) fun _ => rfl

theorem sim_atTop (h : (coupling aim .within).Sim w (Same (World.Good aim)) x x) :
    (coupling aim .top).Sim w (Same (World.Good aim)) x x := by
  rintro s _ ⟨rfl, hs⟩
  have hx := h s s ⟨rfl, hs⟩
  generalize x s = result at hx
  cases hx with
  | ok v hle related holds => exact .ok v hle.atTop related holds
  | error v hle related admitted => exact .error v hle.atTop related admitted

theorem sim_evaluate (aim : Aim) (levels : Nat) (w : World) (node : Node) (env : Env)
    (hcode : (scoping aim .top).Code w env node) :
    (coupling aim .top).Sim w (Same (World.Good aim)) (Observed.evaluate levels node env)
      (Observed.evaluate levels node env) := by
  induction levels generalizing w node env with
  | zero =>
    obtain ⟨c, hfits, hnode⟩ := hcode
    by_cases htop : env = Machine.globalEnv
    · exact sim_evaluated ((evaluation aim .top).evaluate sim_maxDepth 0 ⟨c, hfits, hnode⟩)
        fun hne => absurd htop hne
    · exact sim_atTop (sim_evaluate_within aim 0 w node env
        ⟨c, ⟨hfits.1, fun _ hdepth => htop (hfits.1.global_iff.mpr hdepth)⟩, hnode⟩)
  | succ levels ih =>
    obtain ⟨c, hfits, hnode⟩ := hcode
    by_cases htop : env = Machine.globalEnv
    · exact sim_evaluated ((evaluation aim .top).evaluateNode ih ⟨c, hfits, hnode⟩) fun hne => absurd htop hne
    · exact sim_atTop (sim_evaluate_within aim (levels + 1) w node env
        ⟨c, ⟨hfits.1, fun _ hdepth => htop (hfits.1.global_iff.mpr hdepth)⟩, hnode⟩)

end StoneLang.Addresses
