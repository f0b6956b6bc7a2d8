/-
  Evaluation in two modes.

  From related machines, code whose names have been placed evaluates to the same value or fails in the
  same way, and leaves related machines (`evaluation`).  Most actions touch the store alone and so are the
  same on both sides.  Those on names are in `Related.read` and `Related.assign`; what is left are calls,
  which push the two forms of a frame, and closures, which are the two forms of a function.
-/
import StoneLang.Proofs.Evaluation.Accord
import StoneLang.Proofs.Modes.Accesses

namespace StoneLang.Modes

open Coupling

variable {stage : Stage} {w : World} {m d : Machine}

variable {value : Value} {f depth : Nat} {g : Function} {c' : Index} {params : List Label} {body : List Node}
  {word : Word}

theorem World.good_of_isFlat (h : value.isFlat) : w.Good value := by
  cases value <;> trivial

/-! ## Frames and functions -/

theorem Related.push (h : Related stage w m d) (role : Role)
    (hpair : FramePair role frame frame') (hheld : frame.Holds w.Good) :
    ∃ w', w.le w' ∧ Related stage w' { m with frames := m.frames.push frame } { d with frames := d.frames.push frame' } ∧
      d.frames.size = m.frames.size ∧ w'.roles[m.frames.size]? = some role := by
  obtain ⟨hle, hrel⟩ := h.reframe (List.prefix_append w.roles [role]) List.prefix_rfl List.prefix_rfl
    (h.frames.push hpair) (h.held.frames.push hheld)
  refine ⟨_, hle, hrel, h.frames.size'.trans h.frames.size.symm, ?_⟩
  rw [h.frames.size]
  simp

variable {env : Env} {arguments : List Value} {c : Index} {site : Site}

theorem World.Fits.cons (h : w.Fits env (.outside chain))
    (hf : w.roles[f]? = some (.params names)) :
    w.Fits (f :: env) (.outside (names :: chain)) := by
  obtain ⟨inner, rfl, hfits⟩ := h
  exact ⟨f :: inner, rfl, .cons hf hfits⟩

theorem World.Fits.shared (h : w.Fits env (.member depth)) (hf : w.roles[f]? = some .shared) :
    w.Fits (f :: env) (.member (depth + 1)) := by
  obtain ⟨inner, tail, rfl, htail, rfl, hfits⟩ := h
  exact ⟨f :: inner, tail, rfl, htail, rfl, List.forall_mem_cons.mpr ⟨hf, hfits⟩⟩

/-- Around a class body there are the globals, or nothing if the class of an object is lost. -/
theorem World.Fits.around (w : World) (h : tail = Machine.globalEnv ∨ tail = []) :
    w.Fits tail (.member 0) :=
  ⟨[], tail, rfl, h, rfl, by simp [SharedFits]⟩

theorem sim_enter_shared (harguments : ∀ v ∈ arguments, w.Good v) (hfits : w.Fits env (.member depth)) :
    (coupling stage).Sim w (Same fun w' inner => w'.Fits inner (.member (depth + 1)))
      (Actions.enter (Run.slotFrame size arguments) env) (Actions.enter (Run.slotFrame size arguments) env) := by
  intro m d h
  cases hframe : Run.slotFrame size arguments with
  | error reason => exact .error w (.refl w) h trivial
  | ok frame =>
    obtain ⟨⟨slots, rfl⟩, hheld⟩ := holds_slotFrame hframe harguments
    obtain ⟨w', hle, hrel, hsize, hrole⟩ := h.push .shared ⟨rfl, slots, rfl⟩ hheld
    refine .ok w' hle hrel ⟨?_, (World.fits_later hle hfits).shared hrole⟩
    rw [hsize]

theorem sim_enterFunction {f : Function} (hcall : w.Callable f g) (harguments : ∀ v ∈ arguments, w.Good v)
    (hlength : f.parameters.length = arguments.length) :
    (coupling stage).Sim w (Same fun w' env => ∃ c, w'.Fits env c ∧ f.body.Every w'.Placed w'.Sized c)
      (Actions.enter (Actions.functionFrame f arguments) f.env)
      (Actions.enter (Actions.functionFrame g arguments) g.env) := by
  rw [hcall.env]
  rcases hcall.code with ⟨chain, hfits, hnodup, hsize, hsize', hbody⟩ |
    ⟨depth, size, hfits, hsize, hsize', hbody⟩
  · intro m d h
    obtain ⟨frame, hframe, hpair⟩ := pair_call hnodup hlength
    have hheld := (holds_slotFrame hframe harguments).2
    obtain ⟨w', hle, hrel, hsizes, hrole⟩ := h.push _ hpair hheld
    have hf : Actions.functionFrame f arguments = .ok frame := by
      simp only [Actions.functionFrame, hsize, hframe]
    have hg : Actions.functionFrame g arguments = .ok (Run.namedFrame f.parameters arguments) := by
      simp only [Actions.functionFrame, hsize', hcall.parameters]
    rw [hf, hg]
    refine .ok w' hle hrel ⟨?_, _, (World.fits_later hle hfits).cons hrole, World.every_later hle hbody⟩
    rw [hsizes]
  · have hf : Actions.functionFrame f arguments = Run.slotFrame size arguments := by
      simp only [Actions.functionFrame, hsize]
    have hg : Actions.functionFrame g arguments = Run.slotFrame size arguments := by
      simp only [Actions.functionFrame, hsize']
    rw [hf, hg]
    exact (sim_enter_shared harguments hfits).imp fun _ _ hle henv => ⟨_, henv, World.every_later hle hbody⟩

theorem Related.newFunction (h : Related stage w m d) {f : Function} (hfg : w.Callable f g) :
    Related stage w { m with functions := m.functions.push f } { d with functions := d.functions.push g } := by
  refine { h with
    store := ?_, functions_size := ?_, functions := ?_
    held := ⟨h.held.frames, h.held.arrays, h.held.objects⟩ }
  · exact congrArg (fun d : Machine => { d with functions := d.functions.push g }) h.store
  · simp [h.functions_size]
  · intro ref f' g' hf' hg'
    rw [Array.getElem?_push] at hf' hg'
    rw [h.functions_size] at hg'
    split at hf'
    · rename_i hlast
      rw [if_pos hlast] at hg'
      cases hf'
      cases hg'
      exact hfg
    · rename_i hold
      rw [if_neg hold] at hg'
      exact h.functions ref f' g' hf' hg'

theorem World.callable_of_inner (hfits : w.Fits env c) (hsized : w.Sized c site params c')
    (hbody : AllEvery w.Placed w.Sized c' body) (name : Text) :
    w.Callable ⟨name, params.map Label.text, .block body, env, w.notes.sizes.get? site⟩
      ⟨name, params.map Label.text, .block body, env, w.notes'.sizes.get? site⟩ := by
  refine ⟨rfl, rfl, rfl, rfl, ?_⟩
  cases c with
  | outside chain =>
    cases c' with
    | outside inner =>
      obtain ⟨-, ⟨hnodup, rfl⟩, hsize, hsize'⟩ := hsized
      exact .inl ⟨chain, hfits, hnodup, by simpa using hsize, hsize', by simpa [Node.Every] using hbody⟩
    | member inner => exact absurd hsized id
  | member depth =>
    cases c' with
    | outside inner => exact absurd hsized id
    | member inner =>
      obtain ⟨-, rfl, size, hsize, hsize'⟩ := hsized
      exact .inr ⟨depth, size, hfits, hsize, hsize', by simpa [Node.Every] using hbody⟩

theorem Related.makeFunction (h : Related stage w m d) (hfits : w.Fits env c) (hsized : w.Sized c site params c')
    (hbody : AllEvery w.Placed w.Sized c' body) (name : Text) :
    ∃ ref m' d', Run.makeFunction env site name params body m = .ok (.function ref) m' ∧
      Run.makeFunction env site name params body d = .ok (.function ref) d' ∧ Related stage w m' d' := by
  have hcall := World.callable_of_inner hfits hsized hbody name
  rw [← h.sizes.1, ← h.sizes.2] at hcall
  refine ⟨m.functions.size, _, _, rfl, ?_, h.newFunction hcall⟩
  rw [← h.functions_size]
  rfl

/-! ## Actions on the store -/

theorem sim_look (f : Machine → α)
    (h : ∀ m d, Related stage w m d → f d = f m ∧ P w (f m)) :
    (coupling stage).Sim w (Same P) (do return f (← get) : Run α) (do return f (← get)) := by
  intro m d hrel
  obtain ⟨hsame, hvalue⟩ := h m d hrel
  exact .ok w (.refl w) hrel ⟨hsame.symm, hvalue⟩

theorem sim_readName (hfits : w.Fits env c) (hplaced : w.Placed c (.read site word)) :
    (coupling stage).Sim w (Same World.Good) (Run.readName site word env) (Run.readName site word env) := by
  intro m d h
  rw [Run.readName_eq, Run.readName_eq, h.read hfits hplaced]
  cases hread : m.read site word env with
  | error cause => exact .error w (.refl w) h trivial
  | ok value =>
    exact .ok w (.refl w) h ⟨rfl, h.held.read (fun _ _ _ hd => h.method hd) hread⟩

theorem sim_assignName (hfits : w.Fits env c) (hplaced : w.Placed c (.assign site word)) (hvalue : w.Good value) :
    (coupling stage).Sim w (Same fun _ _ => True) (Run.assignName site word value env)
      (Run.assignName site word value env) := by
  intro m d h
  rw [Run.assignName_eq, Run.assignName_eq]
  rcases h.assign hfits hplaced hvalue with ⟨cause, hm, hd⟩ | ⟨w', m', d', hm, hd, hle, hrel⟩
  · rw [hm, hd]
    exact .error w (.refl w) h trivial
  · rw [hm, hd]
    exact .ok w' hle hrel ⟨rfl, trivial⟩

theorem sim_enterInitializers (object ref : Nat) :
    (coupling stage).Sim w (Same fun w' found => ∀ env members, found = some (env, members) →
        ∀ member ∈ members, Definition.ofNode? member = none →
          ∃ c, w'.Fits env c ∧ member.Every w'.Placed w'.Sized c)
      (Actions.machine.enterInitializers object ref) (Actions.machine.enterInitializers object ref) := by
  intro m d h
  unfold Actions.machine
  dsimp only
  rw [get_bind_apply, get_bind_apply, h.classes_eq]
  cases hc : m.classes[ref]? with
  | none => exact .ok w (.refl w) h ⟨rfl, by simp⟩
  | some c =>
    have hgood := h.classes c (Array.mem_of_getElem? hc)
    obtain ⟨w', hle, hrel, hsize, hrole⟩ := h.push .shared ⟨rfl, _, rfl⟩ (@holds_receiver _ (.object object) trivial)
    refine .ok w' hle hrel ⟨?_, ?_⟩
    · rw [hsize]
    · rintro env members ⟨rfl, rfl⟩ member hmem hnone
      have hfits := (World.Fits.around w' (.inl hgood.env)).shared hrole
      exact ⟨_, hfits, World.every_later hle (hgood.initializers member hmem hnone)⟩

theorem sim_enterMethod (hplaced : w.MethodPlaced definition)
    (harguments : ∀ v ∈ arguments, w.Good v) :
    (coupling stage).Sim w (Same fun w' env => ∃ c, w'.Fits env c ∧ AllEvery w'.Placed w'.Sized c definition.body)
      (Actions.machine.enterMethod object definition arguments)
      (Actions.machine.enterMethod object definition arguments) := by
  intro m d h
  obtain ⟨-, hsize, hbody⟩ := hplaced
  have henv : Actions.methodEnv d object = Actions.methodEnv m object := by
    unfold Actions.methodEnv
    rw [h.classOf?]
  have htail : Actions.methodEnv m object = Machine.globalEnv ∨ Actions.methodEnv m object = [] := by
    unfold Actions.methodEnv
    cases hc : m.classOf? object with
    | none => exact .inr rfl
    | some c =>
      obtain ⟨o, -, hc⟩ := Option.bind_eq_some_iff.mp hc
      exact .inl (h.classes c (Array.mem_of_getElem? hc)).env
  have hvalues : ∀ v ∈ Value.object object :: arguments, w.Good v := List.forall_mem_cons.mpr ⟨trivial, harguments⟩
  have hsame : (d.notes.sizes.get? definition.site).getD 0 = (m.notes.sizes.get? definition.site).getD 0 := by
    rw [h.sizes.1, h.sizes.2, hsize]
  have heq : ∀ m, Actions.machine.enterMethod object definition arguments m
      = Actions.enter (Run.slotFrame ((m.notes.sizes.get? definition.site).getD 0) (.object object :: arguments))
          (Actions.methodEnv m object) m := fun _ => rfl
  rw [heq, heq, hsame, henv]
  exact (sim_enter_shared hvalues (World.Fits.around w htail)).imp
    (fun _ _ hle hfits => ⟨_, hfits, World.allEvery_later hle hbody⟩) m d h

/-! ## Evaluation -/

def scoping (stage : Stage) : Scoping (coupling stage).World where
  ι := Index
  use := World.Placed
  inner := World.Sized
  fits := World.Fits
  use_mono hle h := World.placed_later hle h
  inner_mono hle h := World.sized_later hle h
  fits_mono hle h := World.fits_later hle h

def evaluation (stage : Stage) : Accord (scoping stage).evaluable (fun w Q x y => (coupling stage).Sim w (Same Q) x y)
    Actions.machine Actions.machine where
  value := World.Good
  callable w _ f g := w.Callable f g
  constructible _ _ c c' := c = c'
  initializes _ _ _ := True
  native := Native.IsStandard
  place _ _ := True
  pure h := .pureSame h
  throw _ _ := .throw trivial
  unfinished _ := .throw trivial
  bind hx hf := hx.bindSame hf
  value_mono hle h := World.good_later hle h
  callable_mono hle h := World.callable_later hle h
  rounds _ _ := sim_look _ fun m d h => ⟨by rw [h.settings.1, h.settings.2], trivial⟩
  readName _ _ _ _ := fun ⟨_, hfits, hplaced⟩ => sim_readName hfits hplaced
  assignName _ _ _ _ _ := fun ⟨_, hfits, hplaced⟩ hvalue => sim_assignName hfits hplaced hvalue
  operate _ operator a b line _ _ := sim_of_store (.operate operator a b line) fun _ _ h =>
    (Machine.steps_operate h.held (fun _ => World.good_of_isFlat) operator a b line).code
  newArray w values hvalues := sim_of_store (.newArray values.toArray) fun _ _ h =>
    (Machine.steps_newArray h.held (by simpa using hvalues) trivial).code
  makeClosure w env site params body := by
    rintro ⟨c, hfits, c', hsized, hbody⟩ m d h
    obtain ⟨ref, m', d', hm, hd, hrel⟩ := h.makeFunction hfits hsized hbody []
    show (coupling stage).Outcome w _ (Run.makeFunction env site [] params body m)
      (Run.makeFunction env site [] params body d)
    rw [hm, hd]
    exact .ok w (.refl w) hrel ⟨rfl, trivial⟩
  define w env site title params body line := by
    rintro ⟨c, -, huse⟩
    cases c <;> exact absurd huse.2.1 (by simp [Use.isPlain])
  defineClass w env site title parent members line := by
    rintro ⟨c, -, huse⟩
    cases c <;> exact absurd huse.2.1 (by simp [Use.isPlain])
  native? w ref _ := sim_look _ fun m d h =>
    ⟨by rw [← h.store]; rfl, fun n hn => h.natives n (Array.mem_of_getElem? hn)⟩
  callNative _ env n line _ _ hn hvalues _ := sim_of_store (.callNative hn env line _) fun _ _ h =>
    (Machine.steps_callNative h.held (fun _ => World.good_of_isFlat) hvalues trivial n env line).code
  function? w ref _ _ _ _ _ hfg := by
    intro m d h
    refine hfg w _ _ le_rfl ?_ m d h
    rcases h.function ref with ⟨hf, hg⟩ | ⟨f, g, hf, hg, hfg⟩
    · rw [hf, hg]
      exact .none
    · rw [hf, hg]
      refine .some ⟨⟨hfg.parameters.symm, ?_, hfg.body.symm⟩, hfg⟩
      simp only [Function.shownName, hfg.name]
  enterFunction w _ f g values hcall hvalues hlength := sim_enterFunction hcall hvalues hlength
  className w object _ _ := sim_look _ fun m d h => ⟨h.className object, trivial⟩
  enterMethod w object definition values hplaced hvalues _ := sim_enterMethod hplaced hvalues
  class? w ref _ _ _ _ _ hfg := by
    intro m d h
    refine hfg w _ _ le_rfl ?_ m d h
    rw [h.classes_eq]
    exact rel_self fun _ _ => ⟨rfl, rfl⟩
  newObject w ref c c' hsame := by
    subst hsame
    refine sim_of_store (E := fun _ => True) (.newObject ref c) fun m d h =>
      ⟨⟨⟨rfl, rfl, rfl, rfl, rfl⟩, h.held.newObject fun v hv => ?_⟩, trivial, fun _ _ => trivial⟩
    rw [(Array.mem_replicate.mp hv).2]
    trivial
  enterInitializers w object ref _ := sim_enterInitializers object ref
  readMember w _ object site title _ _ := sim_of_store (.readMember object site title) fun _ _ h =>
    (Machine.steps_readMember h.held trivial (fun _ _ hd => h.method hd) site title).code
  assignMember w _ target site title v _ _ hv := sim_of_store (.assignMember target site title v) fun _ _ h =>
    (Machine.steps_assignMember h.held target site title hv).code
  element w target i line _ _ := sim_of_store (.element target i line) fun _ _ h =>
    (Machine.steps_element h.held target i line).code
  readElement w ref i _ := sim_of_store (.readElement ref i) fun _ _ h =>
    (Machine.steps_readElement h.held trivial ref i).code
  setElement w ref i v _ hv := sim_of_store (.setElement ref i v) fun _ _ h =>
    (Machine.steps_setElement h.held ref i hv).code

theorem sim_evaluate (levels : Nat) {node : Node} (hcode : (scoping stage).Code w env node) :
    (coupling stage).Sim w (Same World.Good) (Actions.machine.evaluate levels node env)
      (Actions.machine.evaluate levels node env) :=
  (evaluation stage).evaluate
    (fun _ => sim_look _ fun m d h => ⟨by rw [h.settings.1, h.settings.2], trivial⟩) levels hcode

end StoneLang.Modes
