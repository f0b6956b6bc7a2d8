/-
  Sessions in two modes.

  A source whose units conform means the same whether its names are placed before it runs or looked up
  while it runs: `placing_keeps_meaning`.  The two runs have the same result, have printed the same, and
  leave the same globals, arrays, objects and classes behind; frames and functions differ in their form
  only (`Session.Corresponds`).

  What the argument needs of the runs is that they parse alike and that every unit is executed from
  related machines; `outcome_execute` does the rest, unit by unit.
-/
import Mathlib
import StoneLang.Proofs.Modes.Units
import StoneLang.Proofs.Sessions.Carriers

namespace StoneLang

/-! ## Runs that can be placed -/

/-- Every unit that a run comes to can be placed: none of them is too deep. -/
def Run.placesAll (layers : Layers) (source : Text) : Nat → Reading → Machine → Bool
  | 0, _, _ => true
  | bound + 1, r, m =>
    match Language.atEnd r with
    | .ok false r =>
      match Language.parseUnit layers (parseSettings m) r with
      | .ok unit r =>
        if unit.isEmpty then placesAll layers source bound (r.withTrace #[]) (m.afterReading r)
        else
          let m := (m.afterReading r).note (unitRecord source unit)
          match placeNames unit m with
          | .error .. => false
          | .ok .. =>
            match execute unit m with
            | .ok _ m => placesAll layers source bound (r.withTrace #[]) m
            | .error .. => true
      | .error .. => true
    | _ => true

/-- Every unit that a run of the source comes to can be placed. -/
def Session.placesAll (s : Session) (name source : Text) : Bool :=
  let stream := Stream.ofSource source
  Run.placesAll s.layers name (stream.size + 1) (.start stream s.machine.nextSite) s.machine

/-! ## Two runs side by side -/

namespace Modes

open Coupling

variable {m : Machine}

theorem Related.afterReading (h : Related stage w m d)
    (hnext : stage.next ≤ r.nextSite) :
    Related { stage with next := r.nextSite } w (m.afterReading r) (d.afterReading r) :=
  h.absorbed hnext _ _

/-- Two runs with the same result, which leave related machines. -/
inductive RunsAgree (settings : Settings) :
    EStateM.Result Failure Machine Value → EStateM.Result Failure Machine Value → Prop where
  | ok {value : Value} {m d : Machine} (next : Nat) (w : World) (related : Related ⟨settings, next⟩ w m d) :
      RunsAgree settings (.ok value m) (.ok value d)
  | error {e : Failure} {m d : Machine} (next : Nat) (w : World) (related : Related ⟨settings, next⟩ w m d) :
      RunsAgree settings (.error e m) (.error e d)

theorem runsAgree_runUnits (layers : Layers) (source : Text) (bound : Nat)
    (h : Related ⟨settings, r.nextSite⟩ w m d) (last : Value) (count : Nat)
    (hconforms : ∀ unit ∈ (Language.parseUnits layers ⟨settings.maxDepth, settings.watched⟩ bound r).1.units,
      unit.Conforms) (hplaces : Run.placesAll layers source bound r m = true) :
    RunsAgree settings (Run.runUnits layers source bound r last count m)
      (Run.runUnits layers source bound r last count d) := by
  induction bound generalizing w m d r last count with
  | zero => exact .error _ w h
  | succ bound ih =>
    have hm : Run.parseSettings m = ⟨settings.maxDepth, settings.watched⟩ := by
      simp only [Run.parseSettings, h.settings.1]
    have hd : Run.parseSettings d = ⟨settings.maxDepth, settings.watched⟩ := by
      simp only [Run.parseSettings, h.settings.2]
    have hsites := Parse.sites_closed.turn layers ⟨settings.maxDepth, settings.watched⟩ r
    rw [Run.runUnits_turn, Run.runUnits_turn, hm, hd]
    cases hturn : Language.turn layers ⟨settings.maxDepth, settings.watched⟩ r with
    | error e r' =>
      rw [hturn] at hsites
      exact .error _ w (h.afterReading hsites)
    | ok found r' =>
      rw [hturn] at hsites
      cases found with
      | none => exact .ok _ w ((h.afterReading hsites).note _ _)
      | some unit =>
        have hrel := h.afterReading (r := r') hsites
        -- what is asked of the units of the source is asked of this one and of the rest
        simp only [Language.parseUnits_turn, hturn, List.mem_cons, forall_eq_or_imp] at hconforms
        obtain ⟨r₁, hend, hunit⟩ := Language.turn_eq_some hturn
        simp only [Run.placesAll, hend, hm, hunit] at hplaces
        have hrest : ∀ other ∈ (Language.parseUnits layers ⟨settings.maxDepth, settings.watched⟩ bound
            (r'.withTrace #[])).1.units, other.Conforms := by
          rw [Language.units_withTrace]
          exact hconforms.2
        dsimp only
        cases hempty : unit.isEmpty with
        | true =>
          simp only [hempty, if_true] at hplaces
          exact ih (r := r'.withTrace #[]) hrel last count hrest hplaces
        | false =>
          simp only [hempty, Bool.false_eq_true, if_false] at hplaces ⊢
          have hrel := hrel.note (unitRecord source unit) (unitRecord source unit)
          generalize (m.afterReading r').note (unitRecord source unit) = m₁ at hplaces hrel ⊢
          generalize (d.afterReading r').note (unitRecord source unit) = d₁ at hrel ⊢
          cases hplace : Run.placeNames unit m₁ with
          | error e m₂ => simp [hplace] at hplaces
          | ok _ m₂ =>
            simp only [hplace] at hplaces
            obtain ⟨-, hascending⟩ := Language.ascending_turn hturn
            have hout := outcome_execute hrel (Language.isUnit_turn hturn) hconforms.1 hascending.nodup
              (fun site hsite => ⟨Nat.le_trans h.known (hascending.within site hsite).1, (hascending.within site hsite).2⟩)
              hplace
            rw [bind_apply, bind_apply]
            generalize Run.execute unit m₁ = rm at hout hplaces
            generalize Run.execute unit d₁ = rd at hout
            cases hout with
            | error w' later related admitted => exact .error _ w' related
            | ok w' later related holds =>
              obtain ⟨rfl, -⟩ := holds
              exact ih (r := r'.withTrace #[]) related _ _ hrest hplaces

/-! ## The start of a session -/

/-- A machine that has natives and nothing else. -/
structure Untouched (m : Machine) : Prop where
  frames : ∃ bindings : Bindings, m.frames = #[.builtins bindings, .globals [] #[]] ∧
    (∀ name value, bindings.get? name = some value → Native.IsStandardName name) ∧
    bindings.Holds fun value => ∃ ref, value = .native ref
  natives : ∀ n ∈ m.natives, n.IsStandard
  arrays : m.arrays = #[]
  functions : m.functions = #[]
  classes : m.classes = #[]
  objects : m.objects = #[]
  notes : m.notes = .empty
  nextSite : m.nextSite = 0

theorem Untouched.registerNative (h : Untouched m) (hn : n ∈ Native.standard) :
    Untouched (m.registerNative n) := by
  obtain ⟨bindings, hframes, hnames, hvalues⟩ := h.frames
  refine { h with frames := ⟨bindings.set n.name (.native m.natives.size), ?_, ?_, ?_⟩, natives := ?_ }
  · simp only [Machine.registerNative, hframes]
    rfl
  · intro name value hget
    rw [Bindings.get?_set] at hget
    split at hget
    · rename_i heq
      exact heq ▸ ⟨n, hn, rfl⟩
    · exact hnames name value hget
  · exact hvalues.set ⟨_, rfl⟩
  · exact Array.forall_mem_push.mpr ⟨Native.isStandard_of_mem hn, h.natives⟩

theorem Untouched.installNative (h : Untouched m) (name : Text) : Untouched (m.installNative name) := by
  unfold Machine.installNative
  cases hn : Native.standard? name with
  | some n => exact h.registerNative (List.mem_of_find?_eq_some hn)
  | none =>
    dsimp only
    rw [Machine.note_eq]
    exact { h with }

def withMode (m : Machine) (placesNames : Bool) : Machine :=
  { m with settings := { m.settings with placesNames } }

theorem installNative_withMode (m : Machine) (placesNames : Bool) (name : Text) :
    (withMode m placesNames).installNative name = withMode (m.installNative name) placesNames := by
  unfold Machine.installNative
  cases Native.standard? name with
  | some n => rfl
  | none => cases hwatched : m.settings.watched <;> simp [Machine.note, withMode, hwatched]

theorem start_installs (settings : Settings) (input : Input) (limit : Option Nat) (nextClass : Nat)
    (natives : List Text) :
    ∃ m, Untouched m ∧ m.settings = settings ∧ ∀ placesNames,
      (Machine.start { settings with placesNames } input limit nextClass).installNatives natives
        = withMode m placesNames := by
  have hfold : ∀ (names : List Text) (m : Machine), Untouched m → m.settings = settings →
      Untouched (names.foldl Machine.installNative m) ∧
        (names.foldl Machine.installNative m).settings = settings ∧ ∀ placesNames,
          names.foldl Machine.installNative (withMode m placesNames)
            = withMode (names.foldl Machine.installNative m) placesNames := by
    intro names
    induction names with
    | nil => exact fun m h hm => ⟨h, hm, fun _ => rfl⟩
    | cons name rest ih =>
      intro m h hm
      have hsettings : (m.installNative name).settings = settings := by
        unfold Machine.installNative
        split
        · exact hm
        · rw [Machine.note_eq]
          exact hm
      obtain ⟨hrest, hkept, hmodes⟩ := ih (m.installNative name) (h.installNative name) hsettings
      refine ⟨hrest, hkept, fun placesNames => ?_⟩
      rw [List.foldl_cons, List.foldl_cons, installNative_withMode, hmodes]
  have hstart : Untouched (Machine.start settings input limit nextClass) :=
    ⟨⟨[], rfl, by simp [Bindings.get?], by simp [Bindings.Holds]⟩, by simp [Machine.start], rfl, rfl, rfl, rfl,
      rfl, rfl⟩
  obtain ⟨h, hkept, hmodes⟩ := hfold (if natives = [] then Native.standard.map Native.name else natives) _
    hstart rfl
  exact ⟨_, h, hkept, hmodes⟩

theorem related_start (h : Untouched m) : ∃ w, Related ⟨m.settings, 0⟩ w (withMode m true) (withMode m false) := by
  obtain ⟨bindings, hframes, hnames, hvalues⟩ := h.frames
  refine ⟨⟨0, .empty, .empty, [], [], [.top, .top]⟩, ?_⟩
  have hempty : ∀ site : Nat, (withMode m false).notes.places.get? site = none ∧
      (withMode m false).notes.slots.get? site = none ∧ (withMode m false).notes.sizes.get? site = none := by
    intro site
    simp only [withMode, h.notes]
    exact ⟨rfl, rfl, rfl⟩
  exact
    { settings := ⟨rfl, rfl⟩
      store := rfl
      nextSite := ⟨h.nextSite, h.nextSite⟩
      known := Nat.le_refl 0
      places := by simp only [withMode, h.notes, and_self]
      sizes := by simp only [withMode, h.notes, and_self]
      fresh := fun site _ => hempty site
      frames := by
        simp only [withMode, hframes]
        refine ⟨rfl, rfl, fun f role hf => ?_, ⟨rfl, bindings, rfl, rfl, hnames⟩,
          ⟨rfl, #[], #[], rfl, rfl, Nat.le_refl _, Nat.le_refl _, fun _ => rfl⟩, by simp, by simp, by simp⟩
        match f, hf with
        | 0, hf =>
          cases hf
          exact ⟨_, _, rfl, rfl, trivial⟩
        | 1, hf =>
          cases hf
          exact ⟨_, _, rfl, rfl, trivial⟩
      functions_size := rfl
      functions := fun ref f g hf => by simp [withMode, h.functions] at hf
      classes := fun c hc => by simp [withMode, h.classes] at hc
      natives := h.natives
      held := by
        refine ⟨fun f frame hf => ?_, fun ref elements hr => ?_, fun ref o ho => ?_⟩
        · simp only [withMode, hframes] at hf
          match f, hf with
          | 0, hf =>
            cases hf
            intro entry hentry
            obtain ⟨ref, href⟩ := hvalues entry hentry
            rw [href]
            trivial
          | 1, hf =>
            cases hf
            intro i v hi
            simp at hi
        · simp [withMode, h.arrays] at hr
        · simp [withMode, h.objects] at ho }

/-! ## What the two runs leave behind -/

/-- With names that are all different, those that hold a value are those that have one. -/
theorem mem_heldNames (hnodup : names.Nodup) (values : Array (Option Value)) (name : Text) :
    name ∈ Frame.heldNames names values ↔ (globalValue names values name).isSome := by
  have hslot : ∀ slot : Nat, names[slot]? = some name ↔ names.idxOf? name = some slot := by
    intro slot
    refine ⟨fun h => ?_, getElem?_of_idxOf?⟩
    obtain ⟨hlt, rfl⟩ := List.getElem?_eq_some_iff.mp h
    rw [List.idxOf?_eq_some_iff]
    exact ⟨hlt, rfl, fun j hj heq => absurd ((List.Nodup.getElem_inj_iff hnodup).mp heq) (by omega)⟩
  unfold Frame.heldNames globalValue
  rw [List.mem_map]
  constructor
  · rintro ⟨⟨other, slot⟩, hmem, rfl⟩
    obtain ⟨hmem, hsome⟩ := List.mem_filter.mp hmem
    rw [(hslot slot).mp (List.mem_zipIdx_iff_getElem?.mp hmem)]
    exact hsome
  · intro h
    cases hidx : names.idxOf? name with
    | none => simp [hidx] at h
    | some slot =>
      rw [hidx] at h
      exact ⟨(name, slot), List.mem_filter.mpr ⟨List.mem_zipIdx_iff_getElem?.mpr ((hslot slot).mpr hidx), h⟩, rfl⟩

end Modes

/-- The sessions have come to the same point.  Arrays, objects, classes and functions are numbered alike in
both and are the same, save that a function need not have the same number of slots; frames have the same
numbers too and hold the same values, and so do the globals, though not always in the same slots. -/
structure Session.Corresponds (s t : Session) : Prop where
  output : t.machine.output = s.machine.output
  input : t.machine.input = s.machine.input
  arrays : t.machine.arrays = s.machine.arrays
  objects : t.machine.objects = s.machine.objects
  classes : t.machine.classes = s.machine.classes
  natives : t.machine.natives = s.machine.natives
  functions : ∀ ref : Nat, t.machine.functions[ref]?.map (fun f => (f.name, f.parameters, f.body, f.env))
    = s.machine.functions[ref]?.map (fun f => (f.name, f.parameters, f.body, f.env))
  frames : ∃ roles globals globals',
    Modes.FramesAgree roles globals globals' s.machine.frames t.machine.frames
  held : ∀ name, name ∈ t.machine.heldGlobalNames ↔ name ∈ s.machine.heldGlobalNames
  global : ∀ name, t.global? name = s.global? name
  render : ∀ value, t.render value = s.render value

namespace Modes

theorem Related.corresponds (h : Related stage w m d)
    (layers : Layers) : Session.Corresponds ⟨layers, m⟩ ⟨layers, d⟩ where
  output := (congrArg Machine.output h.store).symm
  input := (congrArg Machine.input h.store).symm
  arrays := (congrArg Machine.arrays h.store).symm
  objects := h.objects
  classes := h.classes_eq
  natives := (congrArg Machine.natives h.store).symm
  functions ref := by
    rcases h.function ref with ⟨hm, hd⟩ | ⟨f, g, hm, hd, hfg⟩
    · rw [hm, hd]
    · rw [hm, hd, Option.map_some, Option.map_some, hfg.name, hfg.parameters, hfg.body, hfg.env]
  frames := ⟨_, _, _, h.frames⟩
  held name := by
    obtain ⟨-, values, values', hg, hg', -, -, hsame⟩ := h.frames.top
    simp only [Machine.heldGlobalNames, hg, hg', mem_heldNames h.frames.nodup.1, mem_heldNames h.frames.nodup.2,
      hsame]
  global name := h.frames.get?_global name
  render value := by
    have hrender := Machine.render_withStoreOf h.sameNames value
    rw [h.store] at hrender
    exact hrender

theorem corresponds_run
    (h : RunsAgree settings
      (Run.runUnits layers name ((Stream.ofSource source).size + 1)
        (.start (Stream.ofSource source) m.nextSite) .null 0 m)
      (Run.runUnits layers name ((Stream.ofSource source).size + 1)
        (.start (Stream.ofSource source) d.nextSite) .null 0 d)) :
    (Session.run ⟨layers, d⟩ name source).1 = (Session.run ⟨layers, m⟩ name source).1 ∧
      (Session.run ⟨layers, m⟩ name source).2.Corresponds (Session.run ⟨layers, d⟩ name source).2 := by
  have hrun : ∀ m, Session.run ⟨layers, m⟩ name source
      = match Run.runUnits layers name ((Stream.ofSource source).size + 1)
          (.start (Stream.ofSource source) m.nextSite) .null 0 m with
        | .ok value m => (.ok value, ⟨layers, m⟩)
        | .error e m => (.error (e.label name), ⟨layers, m⟩) := by
    intro m
    show Session.perform _ (Run.labelled name (Run.runUnits layers name _ (.start _ m.nextSite) .null 0)) = _
    unfold Session.perform Run.labelled
    cases Run.runUnits layers name ((Stream.ofSource source).size + 1)
      (.start (Stream.ofSource source) m.nextSite) .null 0 m <;> rfl
  rw [hrun, hrun]
  generalize Run.runUnits layers name _ _ .null 0 m = rm at h
  generalize Run.runUnits layers name _ _ .null 0 d = rd at h
  cases h with
  | ok next w related => exact ⟨rfl, related.corresponds layers⟩
  | error next w related => exact ⟨rfl, related.corresponds layers⟩

end Modes

/-- The configuration with names placed or not. -/
def Config.inMode (config : Config) (placesNames : Bool) : Config := { config with placesNames }

/-- A source whose units conform means the same whether names are placed before it runs or looked up while
it runs, as long as no unit is too deep to be placed. -/
theorem placing_keeps_meaning (config : Config) (watched : Bool) (input : Input) (limit : Option Nat)
    (nextClass : Nat) (name source : Text)
    (hconforms : ∀ unit ∈ ((Session.start (config.inMode true) watched input limit
      nextClass).parse source).1.units, unit.Conforms)
    (hplaces : (Session.start (config.inMode true) watched input limit nextClass).placesAll
      name source = true) :
    let placed := (Session.start (config.inMode true) watched input limit nextClass).run name source
    let lookedUp :=
      (Session.start (config.inMode false) watched input limit nextClass).run name source
    lookedUp.1 = placed.1 ∧ placed.2.Corresponds lookedUp.2 := by
  obtain ⟨m, huntouched, hsettings, hmodes⟩ := Modes.start_installs
    ⟨depthLimit config.maxDepth, config.placesNames, watched, defaultRounds⟩ input limit nextClass config.natives
  have hstart : ∀ placesNames, Session.start (config.inMode placesNames) watched input limit nextClass
      = ⟨config.layers, Modes.withMode m placesNames⟩ :=
    fun placesNames => congrArg (Session.mk config.layers) (hmodes placesNames)
  rw [hstart] at hconforms hplaces
  simp only [hstart]
  obtain ⟨w, hrel⟩ := Modes.related_start huntouched
  rw [← huntouched.nextSite] at hrel
  have hagree := Modes.runsAgree_runUnits config.layers name ((Stream.ofSource source).size + 1)
    (r := .start (Stream.ofSource source) m.nextSite) hrel .null 0 hconforms hplaces
  exact Modes.corresponds_run hagree

/-- A function that counts in a parameter of the function around it, a class, and their use. -/
def countingSource : Text :=
  text "def counter (c) \x7b fun () \x7b c = c + 1 \x7d \x7d\ntick = counter(5)\nclass P \x7b x = 1\n def get () \x7b x \x7d \x7d\nprint(P.new.get() + tick())\n"

/-- A session as it is without any options, in either mode. -/
def sessionIn (placesNames : Bool) : Session :=
  Session.start (Config.default.inMode placesNames) false (.ofText []) none 0

theorem counting_conforms :
    ∀ unit ∈ ((sessionIn true).parse countingSource).1.units, unit.Conforms := by
  decide +kernel

theorem counting_placesAll : (sessionIn true).placesAll (text "main") countingSource = true := by
  decide +kernel

theorem counting_prints :
    ((sessionIn true).run (text "main") countingSource).2.machine.output.chunks = #[text "7\n"] := by
  decide +kernel

/-- The two runs of the counting program agree. -/
theorem counting_keeps_meaning :
    ((sessionIn true).run (text "main") countingSource).2.machine.output.chunks = #[text "7\n"] ∧
      ((sessionIn false).run (text "main") countingSource).1 = ((sessionIn true).run (text "main") countingSource).1 ∧
      ((sessionIn true).run (text "main") countingSource).2.Corresponds
        ((sessionIn false).run (text "main") countingSource).2 := by
  refine ⟨counting_prints, ?_⟩
  have hconforms := counting_conforms
  have hplaces := counting_placesAll
  unfold sessionIn at hconforms hplaces ⊢
  exact placing_keeps_meaning .default false (.ofText []) none 0 (text "main") countingSource hconforms hplaces

end StoneLang
