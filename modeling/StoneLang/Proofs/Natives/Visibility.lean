/-
  Which natives a session sees.

  SPEC: a native of a session answers to its name until the session declares a global of that name.  A
  declaration is enough: placing the names of a unit gives every name that the unit could assign at the
  top a slot, before anything is evaluated, so a global that never got a value hides a native as well.

  PROGRAM: `Session.evalLine`, applied to line after line, whatever each of them does or fails with.

  The crux is that the frame of the natives is sealed (`Sealed`): each part of a line keeps it
  (`keeps_evalLine`), so a line that consists of a name is decided by the declared global names alone.
-/
import StoneLang.Proofs.Natives.Sealed

namespace StoneLang

open Coupling

namespace Sealed

section
variable (bindings : Bindings) (natives : Array Native) (settings : Settings)

theorem keeps_executeAll (units : List Node) (last : Value) :
    Keeps (Sealed bindings natives settings) (fun _ => True) (Run.executeAll units last) := by
  induction units generalizing last with
  | nil => exact fun _ hm => ⟨hm, trivial⟩
  | cons unit rest ih =>
    unfold Run.executeAll
    split
    · exact ih last
    · exact (keeps_execute bindings natives settings unit).bind fun value _ => ih value

end

variable {bindings : Bindings} {natives : Array Native} {settings : Settings}

variable {s : Session} {m : Machine}

theorem perform
    (haction : Keeps (Sealed bindings natives settings) (fun _ => True) action)
    (h : Sealed bindings natives settings s.machine) :
    Sealed bindings natives settings (s.perform action).2.machine := by
  have hkeeps := haction s.machine h
  unfold Session.perform
  generalize action s.machine = res at hkeeps ⊢
  cases res with
  | ok a m' => exact hkeeps.1
  | error failure m' => exact hkeeps

theorem evalLine (h : Sealed bindings natives settings s.machine) (source : Text) :
    Sealed bindings natives settings (s.evalLine source).2.machine := by
  have hparse : Keeps (Sealed bindings natives settings) (fun _ => True)
      (Run.parseStream s.layers (.ofSource source)) :=
    fun _ hm => ⟨⟨hm.builtins, hm.globals, hm.natives_eq, hm.settings_eq, hm.functions, hm.classes⟩, trivial⟩
  refine perform (hparse.bind fun parsed _ => ?_) h
  cases parsed.failure with
  | some failure => exact fun m hm => hm
  | none => exact keeps_executeAll bindings natives settings parsed.units .null

theorem registerNative (h : Sealed bindings natives settings m) (native : Native) :
    Sealed (bindings.set native.name (.native natives.size)) (natives.push native) settings
      (m.registerNative native) := by
  have hframes : (m.registerNative native).frames
      = m.frames.modify 0 (Frame.bind native.name (.native m.natives.size)) := by
    simp only [Machine.registerNative, Frames.define, Frames.definer?, Machine.builtinFrame, h.builtins,
      Frames.bindIn]
  obtain ⟨names, values, hglobals⟩ := h.globals
  refine ⟨?_, ⟨names, values, ?_⟩, ?_, h.settings_eq, h.functions, h.classes⟩
  · rw [hframes, Frames.getElem?_modify_self, h.builtins, h.natives_eq]
    rfl
  · rw [hframes, Frames.getElem?_modify_of_ne _ (by decide)]
    exact hglobals
  · show m.natives.push native = natives.push native
    rw [h.natives_eq]

theorem start (settings : Settings) (input : Input) (limit : Option Nat) (nextClass : Nat) :
    Sealed [] #[] settings (Machine.start settings input limit nextClass) where
  builtins := rfl
  globals := ⟨[], #[], rfl⟩
  natives_eq := rfl
  settings_eq := rfl
  functions := by simp [Machine.start]
  classes := by simp [Machine.start]

end Sealed

/-! ## A line that is a name -/

theorem Scope.get?_globals (names : List Text) (name : Text) :
    Scope.get? [⟨.globals, names⟩] name = (names.idxOf? name).map (.lexical 0) := by
  simp only [get?, lookup, Table.find?]
  rfl

/-- Placing the names of a unit that is a name notes the slot that it has, and declares nothing. -/
theorem Run.placeNames_name
    (hglobals : m.frames[Machine.globalFrame]? = some (.globals names values))
    (hdepth : 0 < m.settings.maxDepth) (site : Site) (word : Word) :
    ∃ m', Run.placeNames (.name site word) m = .ok () m' ∧ m'.frames = m.frames ∧
      m'.settings = m.settings ∧ m'.natives = m.natives ∧
      m'.notes.places.get? site = (names.idxOf? word.text).map (.lexical 0) := by
  obtain ⟨depth, hdepth⟩ : ∃ depth, m.settings.maxDepth = depth + 1 :=
    ⟨m.settings.maxDepth - 1, by omega⟩
  have hnames : m.globalNames = names := by simp only [Machine.globalNames, hglobals]
  have hsame : (m.withGlobalNames names).frames = m.frames := by
    refine Array.ext_getElem? fun f => ?_
    by_cases hf : f = Machine.globalFrame
    · subst hf
      simp only [Machine.withGlobalNames, Frames.getElem?_modify_self, hglobals, Option.map_some]
    · exact Frames.getElem?_modify_of_ne _ hf _
  obtain ⟨records, hvisit⟩ := ScopeActions.resolver_read ⟨m.settings.maxDepth, m.settings.watched⟩ site
    (.start names m.notes) word
  rw [hdepth] at hvisit
  rw [Run.placeNames_eq, hnames]
  unfold resolve visit
  rw [hdepth, ← ScopeActions.visitWithin_resolver]
  refine ⟨_, congrArg (onState m.placed) hvisit, hsame, rfl, rfl, ?_⟩
  rw [← Scope.get?_globals]
  exact (SiteMap.get?_put _ _ _ _).trans (if_pos rfl)

end StoneLang
