/-
  The natives are out of reach.

  Nothing that a program does changes the frame of the natives.  Every environment in use ends with the
  global frame and the frame of the natives behind it, or with no frame of theirs at all (`SealedEnv`); an
  assignment by name stops at the global frame, and a slot is never written in the frame of the natives.
  So running keeps up what natives there are (`Sealed.keeps_execute`).
-/
import StoneLang.Proofs.Evaluation.Upkeep

namespace StoneLang

/-- Before the frame of the natives there is always the global one. -/
def SealedEnv (env : Env) : Prop :=
  ∃ inner tail, env = inner ++ tail ∧ (∀ f ∈ inner, 2 ≤ f) ∧ (tail = Machine.globalEnv ∨ tail = [])

theorem SealedEnv.global : SealedEnv Machine.globalEnv := ⟨[], _, rfl, by simp, .inl rfl⟩

theorem SealedEnv.nil : SealedEnv [] := ⟨[], [], rfl, by simp, .inr rfl⟩

theorem SealedEnv.cons (h : SealedEnv env) (hf : 2 ≤ f) : SealedEnv (f :: env) := by
  obtain ⟨inner, tail, rfl, hinner, htail⟩ := h
  exact ⟨f :: inner, tail, rfl, List.forall_mem_cons.mpr ⟨hf, hinner⟩, htail⟩

/-- The natives are the given ones, the global frame is in its place, and every function and class stands
in a sealed environment. -/
structure Sealed (bindings : Bindings) (natives : Array Native) (settings : Settings) (m : Machine) :
    Prop where
  builtins : m.frames[0]? = some (.builtins bindings)
  globals : ∃ names values, m.frames[1]? = some (.globals names values)
  natives_eq : m.natives = natives
  settings_eq : m.settings = settings
  functions : ∀ f ∈ m.functions, SealedEnv f.env
  classes : ∀ c ∈ m.classes, SealedEnv c.env

/-- The frame of the natives is as given, and the global frame is in its place. -/
structure SealedFrames (bindings : Bindings) (frames : Frames) : Prop where
  builtins : frames[0]? = some (.builtins bindings)
  globals : ∃ names values, frames[1]? = some (.globals names values)

namespace SealedFrames

variable {bindings : Bindings} {frames : Frames}

section
variable (h : SealedFrames bindings frames)

include h

theorem assignee_ne_zero (henv : SealedEnv env)
    (hf : frames.assignee? name env = some f) : f ≠ 0 := by
  obtain ⟨inner, tail, rfl, hinner, htail⟩ := henv
  obtain ⟨names, values, hglobals⟩ := h.globals
  -- whoever holds a name among by-name frames is one of the frames passed
  have hholder : ∀ (inner : List Nat), (∀ g ∈ inner, 2 ≤ g) → ∀ g,
      frames.holder? name (inner ++ tail) = some g → g ≠ 0 := by
    intro inner
    induction inner with
    | nil =>
      intro _ g hg
      rcases htail with rfl | rfl
      · simp [Frames.holder?, Machine.globalEnv, Machine.globalFrame, hglobals] at hg
      · cases hg
    | cons x rest ih =>
      intro hle g hg
      simp only [List.cons_append, Frames.holder?] at hg
      split at hg
      · split at hg
        · cases hg
          have := hle x (by simp)
          omega
        · exact ih (fun y hy => hle y (by simp [hy])) g hg
      · cases hg
  induction inner with
  | nil =>
    rcases htail with rfl | rfl
    · simp only [List.nil_append, Machine.globalEnv, Machine.globalFrame, Frames.assignee?, hglobals] at hf
      cases hf
      decide
    · cases hf
  | cons x rest ih =>
    simp only [List.cons_append, Frames.assignee?] at hf
    have hx := hinner x (by simp)
    split at hf
    · rw [Option.some.injEq] at hf
      subst hf
      cases hheld : frames.holder? name (x :: (rest ++ tail)) with
      | none =>
        simp only [Option.getD_none]
        omega
      | some g => exact hholder (x :: rest) hinner g hheld
    · exact ih hf fun y hy => hinner y (by simp [hy])
    · cases hf
      omega
    · cases hf
      omega
    · cases hf

/-- A change of one frame that is not the one of the natives, and keeps the frame's kind. -/
theorem modify (hf : f ≠ 0)
    (hkind : ∀ frame : Frame, frame.SameKind (change frame)) : SealedFrames bindings (frames.modify f change) := by
  refine ⟨?_, ?_⟩
  · rw [Frames.getElem?_modify_of_ne _ (Ne.symm hf)]
    exact h.builtins
  · obtain ⟨names, values, hglobals⟩ := h.globals
    by_cases hone : f = 1
    · subst hone
      rw [Frames.getElem?_modify_self, hglobals]
      have := hkind (.globals names values)
      cases hc : change (.globals names values) with
      | globals names' values' => exact ⟨names', values', by simp [hc]⟩
      | _ => simp [Frame.SameKind, hc] at this
    · rw [Frames.getElem?_modify_of_ne _ (Ne.symm hone)]
      exact ⟨names, values, hglobals⟩

theorem bindIn (henv : SealedEnv env) (value : Value) :
    SealedFrames bindings (frames.bindIn (frames.assignee? name env) name value) := by
  cases hf : frames.assignee? name env with
  | none => exact h
  | some f => exact h.modify (h.assignee_ne_zero henv hf) (Frame.sameKind_bind name value)

theorem write (hf : frames.slotOwner env nest index = .ok f) (value : Value) :
    SealedFrames bindings (frames.write f index value) := by
  refine h.modify ?_ (Frame.sameKind_setSlot index.toNat value)
  rintro rfl
  -- the frame of the natives has no slots
  rcases (Frames.slotOwner_ok hf).2 with ⟨values, hslots, _⟩ | ⟨names, values, hglobals, _⟩
  · rw [h.builtins] at hslots
    cases hslots
  · rw [h.builtins] at hglobals
    cases hglobals

theorem two_le_size : 2 ≤ frames.size := by
  obtain ⟨names, values, hglobals⟩ := h.globals
  exact (Array.getElem?_eq_some_iff.mp hglobals).1

theorem push (frame : Frame) : SealedFrames bindings (frames.push frame) := by
  have hsize := h.two_le_size
  obtain ⟨names, values, hglobals⟩ := h.globals
  refine ⟨?_, names, values, ?_⟩
  · rw [Frames.getElem?_push_of_lt _ (by omega)]
    exact h.builtins
  · rw [Frames.getElem?_push_of_lt _ hsize]
    exact hglobals

end

theorem withGlobalNames {m : Machine} (h : SealedFrames bindings m.frames) (names : List Text) :
    SealedFrames bindings (m.withGlobalNames names).frames := by
  have hglobal : Machine.globalFrame ≠ 0 := by decide
  unfold Machine.withGlobalNames
  dsimp only
  apply h.modify hglobal
  intro frame
  cases frame <;> trivial

end SealedFrames

def Upkeep.sealing (bindings : Bindings) : Upkeep where
  kind := .any
  env := SealedEnv
  kept m := SealedFrames bindings m.frames
  env_nil := .nil
  env_push h he := he.cons h.two_le_size
  stored h hframes _ _ _ := hframes ▸ h
  pushed frame h := h.push frame
  bound _ value h he := h.bindIn he value
  written value h howner := h.write howner value
  remembering h _ _ _ := h
  placed _ _ h _ := h.withGlobalNames _
  laidOut _ _ _ _ h _ := h
  withClass _ h _ := h

theorem sealed_iff {bindings : Bindings} {natives : Array Native} {settings : Settings} {m : Machine} :
    Sealed bindings natives settings m
      ↔ (m.natives = natives ∧ m.settings = settings) ∧ (Upkeep.sealing bindings).Holds m := by
  constructor
  · intro h
    exact ⟨⟨h.natives_eq, h.settings_eq⟩, m.carries_any, h.functions, h.classes, h.builtins, h.globals⟩
  · rintro ⟨⟨hnatives, hsettings⟩, h⟩
    exact ⟨h.kept.builtins, h.kept.globals, hnatives, hsettings, h.functions, h.classes⟩

theorem Sealed.keeps_execute (bindings : Bindings) (natives : Array Native) (settings : Settings) (unit : Node) :
    Coupling.Keeps (Sealed bindings natives settings) (fun _ => True) (Run.execute unit) := by
  refine Coupling.keeps_iff_ends.mpr fun m hm => ?_
  obtain ⟨⟨hnatives, hsettings⟩, hholds⟩ := sealed_iff.mp hm
  have hunit : (Upkeep.sealing bindings).Ends m.surroundings (Upkeep.sealing bindings).good (Run.execute unit) :=
    Upkeep.ends_execute trivial .global
  refine (hunit m ⟨rfl, hholds⟩).imp (fun _ h => sealed_iff.mpr ⟨⟨?_, ?_⟩, h.2⟩) (fun _ _ => trivial) fun _ _ => trivial
  · exact (congrArg Surroundings.natives h.1).trans hnatives
  · exact (congrArg Surroundings.settings h.1).trans hsettings

end StoneLang
