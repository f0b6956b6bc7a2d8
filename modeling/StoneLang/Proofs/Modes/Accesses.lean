/-
  Reading and assigning names in two modes.

  In related machines a name that has been placed reads the same (`Related.read`): outside class bodies
  the slot of a parameter holds what its name is bound to, and what is found in no function is looked up
  among the globals and the natives.  An assignment has the same effect in both or fails in both
  (`Related.assign`).
-/
import StoneLang.Proofs.Modes.Relation

namespace StoneLang.Modes

theorem read_global {m : Machine} {inner : List Nat} {tail : Env} {names : List Text} {site : Site}
    {word : Word} (hslots : m.frames.AllSlots inner) (htail : tail = Machine.globalEnv ∨ tail = [])
    (hglobal : ∀ slot : Nat, names.idxOf? word.text = some slot →
      m.frames.getAt? Machine.globalEnv 0 slot = m.frames.get? word.text Machine.globalEnv)
    (hplace : GlobalPlace names inner.length word.text (m.notes.places.get? site)) :
    m.read site word (inner ++ tail)
      = (m.frames.get? word.text tail).elim (.error (.undefinedName word.text)) .ok := by
  unfold Machine.read
  rcases hplace with hnone | ⟨slot, hsome, hslot⟩
  · simp only [hnone, Frames.get?_slots hslots]
    cases m.frames.get? word.text tail <;> rfl
  · have hget : m.frames.getAt? tail 0 slot = m.frames.get? word.text tail := by
      rcases htail with rfl | rfl
      · exact hglobal slot hslot
      · rfl
    simp only [hsome, Frames.getAt?_beyond hslots, hget]
    cases m.frames.get? word.text tail <;> rfl

namespace Related

variable {stage : Stage} {w : World} {m d : Machine}

section
variable (h : Related stage w m d)

include h

theorem getAt?_global (name : Text) (slot : Nat) (hslot : w.globals.idxOf? name = some slot) :
    m.frames.getAt? Machine.globalEnv 0 slot = m.frames.get? name Machine.globalEnv := by
  obtain ⟨-, bindings, hb, -, hstandard⟩ := h.frames.natives
  obtain ⟨-, values, values', hg, -⟩ := h.frames.top
  exact FramesAgree.getAt?_global hg hb hstandard h.frames.fresh hslot

theorem getAt?_global' (name : Text) (slot : Nat) (hslot : w.globals'.idxOf? name = some slot) :
    d.frames.getAt? Machine.globalEnv 0 slot = d.frames.get? name Machine.globalEnv := by
  obtain ⟨-, bindings, -, hb, hstandard⟩ := h.frames.natives
  obtain ⟨-, values, values', -, hg, -⟩ := h.frames.top
  exact FramesAgree.getAt?_global hg hb hstandard h.frames.fresh' hslot

theorem get?_tail (htail : tail = Machine.globalEnv ∨ tail = []) (name : Text) :
    d.frames.get? name tail = m.frames.get? name tail := by
  rcases htail with rfl | rfl
  · exact h.frames.get?_global name
  · rfl

theorem objects : d.objects = m.objects := (congrArg Machine.objects h.store).symm

theorem classes_eq : d.classes = m.classes := (congrArg Machine.classes h.store).symm

theorem classOf? (object : Nat) : d.classOf? object = m.classOf? object := by
  unfold Machine.classOf?
  rw [h.objects, h.classes_eq]

theorem className (object : Nat) : d.className object = m.className object := by
  unfold Machine.className
  rw [h.classOf?]

theorem fieldAt? (object index : Nat) : Run.fieldAt? d object index = Run.fieldAt? m object index := by
  unfold Run.fieldAt?
  rw [h.objects]

theorem methodAt? (object index : Nat) : Run.methodAt? d object index = Run.methodAt? m object index := by
  unfold Run.methodAt?
  rw [h.classOf?]

theorem receiver? {inner : List Nat} (hfits : SharedFits w.roles inner) (hhops : hops < inner.length) (tail : Env) :
    d.receiver? (inner ++ tail) hops = m.receiver? (inner ++ tail) hops := by
  unfold Machine.receiver?
  rw [h.frames.getAt?_shared hfits hhops]

theorem read {c : Index} {env : Env} (hfits : w.Fits env c) {site : Site} {word : Word}
    (hplaced : w.Placed c (.read site word)) : d.read site word env = m.read site word env := by
  cases c with
  | outside chain =>
    obtain ⟨inner, rfl, hfits⟩ := hfits
    obtain ⟨-, -, hplace, hnone⟩ := hplaced
    have hslots := h.frames.allSlots_chain hfits
    have hlength : chain.length = inner.length := hfits.length_eq.symm
    simp only [OpenPlaced, Use.site] at hplace hnone
    rw [← h.places.1] at hplace
    rw [← h.places.2] at hnone
    cases hfind : chain.find? word.text with
    | some place =>
      simp only [hfind] at hplace
      obtain ⟨-, -, value, -, -, -, hm, hd, -⟩ := h.frames.get?_param hfits hfind Machine.globalEnv
      simp only [Machine.read, hplace, hnone, hm, hd]
    | none =>
      simp only [hfind, hlength] at hplace
      rw [read_global hslots (.inl rfl) (h.getAt?_global _) hplace]
      simp only [Machine.read, hnone, h.frames.get?_beyond hfits hfind, h.frames.get?_global]
      cases m.frames.get? word.text Machine.globalEnv <;> rfl
  | member depth =>
    obtain ⟨inner, tail, rfl, htail, rfl, hfits⟩ := hfits
    obtain ⟨-, -, hplace⟩ := hplaced
    obtain ⟨hslots, hslots'⟩ := h.frames.allSlots_shared hfits
    simp only [ClassPlaced, Use.site, ← h.places.1, ← h.places.2] at hplace
    rcases hplace with ⟨location, hm, hd, hhops⟩ | ⟨hm, hd⟩
    · unfold Machine.read
      rw [hm, hd]
      cases location with
      | lexical nest index =>
        simp only [Location.hops] at hhops
        simp only [h.frames.getAt?_shared hfits hhops]
      | field index hops =>
        simp only [Location.hops] at hhops
        simp only [h.receiver? hfits hhops, h.fieldAt?, h.className]
      | method index hops =>
        simp only [Location.hops] at hhops
        simp only [h.receiver? hfits hhops, h.methodAt?, h.className]
    · rw [read_global hslots htail (h.getAt?_global _) hm, read_global hslots' htail (h.getAt?_global' _) hd,
        h.get?_tail htail]

/-- A declared global is given a value, by slot and by name.  It may be new where names are looked up. -/
theorem assignGlobal (hslot : w.globals.idxOf? name = some slot)
    (hvalue : w.Good value) :
    m.frames.slotOwner Machine.globalEnv 0 slot = .ok Machine.globalFrame ∧
      d.frames.assignee? name Machine.globalEnv = some Machine.globalFrame ∧
      ∃ w', w.le w' ∧ Related stage w' { m with frames := m.frames.write Machine.globalFrame slot value }
        { d with frames := d.frames.bindIn (some Machine.globalFrame) name value } := by
  obtain ⟨howner, hassignee, names, hnames, hagree⟩ := h.frames.assign_global hslot value
  obtain ⟨hle, hrel⟩ := h.reframe List.prefix_rfl List.prefix_rfl hnames hagree
    (h.held.frames.write _ _ hvalue)
  exact ⟨howner, hassignee, _, hle, hrel⟩

theorem assign (hfits : w.Fits env c)
    (hplaced : w.Placed c (.assign site word)) (hvalue : w.Good value) :
    (∃ cause, m.assigned site word value env = .error cause ∧ d.assigned site word value env = .error cause) ∨
      ∃ w' m' d', m.assigned site word value env = .ok m' ∧ d.assigned site word value env = .ok d' ∧
        w.le w' ∧ Related stage w' m' d' := by
  cases c with
  | outside chain =>
    obtain ⟨inner, rfl, hfits⟩ := hfits
    obtain ⟨-, -, hplace, hnone⟩ := hplaced
    simp only [OpenPlaced, Use.site] at hplace hnone
    rw [← h.places.1] at hplace
    rw [← h.places.2] at hnone
    cases hfits with
    | nil =>
      obtain ⟨slot, hplace, hslot⟩ := hplace
      obtain ⟨howner, hassignee, w', hle, hrel⟩ := h.assignGlobal hslot hvalue
      refine .inr ⟨w', _, _, ?_, ?_, hle, hrel⟩
      · simp only [Machine.assigned, hplace, List.nil_append]
        rw [show ((0 : Nat) : Int) = 0 from rfl, howner]
      · simp only [Machine.assigned, hnone, List.nil_append, hassignee]
    | @cons f names inner outer hf hrest =>
      obtain ⟨place, hfind, hplace⟩ := hplace
      obtain ⟨g, howner, hassignee, hagree⟩ :=
        h.frames.assign_param (.cons hf hrest) hfind Machine.globalEnv value
      obtain ⟨hle, hrel⟩ := h.reframe List.prefix_rfl List.prefix_rfl List.prefix_rfl hagree
        (h.held.frames.write _ _ hvalue)
      refine .inr ⟨_, _, _, ?_, ?_, hle, hrel⟩
      · simp only [Machine.assigned, hplace, howner]
      · simp only [Machine.assigned, hnone, hassignee]
  | member depth =>
    obtain ⟨inner, tail, rfl, htail, rfl, hfits⟩ := hfits
    obtain ⟨-, -, hplace⟩ := hplaced
    simp only [ClassPlaced, Use.site, ← h.places.1, ← h.places.2] at hplace
    obtain ⟨location, hm, hd, hhops⟩ := hplace
    unfold Machine.assigned
    rw [hm, hd]
    cases location with
    | lexical nest index =>
      simp only [Location.hops] at hhops
      obtain ⟨hsame, hshared⟩ := h.frames.slotOwner_shared hfits hhops index tail
      simp only [hsame]
      cases howner : m.frames.slotOwner (inner ++ tail) nest index with
      | error reason => exact .inl ⟨_, rfl, rfl⟩
      | ok f =>
        obtain ⟨hle, hrel⟩ := h.reframe List.prefix_rfl List.prefix_rfl List.prefix_rfl
          (h.frames.write_shared (hshared f howner) index value) (h.held.frames.write _ _ hvalue)
        exact .inr ⟨_, _, _, rfl, rfl, hle, hrel⟩
    | field index hops =>
      simp only [Location.hops] at hhops
      simp only [h.receiver? hfits hhops, h.fieldAt?, h.className]
      cases m.receiver? (inner ++ tail) hops with
      | none => exact .inl ⟨_, rfl, rfl⟩
      | some object =>
        dsimp only
        cases Run.fieldAt? m object index with
        | none => exact .inl ⟨_, rfl, rfl⟩
        | some old =>
          refine .inr ⟨w, _, _, rfl, rfl, .refl w, { h with store := ?_, held := h.held.withField _ _ hvalue }⟩
          have hstore := congrArg (fun d : Machine => d.withField object index value) h.store
          exact hstore
    | method index hops => exact .inl ⟨_, rfl, rfl⟩

end

end Related

end StoneLang.Modes
