/-
  The values that a machine holds.

  A value rests in a frame, in an array or in a field of an object.  `Machine.Holds P` says that all of
  them satisfy `P`.  What is read from such a machine satisfies `P`, and a machine keeps to it as long as
  what is written does.
-/
import StoneLang.Proofs.Evaluation.Accesses
import StoneLang.Proofs.Evaluation.Frames

namespace StoneLang

variable {P : Value → Prop}

/-- All values in the bindings satisfy `P`. -/
def Bindings.Holds (P : Value → Prop) (bindings : Bindings) : Prop := ∀ entry ∈ bindings, P entry.2

def SlotsHold (P : Value → Prop) (values : Array (Option Value)) : Prop :=
  ∀ (i : Nat) v, values[i]? = some (some v) → P v

/-- All values in the frame satisfy `P`. -/
def Frame.Holds (P : Value → Prop) : Frame → Prop
  | .builtins bindings | .byName bindings => bindings.Holds P
  | .slots values | .globals _ values => SlotsHold P values

def Frames.Hold (P : Value → Prop) (frames : Frames) : Prop :=
  ∀ (f : Nat) frame, frames[f]? = some frame → frame.Holds P

/-- All values that the machine holds satisfy `P`. -/
structure Machine.Holds (P : Value → Prop) (m : Machine) : Prop where
  frames : m.frames.Hold P
  arrays : ∀ (ref : Nat) elements, m.arrays[ref]? = some elements → ∀ v ∈ elements, P v
  objects : ∀ (ref : Nat) o, m.objects[ref]? = some o → ∀ v ∈ o.fields, P v

/-! ## Bindings and slots -/

namespace Bindings.Holds

variable {bindings : Bindings} {name : Text} {value : Value}

theorem get? (h : bindings.Holds P) (hget : bindings.get? name = some value) : P value := by
  induction bindings with
  | nil => cases hget
  | cons entry rest ih =>
    rw [Bindings.get?_cons] at hget
    split at hget
    · cases hget
      exact h entry (by simp)
    · exact ih (fun e he => h e (by simp [he])) hget

theorem set (h : bindings.Holds P) (hvalue : P value) : (bindings.set name value).Holds P := by
  induction bindings with
  | nil => simpa [Bindings.set, Bindings.Holds] using hvalue
  | cons entry rest ih =>
    have hrest : Bindings.Holds P rest := fun e he => h e (by simp [he])
    simp only [Bindings.set]
    split
    · exact List.forall_mem_cons.mpr ⟨hvalue, hrest⟩
    · exact List.forall_mem_cons.mpr ⟨h _ (by simp), ih hrest⟩

end Bindings.Holds

namespace SlotsHold

variable {values : Array (Option Value)} {value : Value}

theorem slotAt (h : SlotsHold P values) (hget : slotAt values index = some value) : P value := by
  unfold StoneLang.slotAt at hget
  split at hget
  · cases hget
  · exact h _ _ (Option.join_eq_some_iff.mp hget)

theorem grow (h : SlotsHold P values) (n : Nat) : SlotsHold P (grow values n) := by
  intro i v hi
  unfold StoneLang.grow at hi
  rw [Array.getElem?_append] at hi
  split at hi
  · exact h i v hi
  · rw [Array.getElem?_replicate] at hi
    split at hi <;> simp at hi

theorem set (h : SlotsHold P values) (hvalue : P value) (index : Nat) :
    SlotsHold P (values.setIfInBounds index (some value)) := by
  intro i v hi
  rw [Array.getElem?_setIfInBounds] at hi
  split at hi
  · split at hi
    · cases hi
      exact hvalue
    · cases hi
  · exact h i v hi

end SlotsHold

/-! ## Frames -/

variable {frame : Frame} {value : Value}

theorem Frame.Holds.bind (h : frame.Holds P) (name : Text) (hvalue : P value) : (frame.bind name value).Holds P := by
  cases frame with
  | builtins bindings => exact Bindings.Holds.set h hvalue
  | byName bindings => exact Bindings.Holds.set h hvalue
  | slots values => exact h
  | globals names values => exact (SlotsHold.grow h _).set hvalue _

theorem Frame.Holds.setSlot (h : frame.Holds P) (index : Nat) (hvalue : P value) :
    (frame.setSlot index value).Holds P := by
  cases frame with
  | builtins bindings => exact h
  | byName bindings => exact h
  | slots values => exact SlotsHold.set h hvalue _
  | globals names values => exact (SlotsHold.grow h _).set hvalue _

theorem holds_slotFrame (h : Run.slotFrame size arguments = .ok frame) (harguments : ∀ v ∈ arguments, P v) :
    (∃ slots, frame = .slots slots) ∧ frame.Holds P := by
  unfold Run.slotFrame at h
  split at h
  · cases h
    refine ⟨⟨_, rfl⟩, fun i v hi => ?_⟩
    rw [List.getElem?_toArray, List.getElem?_append] at hi
    split at hi
    · rw [List.getElem?_map] at hi
      obtain ⟨argument, harg, heq⟩ := Option.map_eq_some_iff.mp hi
      cases heq
      exact harguments v (List.mem_of_getElem? harg)
    · rw [List.getElem?_replicate] at hi
      split at hi <;> simp at hi
  · cases h

theorem holds_namedFrame (names : List Text) (h : ∀ v ∈ arguments, P v) : (Run.namedFrame names arguments).Holds P := by
  have hfold : ∀ (pairs : List (Text × Value)) (bindings : Bindings), (∀ p ∈ pairs, P p.2) → bindings.Holds P →
      Bindings.Holds P (pairs.foldl (fun b (p : Text × Value) => Bindings.set p.1 p.2 b) bindings) := by
    intro pairs
    induction pairs with
    | nil => exact fun _ _ hb => hb
    | cons p rest ih =>
      exact fun bindings hp hb => ih _ (fun q hq => hp q (by simp [hq])) (hb.set (hp p (by simp)))
  exact hfold _ [] (fun p hp => h p.2 (List.of_mem_zip hp).2) (fun _ hp => by simp at hp)

theorem holds_receiver (h : P value) : (Frame.slots #[some value]).Holds P := by
  intro i v hv
  rcases i with _ | i
  · cases hv
    exact h
  · simp at hv

namespace Frames.Hold

variable {frames : Frames} {value : Value}

section
variable (h : frames.Hold P)

include h

theorem get? (hget : frames.get? name env = some value) : P value := by
  induction env with
  | nil => cases hget
  | cons f outer ih =>
    unfold Frames.get? at hget
    split at hget
    · rename_i bindings hf
      exact Bindings.Holds.get? (h f _ hf) hget
    · rename_i bindings hf
      split at hget
      · rename_i v hv
        cases hget
        exact Bindings.Holds.get? (h f _ hf) hv
      · exact ih hget
    · exact ih hget
    · rename_i names values hf
      split at hget
      · rename_i v hv
        cases hget
        obtain ⟨slot, -, hslot⟩ := Option.bind_eq_some_iff.mp hv
        exact SlotsHold.slotAt (h f _ hf) hslot
      · exact ih hget
    · cases hget

theorem getAt? (hget : frames.getAt? env nest index = some value) : P value := by
  induction env generalizing nest with
  | nil => cases hget
  | cons f outer ih =>
    unfold Frames.getAt? at hget
    split at hget
    · cases hget
    · split at hget
      · cases hget
      · exact ih hget
    · rename_i values hf
      split at hget
      · exact ih hget
      · exact SlotsHold.slotAt (h f _ hf) hget
    · rename_i names values hf
      split at hget
      · exact ih hget
      · exact SlotsHold.slotAt (h f _ hf) hget
    · cases hget

theorem modify (f : Nat) (hchange : ∀ frame : Frame, frame.Holds P → (change frame).Holds P) :
    Frames.Hold P (frames.modify f change) := by
  intro g frame hg
  rw [Array.getElem?_modify] at hg
  split at hg
  · obtain ⟨old, hold, rfl⟩ := Option.map_eq_some_iff.mp hg
    exact hchange old (h g old hold)
  · exact h g frame hg

theorem bindIn (target : Option Nat) (name : Text) (hvalue : P value) :
    Frames.Hold P (frames.bindIn target name value) := by
  cases target with
  | none => exact h
  | some f => exact h.modify f fun _ hframe => hframe.bind name hvalue

theorem write (f : Nat) (index : Int) (hvalue : P value) : Frames.Hold P (frames.write f index value) :=
  h.modify f fun _ hframe => hframe.setSlot index.toNat hvalue

theorem push (hframe : frame.Holds P) : Frames.Hold P (frames.push frame) := by
  intro g other hg
  rw [Array.getElem?_push] at hg
  split at hg
  · cases hg
    exact hframe
  · exact h g other hg

end

end Frames.Hold

/-! ## Machines -/

namespace Machine.Holds

variable {m : Machine} {value : Value}

theorem trivial (m : Machine) : m.Holds fun _ => True where
  frames f frame _ := by cases frame <;> simp [Frame.Holds, Bindings.Holds, SlotsHold]
  arrays _ _ _ _ _ := True.intro
  objects _ _ _ _ _ := True.intro

theorem start (settings : Settings) (input : Input) (limit : Option Nat) (nextClass : Nat) :
    (Machine.start settings input limit nextClass).Holds P := by
  refine ⟨fun f frame hframe => ?_, by simp [Machine.start], by simp [Machine.start]⟩
  rcases f with _ | _ | f <;> cases hframe
  · exact nofun
  · exact fun i v hv => by simp at hv

theorem mono (h : m.Holds P) (himp : ∀ v, P v → Q v) : m.Holds Q where
  frames f frame hf := by
    have hframe := h.frames f frame hf
    cases frame with
    | builtins bindings => exact fun entry he => himp _ (hframe entry he)
    | byName bindings => exact fun entry he => himp _ (hframe entry he)
    | slots values => exact fun i v hi => himp v (hframe i v hi)
    | globals names values => exact fun i v hi => himp v (hframe i v hi)
  arrays ref elements he v hv := himp v (h.arrays ref elements he v hv)
  objects ref o ho v hv := himp v (h.objects ref o ho v hv)

section
variable (h : m.Holds P)

include h

theorem withFrames {frames : Frames} (hframes : frames.Hold P) : Machine.Holds P { m with frames } :=
  ⟨hframes, h.arrays, h.objects⟩

theorem withGlobalNames (names : List Text) : (m.withGlobalNames names).Holds P :=
  h.withFrames (h.frames.modify _ fun frame hframe => by cases frame <;> exact hframe)

theorem newArray (helements : ∀ v ∈ elements, P v) : Machine.Holds P { m with arrays := m.arrays.push elements } := by
  refine ⟨h.frames, fun ref others hother => ?_, h.objects⟩
  rw [Array.getElem?_push] at hother
  split at hother
  · cases hother
    exact helements
  · exact h.arrays ref others hother

theorem setElement (ref index : Nat) (hvalue : P value) :
    Machine.Holds P
      { m with arrays := m.arrays.modify ref fun a => a.setIfInBounds index value } := by
  refine ⟨h.frames, fun other elements hother v hv => ?_, h.objects⟩
  rw [Array.getElem?_modify] at hother
  split at hother
  · obtain ⟨old, hold, rfl⟩ := Option.map_eq_some_iff.mp hother
    exact (Array.mem_or_eq_of_mem_setIfInBounds hv).elim (h.arrays other old hold v) (· ▸ hvalue)
  · exact h.arrays other elements hother v hv

theorem newObject (hfields : ∀ v ∈ o.fields, P v) : Machine.Holds P { m with objects := m.objects.push o } := by
  refine ⟨h.frames, h.arrays, fun ref other hother => ?_⟩
  rw [Array.getElem?_push] at hother
  split at hother
  · cases hother
    exact hfields
  · exact h.objects ref other hother

theorem withField (object index : Nat) (hvalue : P value) : (m.withField object index value).Holds P := by
  refine ⟨h.frames, h.arrays, fun ref o ho v hv => ?_⟩
  simp only [Machine.withField] at ho
  rw [Array.getElem?_modify] at ho
  split at ho
  · obtain ⟨old, hold, rfl⟩ := Option.map_eq_some_iff.mp ho
    exact (Array.mem_or_eq_of_mem_setIfInBounds hv).elim (h.objects ref old hold v) (· ▸ hvalue)
  · exact h.objects ref o ho v hv

theorem element (hnull : P .null) (ref index : Nat) : P ((((m.arrays[ref]?).getD #[])[index]?).getD .null) := by
  cases ha : m.arrays[ref]? with
  | none => simpa using hnull
  | some elements =>
    cases hv : elements[index]? with
    | none => simpa [hv] using hnull
    | some v => simpa [hv] using h.arrays ref elements ha v (Array.mem_of_getElem? hv)

theorem fieldAt? (hfield : Run.fieldAt? m object index = some value) : P value := by
  obtain ⟨o, ho, hv⟩ := Option.bind_eq_some_iff.mp hfield
  exact h.objects object o ho value (Array.mem_of_getElem? hv)

theorem memberValue (hnull : P .null) (entry : MemberCache)
    (hmethod : ∀ d, Run.methodAt? m object entry.index = some d → P (.method object d)) :
    P (m.memberValue object entry) := by
  unfold Machine.memberValue
  split
  · cases hv : Run.fieldAt? m object entry.index with
    | none => simpa using hnull
    | some v => simpa using h.fieldAt? hv
  · cases hd : Run.methodAt? m object entry.index with
    | none => exact hnull
    | some d => exact hmethod d hd

theorem read (hmethod : ∀ object index d, Run.methodAt? m object index = some d → P (.method object d))
    (hread : m.read site word env = .ok value) : P value := by
  unfold Machine.read at hread
  split at hread
  · split at hread
    · rename_i v hv
      cases hread
      exact h.frames.get? hv
    · cases hread
  · split at hread
    · rename_i v hv
      cases hread
      exact h.frames.getAt? hv
    · cases hread
  · split at hread
    · cases hread
    · split at hread
      · rename_i v hv
        cases hread
        exact h.fieldAt? hv
      · cases hread
  · split at hread
    · cases hread
    · split at hread
      · rename_i d hd
        cases hread
        exact hmethod _ _ d hd
      · cases hread

end

end Machine.Holds

end StoneLang
