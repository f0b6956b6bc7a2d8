/-
  Frames under accesses.

  A frame keeps its kind whatever is bound or written in it (`Frame.sameKind_bind`,
  `Frame.sameKind_setSlot`), and an access changes one frame at most.  A slot is written only in a frame of
  slots or in the global one (`Frames.slotOwner_ok`).
-/
import StoneLang.Proofs.Scope.Tables
import StoneLang.Value.Environment

namespace StoneLang

/-! ## Rows of slots -/

theorem slotAt_natCast (values : Array (Option Value)) (i : Nat) : slotAt values i = (values[i]?).join :=
  if_neg (by omega)

theorem slotAt_write {index : Nat} (h : index < values.size) (i : Int) :
    slotAt (values.setIfInBounds index (some value)) i = if i = index then some value else slotAt values i := by
  unfold slotAt
  by_cases hi : i < 0
  · have hne : i ≠ index := by omega
    simp only [if_pos hi, if_neg hne]
  · by_cases heq : i = index
    · subst heq
      simp [h]
    · have hne : index ≠ i.toNat := by omega
      simp only [if_neg hi, if_neg heq, Array.getElem?_setIfInBounds_ne hne]

theorem named_write {names : List Text}
    (hslot : names.idxOf? name = some slot) (h : slot < values.size) (value : Value) (other : Text) :
    ((names.idxOf? other).bind fun i : Nat => slotAt (values.setIfInBounds slot (some value)) i)
      = if name = other then some value else (names.idxOf? other).bind fun i : Nat => slotAt values i := by
  split
  · next heq => rw [← heq, hslot, Option.bind_some, slotAt_write h, if_pos rfl]
  · next hne =>
    cases hi : names.idxOf? other with
    | none => rfl
    | some i =>
      have hij : (i : Int) ≠ slot := fun heq => hne (idxOf?_inj hslot (Int.ofNat.inj heq ▸ hi))
      rw [Option.bind_some, Option.bind_some, slotAt_write h, if_neg hij]

theorem slotAt_grow (values : Array (Option Value)) (n : Nat) (i : Int) : slotAt (grow values n) i = slotAt values i := by
  unfold slotAt grow
  split
  · rfl
  · rw [Array.getElem?_append, Array.getElem?_replicate]
    split
    · rfl
    · next h =>
      rw [Array.getElem?_eq_none (Nat.le_of_not_lt h)]
      split <;> rfl

theorem size_grow (values : Array (Option Value)) (n : Nat) : (grow values n).size = max values.size n := by
  simp only [grow, Array.size_append, Array.size_replicate]
  omega

theorem lt_size_grow (values : Array (Option Value)) (n : Nat) : n < (grow values (n + 1)).size := by
  rw [size_grow]
  omega

namespace Bindings

theorem get?_cons (entry : Text × Value) (rest : Bindings) (name : Text) :
    get? (entry :: rest) name = if entry.1 = name then some entry.2 else get? rest name := by
  obtain ⟨other, value⟩ := entry
  by_cases h : other = name
  · simp [get?, h]
  · have hne : (name == other) = false := by simp [Ne.symm h]
    rw [get?, List.lookup_cons, hne, if_neg h]
    rfl

theorem get?_set (bindings : Bindings) (name other : Text) (value : Value) :
    (bindings.set name value).get? other = if name = other then some value else bindings.get? other := by
  induction bindings with
  | nil => simp [set, get?_cons]
  | cons entry rest ih =>
    simp only [set]
    split
    · rename_i h
      simp only [get?_cons, h]
      split <;> rfl
    · rename_i h
      simp only [get?_cons, ih]
      split
      · rename_i h'
        rw [if_neg fun h'' => h (h'.trans h''.symm)]
      · rfl

end Bindings

def Frame.SameKind : Frame → Frame → Prop
  | .builtins _, .builtins _ | .byName _, .byName _ | .slots _, .slots _ | .globals .., .globals .. => True
  | _, _ => False

namespace Frame

theorem sameKind_bind (name : Text) (value : Value) (frame : Frame) :
    frame.SameKind (frame.bind name value) := by
  cases frame <;> trivial

theorem sameKind_setSlot (index : Nat) (value : Value) (frame : Frame) :
    frame.SameKind (frame.setSlot index value) := by
  cases frame <;> trivial

end Frame

namespace Frames

variable {frames : Frames}

/-- The frame can hold slots: it is one of slots, which has this one, or the global one. -/
def HasSlot (frames : Frames) (f : Nat) (index : Int) : Prop :=
  (∃ values, frames[f]? = some (.slots values) ∧ 0 ≤ index ∧ index < values.size) ∨
    ∃ names values, frames[f]? = some (.globals names values) ∧ 0 ≤ index

variable {f : Nat}

theorem checkSlot_ok (h : frames.checkSlot f index = .ok g) : g = f ∧ frames.HasSlot f index := by
  unfold checkSlot at h
  split at h
  · rename_i values hf
    split at h
    · rename_i hindex
      cases h
      exact ⟨rfl, .inl ⟨values, hf, hindex⟩⟩
    · cases h
  · rename_i names values hf
    split at h
    · cases h
    · rename_i hindex
      cases h
      exact ⟨rfl, .inr ⟨names, values, hf, by omega⟩⟩
  · cases h
  · cases h
  · cases h

theorem slotOwner_ok (h : frames.slotOwner env nest index = .ok f) : f ∈ env ∧ frames.HasSlot f index := by
  induction env generalizing nest with
  | nil => cases h
  | cons g outer ih =>
    unfold slotOwner at h
    split at h
    · cases h
    · cases h
    · split at h
      · cases h
      · obtain ⟨hmem, hslot⟩ := ih h
        exact ⟨List.mem_cons_of_mem _ hmem, hslot⟩
    · split at h
      · split at h
        · rename_i target rest hdrop
          obtain ⟨rfl, hslot⟩ := checkSlot_ok h
          have hmem : f ∈ outer.drop (nest.toNat - 1) := by
            rw [hdrop]
            simp
          exact ⟨List.mem_cons_of_mem _ (List.mem_of_mem_drop hmem), hslot⟩
        · cases h
      · obtain ⟨rfl, hslot⟩ := checkSlot_ok h
        exact ⟨by simp, hslot⟩
    · split at h
      · split at h
        · cases h
        · obtain ⟨hmem, hslot⟩ := ih h
          exact ⟨List.mem_cons_of_mem _ hmem, hslot⟩
      · obtain ⟨rfl, hslot⟩ := checkSlot_ok h
        exact ⟨by simp, hslot⟩

theorem getElem?_modify_of_ne (frames : Frames) (h : g ≠ f) (change : Frame → Frame) :
    (frames.modify f change)[g]? = frames[g]? := by
  rw [Array.getElem?_modify]
  simp [Ne.symm h]

theorem getElem?_modify_self (frames : Frames) (f : Nat) (change : Frame → Frame) :
    (frames.modify f change)[f]? = (frames[f]?).map change := by
  rw [Array.getElem?_modify]
  simp

theorem getElem?_push_of_lt (frames : Frames) (h : f < frames.size) : (frames.push frame)[f]? = frames[f]? := by
  rw [Array.getElem?_push, if_neg (by omega)]

/-! ## Through frames of slots -/

/-- The frames in a row are frames of slots. -/
def AllSlots (frames : Frames) (inner : List Nat) : Prop :=
  ∀ f ∈ inner, ∃ values, frames[f]? = some (.slots values)

variable {inner : List Nat} {tail : Env}

theorem AllSlots.rest (h : frames.AllSlots (f :: inner)) : frames.AllSlots inner :=
  fun g hg => h g (by simp [hg])

theorem getAt?_next (hf : frames[f]? = some (.slots values)) (n : Nat)
    (index : Int) : frames.getAt? (f :: env) ((n + 1 : Nat) : Int) index = frames.getAt? env n index := by
  have hhops : (0 : Int) < ((n + 1 : Nat) : Int) := by omega
  have hnext : ((n + 1 : Nat) : Int) - 1 = n := by omega
  simp only [getAt?, hf, if_pos hhops, hnext]

section
variable (h : frames.AllSlots inner)

include h

theorem get?_slots (name : Text) : frames.get? name (inner ++ tail) = frames.get? name tail := by
  induction inner with
  | nil => rfl
  | cons f rest ih =>
    obtain ⟨values, hf⟩ := h f (by simp)
    simp only [List.cons_append, get?, hf]
    exact ih h.rest

theorem getAt?_beyond (index : Int) :
    frames.getAt? (inner ++ tail) inner.length index = frames.getAt? tail 0 index := by
  induction inner with
  | nil => rfl
  | cons f rest ih =>
    obtain ⟨values, hf⟩ := h f (by simp)
    exact (getAt?_next hf rest.length index).trans (ih h.rest)

theorem getAt?_within {nest : Nat} (hf : inner[nest]? = some f)
    (hvalues : frames[f]? = some (.slots values)) (index : Int) :
    frames.getAt? (inner ++ tail) nest index = slotAt values index := by
  induction inner generalizing nest with
  | nil => simp at hf
  | cons g rest ih =>
    obtain ⟨others, hg⟩ := h g (by simp)
    cases nest with
    | zero =>
      simp only [List.getElem?_cons_zero, Option.some.injEq] at hf
      subst hf
      rw [hg] at hvalues
      cases hvalues
      simp only [List.cons_append, getAt?, hg, Int.ofNat_zero, Int.lt_irrefl, if_false]
    | succ nest => exact (getAt?_next hg nest index).trans (ih h.rest (by simpa using hf))

theorem slotOwner_within {nest : Nat} (hf : inner[nest]? = some f) (index : Int) :
    frames.slotOwner (inner ++ tail) nest index = frames.checkSlot f index := by
  cases inner with
  | nil => simp at hf
  | cons g rest =>
    obtain ⟨others, hg⟩ := h g (by simp)
    cases nest with
    | zero =>
      simp only [List.getElem?_cons_zero, Option.some.injEq] at hf
      subst hf
      simp only [List.cons_append, slotOwner, hg, Int.ofNat_zero, Int.lt_irrefl, if_false]
    | succ nest =>
      have hhops : (0 : Int) < ((nest + 1 : Nat) : Int) := by omega
      have hdrop : ((nest + 1 : Nat) : Int).toNat - 1 = nest := by omega
      have hlt : nest < rest.length := (List.getElem?_eq_some_iff.mp (by simpa using hf)).1
      have hat : rest[nest] = f := (List.getElem?_eq_some_iff.mp (by simpa using hf)).2
      simp only [List.cons_append, slotOwner, hg, if_pos hhops, hdrop]
      rw [List.drop_append_of_le_length (by omega), List.drop_eq_getElem_cons hlt, hat]
      rfl

end

end Frames

end StoneLang
