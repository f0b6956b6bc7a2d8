/-
  Frames in two modes.

  Side by side run a machine that addresses names by slot and one that looks them up by name.  Both make
  the same frames in the same order, so a frame number means the same in both.  A call of a function
  outside classes has a row of slots in one and bindings in the other; calls of methods and field
  initializers have slots in both; the globals may have different slots but hold the same values
  (`FramesAgree`).  Reading and assigning in agreeing frames gives the same and keeps them in agreement.
-/
import Mathlib.Tactic.ByContra
import StoneLang.Eval.Evaluate
import StoneLang.Proofs.Evaluation.Frames
import StoneLang.Proofs.Modes.Placing

namespace StoneLang.Modes

/-- What a frame is for. -/
inductive Role where
  /-- The natives or the globals. -/
  | top
  /-- A call of a function outside classes, with these parameters. -/
  | params (names : List Text)
  /-- A call of a method or of a function inside one, or a run of field initializers. -/
  | shared

def FramePair : Role → Frame → Frame → Prop
  | .top, _, _ => True
  | .params names, frame, frame' => ∃ values bindings, frame = .slots values ∧ frame' = .byName bindings ∧
      values.size = names.length ∧ (∀ j < names.length, ∃ v, values[j]? = some (some v)) ∧
      ∀ name, bindings.get? name = (names.idxOf? name).bind fun j => (values[j]?).join
  | .shared, frame, frame' => frame' = frame ∧ ∃ values, frame = .slots values

variable {names : List Text}

variable {arguments : List Value} {values : Array (Option Value)} {name : Text} {slot : Nat}

/-- What the bindings of a call hold: the arguments, under the names of the parameters. -/
theorem get?_namedFrame (hnodup : names.Nodup) (hlength : names.length = arguments.length) (bindings : Bindings)
    (name : Text) :
    Bindings.get? ((names.zip arguments).foldl (fun b (name, value) => Bindings.set name value b) bindings) name
      = ((names.idxOf? name).bind (arguments[·]?)).or (bindings.get? name) := by
  induction names generalizing arguments bindings with
  | nil => rfl
  | cons first rest ih =>
    cases arguments with
    | nil => simp at hlength
    | cons value others =>
      obtain ⟨hfirst, hrest⟩ := List.nodup_cons.mp hnodup
      simp only [List.zip_cons_cons, List.foldl_cons]
      rw [ih hrest (by simpa using hlength), Bindings.get?_set, List.idxOf?_cons]
      by_cases heq : first = name
      · subst heq
        have hnone : rest.idxOf? first = none := List.idxOf?_eq_none_iff.mpr hfirst
        simp [hnone]
      · simp only [beq_iff_eq, heq, if_false]
        cases rest.idxOf? name <;> rfl

theorem pair_call (hnodup : names.Nodup) (hlength : names.length = arguments.length) :
    ∃ frame, Run.slotFrame names.length arguments = .ok frame ∧
      FramePair (.params names) frame (Run.namedFrame names arguments) := by
  have hslots : (arguments.map some ++ List.replicate (names.length - arguments.length) none).toArray
      = (arguments.map some).toArray := by simp [hlength]
  refine ⟨_, if_pos (Nat.le_of_eq hlength.symm), _, _, rfl, rfl, ?_, fun j hj => ?_, fun name => ?_⟩
  · simp [hlength]
  · rw [hslots]
    exact ⟨arguments[j], by simp [List.getElem?_eq_getElem (hlength ▸ hj)]⟩
  · rw [hslots, get?_namedFrame hnodup hlength]
    cases names.idxOf? name with
    | none => rfl
    | some j => cases hj : arguments[j]? <;> simp [hj, Bindings.get?]

def globalValue (names : List Text) (values : Array (Option Value)) (name : Text) : Option Value :=
  (names.idxOf? name).bind fun slot => slotAt values slot

theorem globalValue_of_isPrefix (h : names <+: names') (hsize : values.size ≤ names.length)
    (name : Text) :
    globalValue names' values name = globalValue names values name := by
  unfold globalValue
  cases hslot : names.idxOf? name with
  | some slot => rw [idxOf?_of_isPrefix h hslot]
  | none =>
    cases hslot' : names'.idxOf? name with
    | none => rfl
    | some slot =>
      obtain ⟨more, rfl⟩ := h
      -- the slot lies beyond the old names, where nothing has been written
      have hbeyond : names.length ≤ slot := by
        by_contra hlt
        have hat := getElem?_of_idxOf? hslot'
        rw [List.getElem?_append_left (by omega)] at hat
        exact List.idxOf?_eq_none_iff.mp hslot (List.mem_of_getElem? hat)
      have hnone : values[slot]? = none := Array.getElem?_eq_none (by omega)
      simp [slotAt, hnone]

theorem globalValue_write (hslot : names.idxOf? name = some slot) (values : Array (Option Value)) (value : Value)
    (other : Text) :
    globalValue names ((grow values (slot + 1)).setIfInBounds slot (some value)) other
      = if name = other then some value else globalValue names values other := by
  simp only [globalValue, named_write hslot (lt_size_grow values slot), slotAt_grow]

theorem size_write_le (hslot : names.idxOf? name = some slot) (hsize : values.size ≤ names.length) (value : Value) :
    ((grow values (slot + 1)).setIfInBounds slot (some value)).size ≤ names.length := by
  rw [Array.size_setIfInBounds, size_grow]
  exact Nat.max_le.mpr ⟨hsize, lt_of_idxOf? hslot⟩

/-- The frames of the two machines hold the same; `roles` says what they are for. -/
structure FramesAgree (roles : List Role) (globals globals' : List Text) (fs fs' : Frames) : Prop where
  size : fs.size = roles.length
  size' : fs'.size = roles.length
  pair : ∀ (f : Nat) role, roles[f]? = some role → ∃ frame frame', fs[f]? = some frame ∧
    fs'[f]? = some frame' ∧ FramePair role frame frame'
  natives : roles[Machine.builtinFrame]? = some .top ∧ ∃ bindings,
    fs[Machine.builtinFrame]? = some (.builtins bindings) ∧
    fs'[Machine.builtinFrame]? = some (.builtins bindings) ∧
    ∀ name value, bindings.get? name = some value → Native.IsStandardName name
  top : roles[Machine.globalFrame]? = some .top ∧ ∃ values values',
    fs[Machine.globalFrame]? = some (.globals globals values) ∧
    fs'[Machine.globalFrame]? = some (.globals globals' values') ∧ values.size ≤ globals.length ∧
    values'.size ≤ globals'.length ∧
    ∀ name, globalValue globals values name = globalValue globals' values' name
  fresh : ∀ name ∈ globals, ¬ Native.IsStandardName name
  fresh' : ∀ name ∈ globals', ¬ Native.IsStandardName name
  nodup : globals.Nodup ∧ globals'.Nodup

/-- The frames are those of calls of functions with these parameters. -/
abbrev ChainFits (roles : List Role) (inner : List Nat) (chain : Chain) : Prop :=
  List.Forall₂ (fun f names => roles[f]? = some (.params names)) inner chain

def SharedFits (roles : List Role) (inner : List Nat) : Prop := ∀ f ∈ inner, roles[f]? = some .shared

namespace FramesAgree

variable {roles : List Role} {globals globals' : List Text} {fs fs' : Frames} {inner : List Nat} {chain : Chain}

/-! ## Reading -/

theorem allSlots_chain (h : FramesAgree roles globals globals' fs fs') (hfits : ChainFits roles inner chain) :
    fs.AllSlots inner := by
  induction hfits with
  | nil => simp [Frames.AllSlots]
  | @cons f names _ _ hf _ ih =>
    obtain ⟨_, _, hframe, -, values, _, rfl, -⟩ := h.pair _ _ hf
    exact List.forall_mem_cons.mpr ⟨⟨values, hframe⟩, ih⟩

theorem allSlots_shared (h : FramesAgree roles globals globals' fs fs') (hfits : SharedFits roles inner) :
    fs.AllSlots inner ∧ fs'.AllSlots inner := by
  refine ⟨fun f hf => ?_, fun f hf => ?_⟩ <;>
    obtain ⟨_, _, hframe, hframe', rfl, values, rfl⟩ := h.pair f _ (hfits f hf)
  · exact ⟨values, hframe⟩
  · exact ⟨values, hframe'⟩

variable {names : List Text} {name : Text} {place : Nat × Nat} {f : Nat}

variable {frames : Frames} {values : Array (Option Value)} {bindings : Bindings}

theorem get?_globalEnv (hglobals : frames[Machine.globalFrame]? = some (.globals names values))
    (hbuiltins : frames[Machine.builtinFrame]? = some (.builtins bindings)) (name : Text) :
    frames.get? name Machine.globalEnv = (globalValue names values name).or (bindings.get? name) := by
  simp only [Machine.globalEnv, Frames.get?, hglobals, hbuiltins, globalValue]
  cases (names.idxOf? name).bind fun slot => slotAt values slot <;> rfl

theorem get?_global (h : FramesAgree roles globals globals' fs fs') (name : Text) :
    fs'.get? name Machine.globalEnv = fs.get? name Machine.globalEnv := by
  obtain ⟨-, bindings, hb, hb', -⟩ := h.natives
  obtain ⟨-, values, values', hg, hg', -, -, hsame⟩ := h.top
  rw [get?_globalEnv hg hb, get?_globalEnv hg' hb', hsame]

theorem getAt?_global (hglobals : frames[Machine.globalFrame]? = some (.globals names values))
    (hbuiltins : frames[Machine.builtinFrame]? = some (.builtins bindings))
    (hstandard : ∀ name value, bindings.get? name = some value → Native.IsStandardName name)
    (hfresh : ∀ name ∈ names, ¬ Native.IsStandardName name) (hslot : names.idxOf? name = some slot) :
    frames.getAt? Machine.globalEnv 0 slot = frames.get? name Machine.globalEnv := by
  have hmem : name ∈ names := List.mem_of_getElem? (getElem?_of_idxOf? hslot)
  have hnone : bindings.get? name = none :=
    Option.eq_none_iff_forall_ne_some.mpr fun value hvalue => hfresh name hmem (hstandard name value hvalue)
  rw [get?_globalEnv hglobals hbuiltins, hnone, Option.or_none, globalValue, hslot]
  simp only [Machine.globalEnv, Frames.getAt?, hglobals, Int.lt_irrefl, if_false, Option.bind_some]

section
variable (h : FramesAgree roles globals globals' fs fs')

include h

/-- A parameter is found in its slot in one machine and under its name in the other.  Among by-name frames, it is held by
its own. -/
theorem get?_param (hfits : ChainFits roles inner chain) (hplace : chain.find? name = some place) (tail : Env) :
    ∃ f names value, inner[place.1]? = some f ∧ roles[f]? = some (.params names) ∧ names.idxOf? name = some place.2 ∧
      fs.getAt? (inner ++ tail) place.1 place.2 = some value ∧ fs'.get? name (inner ++ tail) = some value ∧
      fs'.holder? name (inner ++ tail) = some f := by
  induction hfits generalizing place with
  | nil => cases hplace
  | @cons f names inner outer hf hrest ih =>
    obtain ⟨_, _, hframe, hframe', values, bindings, rfl, rfl, -, hfull, hsame⟩ := h.pair f _ hf
    simp only [Chain.find?] at hplace
    cases hslot : names.idxOf? name with
    | some j =>
      simp only [hslot, Option.some.injEq] at hplace
      subst hplace
      obtain ⟨v, hv⟩ := hfull j (lt_of_idxOf? hslot)
      have hget : bindings.get? name = some v := by rw [hsame, hslot]; simp [hv]
      refine ⟨f, names, v, rfl, hf, hslot, ?_, ?_, ?_⟩
      · simp [Frames.getAt?, hframe, slotAt_natCast, hv]
      · simp only [List.cons_append, Frames.get?, hframe', hget]
      · simp only [List.cons_append, Frames.holder?, hframe', hget, Option.isSome_some, if_true]
    | none =>
      simp only [hslot, Option.map_eq_some_iff] at hplace
      obtain ⟨place', hplace', rfl⟩ := hplace
      obtain ⟨g, others, v, hg, hrole, hslot', hat, hv, hholder⟩ := ih hplace'
      have hnone : bindings.get? name = none := by rw [hsame, hslot]; rfl
      refine ⟨g, others, v, hg, hrole, hslot', (Frames.getAt?_next hframe _ _).trans hat, ?_, ?_⟩
      · simpa only [List.cons_append, Frames.get?, hframe', hnone] using hv
      · simp only [List.cons_append, Frames.holder?, hframe', hnone]
        exact hholder

theorem get?_beyond (hfits : ChainFits roles inner chain) (hplace : chain.find? name = none) (tail : Env) :
    fs'.get? name (inner ++ tail) = fs'.get? name tail := by
  induction hfits with
  | nil => rfl
  | @cons f names inner outer hf hrest ih =>
    obtain ⟨_, _, -, hframe', values, bindings, -, rfl, -, -, hsame⟩ := h.pair f _ hf
    simp only [Chain.find?] at hplace
    cases hslot : names.idxOf? name with
    | some j => simp [hslot] at hplace
    | none =>
      simp only [hslot, Option.map_eq_none_iff] at hplace
      have hnone : bindings.get? name = none := by rw [hsame, hslot]; rfl
      simp only [List.cons_append, Frames.get?, hframe', hnone]
      exact ih hplace

theorem getAt?_shared (hfits : SharedFits roles inner) (hhops : hops < inner.length) (index : Int)
    (tail : Env) :
    fs'.getAt? (inner ++ tail) hops index = fs.getAt? (inner ++ tail) hops index := by
  obtain ⟨hslots, hslots'⟩ := h.allSlots_shared hfits
  have hf : inner[hops]? = some inner[hops] := List.getElem?_eq_getElem hhops
  obtain ⟨_, _, hframe, hframe', rfl, values, rfl⟩ := h.pair _ _ (hfits _ (List.getElem_mem hhops))
  rw [Frames.getAt?_within hslots hf hframe, Frames.getAt?_within hslots' hf hframe']

/-! ## Changing frames -/

variable {role : Role} {change change' : Frame → Frame}

theorem keeping (hsize : frames.size = others.length) (hsize' : frames'.size = others.length)
    (hpair : ∀ (f : Nat) role, others[f]? = some role → ∃ frame frame', frames[f]? = some frame ∧
      frames'[f]? = some frame' ∧ FramePair role frame frame')
    (hkept : ∀ f : Nat, roles[f]? = some .top → others[f]? = some .top ∧ frames[f]? = fs[f]? ∧ frames'[f]? = fs'[f]?) :
    FramesAgree others globals globals' frames frames' := by
  obtain ⟨hr₀, bindings, hb, hb', hstandard⟩ := h.natives
  obtain ⟨hr₁, values, values', hg, hg', hrest⟩ := h.top
  obtain ⟨hn, hnb, hnb'⟩ := hkept _ hr₀
  obtain ⟨ht, htg, htg'⟩ := hkept _ hr₁
  exact ⟨hsize, hsize', hpair, ⟨hn, bindings, hnb.trans hb, hnb'.trans hb', hstandard⟩,
    ⟨ht, values, values', htg.trans hg, htg'.trans hg', hrest⟩, h.fresh, h.fresh', h.nodup⟩

theorem push (hpair : FramePair role frame frame') :
    FramesAgree (roles ++ [role]) globals globals' (fs.push frame) (fs'.push frame') := by
  have hlt : ∀ {f : Nat} {r : Role}, roles[f]? = some r → f < fs.size ∧ f < fs'.size := fun hf => by
    rw [h.size, h.size']
    exact ⟨(List.getElem?_eq_some_iff.mp hf).1, (List.getElem?_eq_some_iff.mp hf).1⟩
  refine h.keeping (by simp [h.size]) (by simp [h.size']) (fun f r hf => ?_) fun f hf => ?_
  · by_cases hlast : f = roles.length
    · subst hlast
      have hr : r = role := by simpa using hf.symm
      subst hr
      refine ⟨frame, frame', ?_, ?_, hpair⟩
      · rw [← h.size, Array.getElem?_push_size]
      · rw [← h.size', Array.getElem?_push_size]
    · have hf' : roles[f]? = some r := by
        have hlen := (List.getElem?_eq_some_iff.mp hf).1
        rw [List.length_append, List.length_singleton] at hlen
        rwa [List.getElem?_append_left (by omega)] at hf
      obtain ⟨hlt₁, hlt₂⟩ := hlt hf'
      rw [Frames.getElem?_push_of_lt _ hlt₁, Frames.getElem?_push_of_lt _ hlt₂]
      exact h.pair f r hf'
  · exact ⟨by rw [List.getElem?_append_left (List.getElem?_eq_some_iff.mp hf).1, hf],
      Frames.getElem?_push_of_lt _ (hlt hf).1, Frames.getElem?_push_of_lt _ (hlt hf).2⟩

theorem modify (hrole : roles[f]? = some role) (htop : role ≠ .top)
    (hchange : ∀ frame frame', FramePair role frame frame' → FramePair role (change frame) (change' frame')) :
    FramesAgree roles globals globals' (fs.modify f change) (fs'.modify f change') := by
  refine h.keeping (by simp [h.size]) (by simp [h.size']) (fun g r hg => ?_) fun g hg => ?_
  · by_cases hgf : g = f
    · subst hgf
      rw [hg] at hrole
      cases hrole
      obtain ⟨frame, frame', hframe, hframe', hpair⟩ := h.pair g _ hg
      refine ⟨change frame, change' frame', ?_, ?_, hchange frame frame' hpair⟩
      · rw [Frames.getElem?_modify_self, hframe, Option.map_some]
      · rw [Frames.getElem?_modify_self, hframe', Option.map_some]
    · rw [Frames.getElem?_modify_of_ne _ hgf, Frames.getElem?_modify_of_ne _ hgf]
      exact h.pair g r hg
  · have hne : g ≠ f := by
      rintro rfl
      rw [hg] at hrole
      exact htop (Option.some.inj hrole).symm
    exact ⟨hg, Frames.getElem?_modify_of_ne _ hne _, Frames.getElem?_modify_of_ne _ hne _⟩

theorem modifyGlobals (hfresh : ∀ name ∈ names, ¬ Native.IsStandardName name)
    (hfresh' : ∀ name ∈ names', ¬ Native.IsStandardName name) (hnodup : names.Nodup ∧ names'.Nodup)
    (hchange : ∀ values values', values.size ≤ globals.length → values'.size ≤ globals'.length →
      (∀ name, globalValue globals values name = globalValue globals' values' name) →
      ∃ after after', change (.globals globals values) = .globals names after ∧
        change' (.globals globals' values') = .globals names' after' ∧ after.size ≤ names.length ∧
        after'.size ≤ names'.length ∧ ∀ name, globalValue names after name = globalValue names' after' name) :
    FramesAgree roles names names' (fs.modify Machine.globalFrame change)
      (fs'.modify Machine.globalFrame change') := by
  obtain ⟨hr₀, bindings, hb, hb', hstandard⟩ := h.natives
  obtain ⟨hr₁, values, values', hg, hg', hsize, hsize', hsame⟩ := h.top
  obtain ⟨after, after', hafter, hafter', hlength, hlength', hagree⟩ :=
    hchange values values' hsize hsize' hsame
  refine ⟨by simp [h.size], by simp [h.size'], fun g r hr => ?_, ⟨hr₀, bindings, ?_, ?_, hstandard⟩,
    ⟨hr₁, after, after', ?_, ?_, hlength, hlength', hagree⟩, hfresh, hfresh', hnodup⟩
  · by_cases hgf : g = Machine.globalFrame
    · subst hgf
      rw [hr] at hr₁
      cases hr₁
      exact ⟨_, _, by rw [Frames.getElem?_modify_self, hg, Option.map_some],
        by rw [Frames.getElem?_modify_self, hg', Option.map_some], trivial⟩
    · rw [Frames.getElem?_modify_of_ne _ hgf, Frames.getElem?_modify_of_ne _ hgf]
      exact h.pair g r hr
  · rw [Frames.getElem?_modify_of_ne _ (by decide), hb]
  · rw [Frames.getElem?_modify_of_ne _ (by decide), hb']
  · rw [Frames.getElem?_modify_self, hg, Option.map_some, hafter]
  · rw [Frames.getElem?_modify_self, hg', Option.map_some, hafter']

end

/-! ## Assigning -/

theorem pair_assign (hslot : names.idxOf? name = some j) (value : Value)
    (h : FramePair (.params names) frame frame') :
    FramePair (.params names) (frame.setSlot j value) (frame'.bind name value) := by
  obtain ⟨values, bindings, rfl, rfl, hsize, hfull, hsame⟩ := h
  have hj : j < values.size := hsize ▸ lt_of_idxOf? hslot
  refine ⟨_, _, rfl, rfl, by simpa using hsize, fun i hi => ?_, fun other => ?_⟩
  · rw [Array.getElem?_setIfInBounds]
    by_cases hji : j = i
    · rw [if_pos hji, if_pos hj]
      exact ⟨value, rfl⟩
    · rw [if_neg hji]
      exact hfull i hi
  · rw [Bindings.get?_set, hsame]
    simpa only [slotAt_natCast] using (named_write hslot hj value other).symm

section
variable (h : FramesAgree roles globals globals' fs fs')

include h

theorem assign_param (hfits : ChainFits roles inner chain) (hplace : chain.find? name = some place) (tail : Env)
    (value : Value) :
    ∃ f, fs.slotOwner (inner ++ tail) place.1 place.2 = .ok f ∧
      fs'.assignee? name (inner ++ tail) = some f ∧
      FramesAgree roles globals globals' (fs.write f place.2 value) (fs'.bindIn (some f) name value) := by
  obtain ⟨f, names, -, hf, hrole, hslot, -, -, hholder⟩ := h.get?_param hfits hplace tail
  obtain ⟨_, _, hframe, -, values, _, rfl, -, hsize, -⟩ := h.pair f _ hrole
  refine ⟨f, ?_, ?_, ?_⟩
  · have hj : ((0 : Int) ≤ place.2 ∧ (place.2 : Int) < values.size) := by
      have := lt_of_idxOf? hslot
      omega
    rw [Frames.slotOwner_within (h.allSlots_chain hfits) hf]
    simp only [Frames.checkSlot, hframe, if_pos hj]
  · cases hfits with
    | nil => cases hplace
    | @cons g others inner outer hg _ =>
      obtain ⟨_, _, -, hframe', _, _, -, rfl, -⟩ := h.pair g _ hg
      simp only [List.cons_append, Frames.assignee?, hframe'] at hholder ⊢
      rw [hholder]
      rfl
  · exact h.modify hrole (by simp) fun frame frame' hpair => pair_assign hslot value hpair

theorem slotOwner_shared (hfits : SharedFits roles inner) (hhops : hops < inner.length) (index : Int)
    (tail : Env) :
    fs'.slotOwner (inner ++ tail) hops index = fs.slotOwner (inner ++ tail) hops index ∧
      ∀ f, fs.slotOwner (inner ++ tail) hops index = .ok f → roles[f]? = some .shared := by
  obtain ⟨hslots, hslots'⟩ := h.allSlots_shared hfits
  have hf : inner[hops]? = some inner[hops] := List.getElem?_eq_getElem hhops
  have hrole := hfits _ (List.getElem_mem hhops)
  obtain ⟨_, _, hframe, hframe', rfl, values, rfl⟩ := h.pair _ _ hrole
  rw [Frames.slotOwner_within hslots hf, Frames.slotOwner_within hslots' hf]
  refine ⟨by simp only [Frames.checkSlot, hframe, hframe'], fun f hok => ?_⟩
  rwa [← (Frames.checkSlot_ok hok).1] at hrole

theorem write_shared (hrole : roles[f]? = some .shared) (index : Int) (value : Value) :
    FramesAgree roles globals globals' (fs.write f index value) (fs'.write f index value) := by
  refine h.modify hrole (by simp) ?_
  rintro frame _ ⟨rfl, values, rfl⟩
  exact ⟨rfl, _, rfl⟩

theorem assign_global (hslot : globals.idxOf? name = some slot) (value : Value) :
    fs.slotOwner Machine.globalEnv 0 slot = .ok Machine.globalFrame ∧
      fs'.assignee? name Machine.globalEnv = some Machine.globalFrame ∧
      ∃ names', globals' <+: names' ∧ FramesAgree roles globals names'
        (fs.write Machine.globalFrame slot value) (fs'.bindIn (some Machine.globalFrame) name value) := by
  obtain ⟨-, values, values', hg, hg', -⟩ := h.top
  have hmem : name ∈ globals := List.mem_of_getElem? (getElem?_of_idxOf? hslot)
  refine ⟨?_, ?_, ?_⟩
  · simp [Machine.globalEnv, Frames.slotOwner, Frames.checkSlot, hg]
  · simp [Machine.globalEnv, Frames.assignee?, hg']
  · obtain ⟨hgrows, hfind⟩ := Table.add_spec (t := ⟨.globals, globals'⟩) rfl name
    refine ⟨(Table.add ⟨.globals, globals'⟩ name).2.names, hgrows.names, ?_⟩
    have hnodup : (Table.add ⟨.globals, globals'⟩ name).2.names.Nodup :=
      Table.nodup_add (t := ⟨.globals, globals'⟩) h.nodup.2 name
    refine h.modifyGlobals h.fresh ?_ ⟨h.nodup.1, hnodup⟩ fun values values' hsize hsize' hsame => ?_
    · -- the name may be new there, but it is declared here
      unfold Table.add
      split
      · exact h.fresh'
      · exact List.forall_mem_append.mpr ⟨h.fresh', List.forall_mem_singleton.mpr (h.fresh name hmem)⟩
    · let slot' := (Table.add ⟨.globals, globals'⟩ name).1
      refine ⟨(grow values (slot + 1)).setIfInBounds slot (some value),
        (grow values' (slot' + 1)).setIfInBounds slot' (some value), rfl, rfl, ?_, ?_, fun other => ?_⟩
      · exact size_write_le hslot hsize value
      · exact size_write_le hfind (Nat.le_trans hsize' hgrows.names.length_le) value
      · rw [globalValue_write hslot, globalValue_write hfind]
        split
        · rfl
        · rw [globalValue_of_isPrefix hgrows.names hsize', hsame]

theorem declare (hgrow : GlobalsGrow globals names) :
    FramesAgree roles names globals' (fs.modify Machine.globalFrame fun 
      | .globals _ values => .globals names values
      | frame => frame) fs' := by
  have hid : fs'.modify Machine.globalFrame id = fs' := by
    refine Array.ext_getElem? fun f => ?_
    rw [Array.getElem?_modify]
    split <;> simp
  rw [← hid]
  refine h.modifyGlobals (fun name hname => (hgrow.fresh name hname).elim (h.fresh name) id) h.fresh' ⟨hgrow.nodup h.nodup.1, h.nodup.2⟩ ?_
  intro values values' hsize hsize' hsame
  refine ⟨values, values', rfl, rfl, Nat.le_trans hsize hgrow.names.length_le, hsize', fun name => ?_⟩
  rw [globalValue_of_isPrefix hgrow.names hsize, hsame]

end

end FramesAgree

end StoneLang.Modes
