/-
  The laws of environments.

  PROGRAM: a chain of frames of any kinds, read and written by slot (`Frames.getAt?`, `Frames.putAt`) and by name
  (`Frames.get?`, `Frames.put`).

  SPEC: what was written is read, nothing else changes, and a write that fails changes nothing
  (`Frames.chain_obeys_store_laws`).

  A write by slot settles first which frame it is about; a read hops from frame to frame.  Both come to the same frame
  (`Frames.getAt?_owner`), because the hops depend on the kinds of the frames alone, and these never change.
-/
import StoneLang.Proofs.Evaluation.Accesses
import StoneLang.Proofs.Evaluation.Frames
import StoneLang.Proofs.Scope.Assigning

namespace StoneLang

theorem Machine.fieldAt?_withField (m : Machine) (object index : Nat) (value : Value) (other slot : Nat) :
    Run.fieldAt? (m.withField object index value) other slot
      = if other = object ∧ slot = index then (Run.fieldAt? m object index).map fun _ => value
        else Run.fieldAt? m other slot := by
  unfold Run.fieldAt? withField
  rw [Array.getElem?_modify]
  by_cases hobject : object = other
  · subst hobject
    cases m.objects[object]? with
    | none => simp
    | some o =>
      by_cases hslot : index = slot
      · subst hslot
        by_cases hlt : index < o.fields.size <;> simp [hlt]
      · simp [hslot, Ne.symm hslot]
  · simp [hobject, Ne.symm hobject]

/-! ## One frame -/

theorem slotAt_grown (values : Array (Option Value)) (index : Nat) (value : Value) (i : Int) :
    slotAt ((grow values (index + 1)).setIfInBounds index (some value)) i
      = if i = index then some value else slotAt values i := by
  rw [slotAt_write (lt_size_grow values index), slotAt_grow]

namespace Frame

def slots? : Frame → Option (Array (Option Value))
  | .slots values | .globals _ values => some values
  | .builtins _ | .byName _ => none

/-- An access over `nest` hops goes on to the frames around this one. -/
def passesOn (nest : Int) : Frame → Bool
  | .builtins _ => false
  | .byName _ => nest != 0
  | .slots _ | .globals .. => 0 < nest

def named? (name : Text) : Frame → Option Value
  | .builtins bindings | .byName bindings => bindings.get? name
  | .globals names values => (names.idxOf? name).bind fun slot => slotAt values slot
  | .slots _ => none

variable {frame : Frame} {name other : Text} {value : Value}

theorem named?_bind (h : ∀ values, frame ≠ .slots values) (name other : Text) (value : Value) :
    (frame.bind name value).named? other = if name = other then some value else frame.named? other := by
  cases frame with
  | slots values => exact absurd rfl (h values)
  | builtins bindings | byName bindings => exact Bindings.get?_set ..
  | globals names values =>
    have hslot : (Table.add ⟨.globals, names⟩ name).2.names.idxOf? name = _ := Table.find?_add_self ⟨.globals, names⟩ name
    simp only [bind, named?, named_write hslot (lt_size_grow values _), slotAt_grow]
    split
    · rfl
    · next hne =>
      have hother := Table.find?_add (t := ⟨.globals, names⟩) (Ne.symm hne)
      rw [Table.find?, Table.find?] at hother
      rw [hother]

end Frame

namespace Frames

variable {frames frames' : Frames} {env outer : Env} {f g : Nat} {nest index : Int} {name other : Text} {value : Value}

/-- A chain of frames, each of them there; the builtins have nothing around them. -/
def IsChain (frames : Frames) : Env → Prop
  | [] => True
  | f :: outer =>
    (∃ frame, frames[f]? = some frame ∧ (outer ≠ [] → ∀ bindings, frame ≠ .builtins bindings)) ∧ frames.IsChain outer

theorem IsChain.drop {inner : Env} (h : frames.IsChain (inner ++ env)) : frames.IsChain env := by
  induction inner with
  | nil => exact h
  | cons g inner ih => exact ih h.2

/-- The frame takes names. -/
def TakesNames (frames : Frames) (f : Nat) : Prop := ∀ values, frames[f]? ≠ some (.slots values)

def slot? (frames : Frames) (f : Nat) (index : Int) : Option Value :=
  ((frames[f]?).bind Frame.slots?).bind fun values => slotAt values index

def SameKinds (frames frames' : Frames) : Prop :=
  ∀ (g : Nat) (frame : Frame), frames[g]? = some frame → ∃ frame', frames'[g]? = some frame' ∧ frame.SameKind frame'

theorem sameKinds_modify (frames : Frames) (f : Nat) (h : ∀ frame : Frame, frame.SameKind (change frame)) :
    frames.SameKinds (frames.modify f change) := by
  intro g frame hg
  by_cases hgf : g = f
  · subst hgf
    exact ⟨change frame, by rw [getElem?_modify_self, hg]; rfl, h frame⟩
  · exact ⟨frame, by rw [getElem?_modify_of_ne frames hgf, hg], by cases frame <;> trivial⟩

/-! ## By slot -/

theorem getAt?_cons (hf : frames[f]? = some frame) : frames.getAt? (f :: outer) nest index
    = if frame.passesOn nest then frames.getAt? outer (nest - 1) index else frames.slot? f index := by
  cases frame with
  | byName bindings => by_cases h : nest = 0 <;> simp [getAt?, hf, Frame.passesOn, slot?, Frame.slots?, h]
  | _ => simp [getAt?, hf, Frame.passesOn, slot?, Frame.slots?]

theorem getAt?_sameKinds (hkinds : frames.SameKinds frames') (hf : frames[f]? = some frame) :
    frames'.getAt? (f :: outer) nest index
      = if frame.passesOn nest then frames'.getAt? outer (nest - 1) index else frames'.slot? f index := by
  obtain ⟨frame', hf', hsame⟩ := hkinds _ _ hf
  have hpasses : frame'.passesOn nest = frame.passesOn nest := by
    cases frame <;> cases frame' <;> first | rfl | exact hsame.elim
  rw [getAt?_cons hf', hpasses]

theorem getAt?_hops (h : frames.IsChain env) (hkinds : frames.SameKinds frames') {n : Nat}
    (hf : env[n]? = some f) : frames'.getAt? env n index = frames'.slot? f index := by
  induction env generalizing n with
  | nil => cases hf
  | cons g outer ih =>
    obtain ⟨⟨frame, hg, hinside⟩, haround⟩ := h
    rw [getAt?_sameKinds hkinds hg]
    cases n with
    | zero =>
      cases hf
      have hstays : frame.passesOn ((0 : Nat) : Int) = false := by cases frame <;> simp [Frame.passesOn]
      rw [hstays, if_neg Bool.false_ne_true]
    | succ n =>
      have hne : outer ≠ [] := by
        rintro rfl
        simp at hf
      have hpasses : frame.passesOn ((n + 1 : Nat) : Int) = true := by
        cases frame with
        | builtins bindings => exact absurd rfl (hinside hne bindings)
        | _ =>
          simp only [Frame.passesOn, bne_iff_ne, decide_eq_true_eq]
          omega
      have hnext : ((n + 1 : Nat) : Int) - 1 = n := by omega
      rw [hpasses, if_pos rfl, hnext]
      exact ih haround (by simpa using hf)

theorem getAt?_owner (h : frames.IsChain env) (hkinds : frames.SameKinds frames')
    (howner : frames.slotOwner env nest index = .ok f) : frames'.getAt? env nest index = frames'.slot? f index := by
  induction env generalizing nest with
  | nil => cases howner
  | cons g outer ih =>
    obtain ⟨⟨frame, hg, -⟩, haround⟩ := id h
    unfold slotOwner at howner
    rw [hg] at howner
    cases frame with
    | builtins bindings => cases howner
    | byName bindings =>
      dsimp only at howner
      split at howner
      · cases howner
      · next hcond =>
        rw [not_or] at hcond
        rw [getAt?_sameKinds hkinds hg, if_pos (by simpa [Frame.passesOn] using hcond.1)]
        exact ih haround howner
    | globals names values =>
      dsimp only at howner
      rw [getAt?_sameKinds hkinds hg]
      split at howner
      · next hnest =>
        split at howner
        · cases howner
        · rw [if_pos (by simpa [Frame.passesOn] using hnest)]
          exact ih haround howner
      · next hnest =>
        obtain ⟨rfl, -⟩ := checkSlot_ok howner
        rw [if_neg (by simpa [Frame.passesOn] using hnest)]
    | slots values =>
      dsimp only at howner
      split at howner
      · -- all the hops are made at once
        next hnest =>
        split at howner
        · next target rest hdrop =>
          obtain ⟨rfl, -⟩ := checkSlot_ok howner
          obtain ⟨n, rfl⟩ : ∃ n : Nat, nest = ((n + 1 : Nat) : Int) := ⟨nest.toNat - 1, by omega⟩
          refine getAt?_hops h hkinds ?_
          have hhead := congrArg List.head? hdrop
          rw [List.head?_drop] at hhead
          exact hhead
        · cases howner
      · next hnest =>
        obtain ⟨rfl, -⟩ := checkSlot_ok howner
        rw [getAt?_sameKinds hkinds hg, if_neg (by simpa [Frame.passesOn] using hnest)]

/-- The frames after the slot `index` of the frame `f` was written.  A row of slots keeps its size, that of the globals
grows if it has to. -/
structure Wrote (frames frames' : Frames) (f : Nat) (index : Int) (value : Value) : Prop where
  slots : ∀ g i, frames'.slot? g i = if g = f ∧ i = index then some value else frames.slot? g i
  others : ∀ g, g ≠ f ∨ (frames[g]?).bind Frame.slots? = none → frames'[g]? = frames[g]?
  row : (∃ values values', frames[f]? = some (.slots values) ∧ frames'[f]? = some (.slots values') ∧
        values'.size = values.size) ∨
    ∃ names values values', frames[f]? = some (.globals names values) ∧ frames'[f]? = some (.globals names values') ∧
      values'.size = max values.size (index.toNat + 1)

theorem wrote_write (h : frames.HasSlot f index) (value : Value) : frames.Wrote (frames.write f index value) f index value where
  slots g i := by
    unfold slot? write
    by_cases hgf : g = f
    · subst hgf
      rw [getElem?_modify_self]
      rcases h with ⟨values, hvalues, hlower, hupper⟩ | ⟨names, values, hvalues, hlower⟩
      · have hindex : index.toNat < values.size := by omega
        simp only [hvalues, Option.map_some, Option.bind_some, Frame.setSlot, Frame.slots?, slotAt_write hindex,
          Int.toNat_of_nonneg hlower, true_and]
      · simp only [hvalues, Option.map_some, Option.bind_some, Frame.setSlot, Frame.slots?, slotAt_grown,
          Int.toNat_of_nonneg hlower, true_and]
    · rw [getElem?_modify_of_ne frames hgf, if_neg fun hboth => hgf hboth.1]
  others g hg := by
    refine getElem?_modify_of_ne frames (hg.elim id ?_) _
    rintro hnone rfl
    rcases h with ⟨values, hvalues, -⟩ | ⟨names, values, hvalues, -⟩ <;> simp [hvalues, Frame.slots?] at hnone
  row := by
    rcases h with ⟨values, hvalues, -⟩ | ⟨names, values, hvalues, -⟩
    · exact .inl ⟨values, values.setIfInBounds index.toNat (some value), hvalues,
        by rw [write, getElem?_modify_self, hvalues]; rfl, Array.size_setIfInBounds⟩
    · exact .inr ⟨names, values, (grow values (index.toNat + 1)).setIfInBounds index.toNat (some value), hvalues,
        by rw [write, getElem?_modify_self, hvalues]; rfl, by rw [Array.size_setIfInBounds, size_grow]⟩

/-! ## By name -/

theorem IsChain.sameKinds (h : frames.IsChain env) (hkinds : frames.SameKinds frames') : frames'.IsChain env := by
  induction env with
  | nil => trivial
  | cons f outer ih =>
    obtain ⟨⟨frame, hf, hinside⟩, haround⟩ := h
    obtain ⟨frame', hf', hsame⟩ := hkinds _ _ hf
    refine ⟨⟨frame', hf', ?_⟩, ih haround⟩
    rintro hne bindings rfl
    cases frame with
    | builtins old => exact hinside hne old rfl
    | _ => exact hsame

theorem get?_cons (h : frames.IsChain (f :: outer)) (name : Text) :
    frames.get? name (f :: outer) = ((frames[f]?).bind (Frame.named? name)).or (frames.get? name outer) := by
  obtain ⟨⟨frame, hf, hinside⟩, -⟩ := h
  rw [get?, hf]
  cases frame with
  | builtins bindings =>
    have hout : outer = [] := by
      by_contra hne
      exact hinside hne bindings rfl
    subst hout
    exact (Option.or_none).symm
  | slots values => rfl
  | byName bindings => cases hget : bindings.get? name <;> simp [Frame.named?, hget]
  | globals names values =>
    cases hget : (names.idxOf? name).bind fun slot => slotAt values slot <;> simp [Frame.named?, hget]

theorem named?_bindIn (hf : frames.TakesNames f) (name other : Text) (value : Value) (g : Nat) :
    ((frames.bindIn (some f) name value)[g]?).bind (Frame.named? other)
      = if g = f ∧ name = other then (frames[f]?).map fun _ => value else (frames[g]?).bind (Frame.named? other) := by
  unfold bindIn
  by_cases hgf : g = f
  · subst hgf
    rw [getElem?_modify_self]
    cases hg : frames[g]? with
    | none => simp
    | some frame =>
      have hkind : ∀ values, frame ≠ .slots values := by
        rintro values rfl
        exact hf values hg
      simp only [Option.map_some, Option.bind_some, Frame.named?_bind hkind, true_and]
  · rw [getElem?_modify_of_ne frames hgf, if_neg fun hboth => hgf hboth.1]

theorem IsChain.bindIn (h : frames.IsChain env) (target : Option Nat) (name : Text) (value : Value) :
    (frames.bindIn target name value).IsChain env := by
  cases target with
  | none => exact h
  | some f => exact h.sameKinds (sameKinds_modify frames f (Frame.sameKind_bind name value))

/-- A read by name after a binding, from every chain that the frame is not in the first place of. -/
theorem get?_bindIn_cons (h : frames.IsChain (g :: outer)) (hf : frames.TakesNames f)
    (hne : ¬(g = f ∧ name = other)) : (frames.bindIn (some f) name value).get? other (g :: outer)
      = ((frames[g]?).bind (Frame.named? other)).or ((frames.bindIn (some f) name value).get? other outer) := by
  rw [get?_cons (h.bindIn _ name value), named?_bindIn hf, if_neg hne]

theorem get?_bindIn_here (h : frames.IsChain (f :: outer)) (hf : frames.TakesNames f) :
    (frames.bindIn (some f) name value).get? name (f :: outer) = some value := by
  obtain ⟨⟨frame, hframe, -⟩, -⟩ := id h
  rw [get?_cons (h.bindIn _ name value), named?_bindIn hf, if_pos ⟨rfl, rfl⟩, hframe]
  rfl

theorem get?_bindIn_of_ne (h : frames.IsChain env) (hf : frames.TakesNames f) (hne : name ≠ other) :
    (frames.bindIn (some f) name value).get? other env = frames.get? other env := by
  induction env with
  | nil => rfl
  | cons g outer ih => rw [get?_bindIn_cons h hf fun hboth => hne hboth.2, get?_cons h, ih h.2]

theorem get?_holder (h : frames.IsChain env) (hholder : frames.holder? name env = some f) (value : Value) :
    (∃ bindings, frames[f]? = some (.byName bindings)) ∧ (frames.bindIn (some f) name value).get? name env = some value := by
  induction env with
  | nil => cases hholder
  | cons g outer ih =>
    unfold holder? at hholder
    split at hholder
    · next bindings hg =>
      have hkind : frames.TakesNames g := by simp [TakesNames, hg]
      split at hholder
      · cases hholder
        exact ⟨⟨bindings, hg⟩, get?_bindIn_here h hkind⟩
      · next hnone =>
        obtain ⟨hfound, hget⟩ := ih h.2 hholder
        refine ⟨hfound, ?_⟩
        obtain ⟨there, hf⟩ := hfound
        by_cases hgf : g = f
        · subst hgf
          exact get?_bindIn_here h hkind
        · have hempty : bindings.get? name = none := Option.not_isSome_iff_eq_none.mp hnone
          rw [get?_bindIn_cons h (by simp [TakesNames, hf]) fun hboth => hgf hboth.1, hg, hget, Option.bind_some, Frame.named?, hempty,
            Option.none_or]
    · cases hholder

theorem get?_assignee (h : frames.IsChain env) (hassignee : frames.assignee? name env = some f) (value : Value) :
    frames.TakesNames f ∧ (frames.bindIn (some f) name value).get? name env = some value := by
  induction env with
  | nil => cases hassignee
  | cons g outer ih =>
    have hhere : frames.TakesNames g → frames.TakesNames g ∧
        (frames.bindIn (some g) name value).get? name (g :: outer) = some value := fun hg => ⟨hg, get?_bindIn_here h hg⟩
    unfold assignee? at hassignee
    split at hassignee
    · next bindings hg =>
      cases hholder : frames.holder? name (g :: outer) with
      | some holder =>
        rw [hholder] at hassignee
        cases hassignee
        obtain ⟨⟨there, hf⟩, hget⟩ := get?_holder h hholder value
        exact ⟨by simp [TakesNames, hf], hget⟩
      | none =>
        rw [hholder] at hassignee
        cases hassignee
        exact hhere (by simp [TakesNames, hg])
    · next values hg =>
      obtain ⟨hf, hget⟩ := ih h.2 hassignee
      have hgf : g ≠ f := by
        rintro rfl
        exact hf values hg
      rw [get?_bindIn_cons h hf fun hboth => hgf hboth.1, hg, hget]
      exact ⟨hf, rfl⟩
    · next bindings hg =>
      cases hassignee
      exact hhere (by simp [TakesNames, hg])
    · next names values hg =>
      cases hassignee
      exact hhere (by simp [TakesNames, hg])
    · cases hassignee

theorem assignee?_isSome (h : frames.IsChain env) (hf : f ∈ env) (hkind : frames.TakesNames f) (name : Text) :
    ∃ assignee, frames.assignee? name env = some assignee := by
  induction env with
  | nil => cases hf
  | cons g outer ih =>
    obtain ⟨⟨frame, hg, -⟩, haround⟩ := h
    unfold assignee?
    rw [hg]
    cases frame with
    | builtins | byName | globals => exact ⟨_, rfl⟩
    | slots values =>
      have hmem : f ∈ outer := by
        refine List.mem_of_ne_of_mem ?_ hf
        rintro rfl
        exact hkind values hg
      exact ih haround hmem

theorem assignee?_byName {inner : List Nat} (h : frames.IsChain (f :: outer)) (hinner : frames.AllSlots inner)
    (hf : frames[f]? = some (.byName bindings)) (name : Text) :
    ∃ g there, frames.assignee? name (inner ++ f :: outer) = some g ∧ frames[g]? = some (.byName there) := by
  induction inner with
  | nil =>
    rw [List.nil_append, assignee?, hf]
    cases hholder : frames.holder? name (f :: outer) with
    | none => exact ⟨f, bindings, rfl, hf⟩
    | some holder =>
      obtain ⟨⟨there, hthere⟩, -⟩ := get?_holder h hholder .null
      exact ⟨holder, there, rfl, hthere⟩
  | cons g inner ih =>
    obtain ⟨values, hg⟩ := hinner g List.mem_cons_self
    rw [List.cons_append, assignee?, hg]
    exact ih hinner.rest

/-! ## The laws -/

/-- By slot: what was written is read, one slot has changed and nothing else; an assignment to a placed name is such a
write, and if it fails the machine is as before.  By name: if some frame takes names then what was assigned is read, and
the other names are as they were; at most one frame has changed, and from a by-name frame on it is a by-name frame. -/
theorem chain_obeys_store_laws (h : frames.IsChain env) (value : Value) :
    (∀ nest index frames', frames.putAt env nest index value = .ok frames' →
      frames'.getAt? env nest index = some value ∧ ∃ f ∈ env, frames.Wrote frames' f index value) ∧
    (∀ (m : Machine) site word (nest index : Nat), m.frames = frames → m.notes.places.get? site = some (.lexical nest index) →
      Run.assignName site word value env m = match frames.putAt env nest index value with
        | .ok frames' => .ok () { m with frames := frames' }
        | .error reason => .error (.atLine (.slotRefused word.text reason.message) word.line) m) ∧
    ∀ name,
      ((∃ f ∈ env, frames.TakesNames f) → (frames.put env name value).get? name env = some value) ∧
      (∀ other, name ≠ other → (frames.put env name value).get? other env = frames.get? other env) ∧
      (∃ f, ∀ g : Nat, g ≠ f → (frames.put env name value)[g]? = frames[g]?) ∧
      ∀ (inner : List Nat) (f : Nat) outer bindings, env = inner ++ f :: outer → frames.AllSlots inner →
        frames[f]? = some (.byName bindings) →
        ∀ g : Nat, (∀ there, frames[g]? ≠ some (.byName there)) → (frames.put env name value)[g]? = frames[g]? := by
  refine ⟨?_, ?_, fun name => ⟨?_, ?_, ?_, ?_⟩⟩
  · intro nest index frames' hput
    unfold putAt at hput
    cases howner : frames.slotOwner env nest index with
    | error reason =>
      rw [howner] at hput
      cases hput
    | ok f =>
      rw [howner] at hput
      cases hput
      have hwrote := wrote_write (slotOwner_ok howner).2 value
      refine ⟨?_, f, (slotOwner_ok howner).1, hwrote⟩
      have hkinds := sameKinds_modify frames f (Frame.sameKind_setSlot index.toNat value)
      rw [write, getAt?_owner h hkinds howner]
      exact (hwrote.slots f index).trans (if_pos ⟨rfl, rfl⟩)
  · rintro m site word nest index rfl hplace
    rw [Run.assignName_eq, Machine.assigned, hplace, putAt]
    dsimp only
    cases m.frames.slotOwner env nest index <;> rfl
  · rintro ⟨f, hf, hkind⟩
    obtain ⟨assignee, hassignee⟩ := assignee?_isSome h hf hkind name
    rw [put, hassignee]
    exact (get?_assignee h hassignee value).2
  · intro other hne
    rw [put]
    cases hassignee : frames.assignee? name env with
    | none => rfl
    | some f => exact get?_bindIn_of_ne h (get?_assignee h hassignee value).1 hne
  · rw [put]
    cases frames.assignee? name env with
    | none => exact ⟨0, fun _ _ => rfl⟩
    | some f => exact ⟨f, fun g hg => getElem?_modify_of_ne frames hg _⟩
  · rintro inner f outer bindings rfl hinner hf g hg
    obtain ⟨assignee, there, hassignee, hthere⟩ := assignee?_byName h.drop hinner hf name
    rw [put, hassignee]
    refine getElem?_modify_of_ne frames ?_ _
    rintro rfl
    exact hg there hthere

/-- A call placed by slot in a scope by name, in the globals. -/
def mixedChain : Frames :=
  #[.builtins [(text "print", .integer 0)], .globals [text "a"] #[some (.integer 1)], .byName [(text "b", .integer 2)],
    .slots #[none, some (.integer 3)]]

theorem mixedChain_isChain : mixedChain.IsChain [3, 2, 1, 0] :=
  ⟨⟨_, rfl, by simp [mixedChain]⟩, ⟨_, rfl, by simp [mixedChain]⟩, ⟨_, rfl, by simp [mixedChain]⟩, ⟨_, rfl, by simp⟩, trivial⟩

/-- From the call, the third global slot is written and read, and the name that the scope does not bind is bound in it. -/
theorem store_laws_mixed : mixedChain.IsChain [3, 2, 1, 0] ∧
    (∃ frames', mixedChain.putAt [3, 2, 1, 0] 2 2 (.integer 7) = .ok frames' ∧
      frames'.getAt? [3, 2, 1, 0] 2 2 = some (.integer 7) ∧ ∃ f ∈ [3, 2, 1, 0], mixedChain.Wrote frames' f 2 (.integer 7)) ∧
    (mixedChain.put [3, 2, 1, 0] (text "a") (.integer 7)).get? (text "a") [3, 2, 1, 0] = some (.integer 7) ∧
    (mixedChain.put [3, 2, 1, 0] (text "a") (.integer 7))[1]? = mixedChain[1]? := by
  obtain ⟨hslots, -, hnames⟩ := chain_obeys_store_laws mixedChain_isChain (.integer 7)
  obtain ⟨hread, -, -, hkept⟩ := hnames (text "a")
  refine ⟨mixedChain_isChain, ⟨_, rfl, hslots 2 2 _ rfl⟩, hread ⟨2, by simp, fun _ => nofun⟩, ?_⟩
  refine hkept [3] 2 [1, 0] _ rfl ?_ rfl 1 fun _ => nofun
  intro f hf
  rw [List.mem_singleton.mp hf]
  exact ⟨_, rfl⟩

end Frames

end StoneLang
