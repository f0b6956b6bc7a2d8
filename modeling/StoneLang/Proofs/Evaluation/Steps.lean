/-
  Steps that touch the store alone.

  Operators, natives, arrays and members of objects change values and nothing else: the code of the machine,
  the addresses of its names and the shapes of its objects stay as they are (`Machine.SameShape`).  One lemma
  for each of these steps says what the machine holds after it, what it gives, and what it can fail with
  (`Machine.Steps`).  None of them fails because a variable is not where it was addressed
  (`Failure.IsOrdinary`).
-/
import StoneLang.Proofs.Evaluation.Actions
import StoneLang.Proofs.Evaluation.Coupling
import StoneLang.Proofs.Evaluation.Natives
import StoneLang.Proofs.Evaluation.Stored

namespace StoneLang

/-- A failure that has nothing to do with addresses: it has another cause, or a label. -/
def Failure.IsOrdinary (e : Failure) : Prop :=
  (∃ cause line, cause.isAddress = false ∧ e = .atLine cause line) ∨ ∃ shown inner, e = .labelled shown inner

theorem Failure.isOrdinary_atLine (line : Int) (h : cause.isAddress = false) : (Failure.atLine cause line).IsOrdinary :=
  .inl ⟨cause, line, h, rfl⟩

/-- The machines have the same frames, functions, classes, natives and settings. -/
structure Machine.SameCode (m m' : Machine) : Prop where
  frames : m'.frames = m.frames
  functions : m'.functions = m.functions
  classes : m'.classes = m.classes
  natives : m'.natives = m.natives
  settings : m'.settings = m.settings

/-- The class of an object and the number of its fields. -/
def Object.shape (o : Object) : Nat × Nat := (o.classRef, o.fields.size)

/-- The machines have the same code, the same addresses and objects of the same shapes. -/
structure Machine.SameShape (m m' : Machine) : Prop extends m.SameCode m' where
  places : m'.notes.places = m.notes.places
  sizes : m'.notes.sizes = m.notes.sizes
  objects : m'.objects.map Object.shape = m.objects.map Object.shape

namespace Machine

theorem SameShape.refl (m : Machine) : m.SameShape m := ⟨⟨rfl, rfl, rfl, rfl, rfl⟩, rfl, rfl, rfl⟩

theorem SameShape.trans {m m' m'' : Machine} (h : m.SameShape m') (h' : m'.SameShape m'') : m.SameShape m'' where
  frames := h'.frames.trans h.frames
  functions := h'.functions.trans h.functions
  classes := h'.classes.trans h.classes
  natives := h'.natives.trans h.natives
  settings := h'.settings.trans h.settings
  places := h'.places.trans h.places
  sizes := h'.sizes.trans h.sizes
  objects := h'.objects.trans h.objects

/-- The computation leaves the shape of `m` as it is and keeps to values with `P`; its result satisfies `Q`, its
failure `E`. -/
abbrev Steps {α : Type} (m : Machine) (P : Value → Prop) (Q : α → Prop) (E : Failure → Prop)
    (x : EStateM.Result Failure Machine α) : Prop :=
  Coupling.Ended (fun m' => m.SameShape m' ∧ m'.Holds P) Q E x

theorem Steps.code {α : Type} {m : Machine} {Q : α → Prop}
    {x : EStateM.Result Failure Machine α} (h : m.Steps P Q E x) :
    Coupling.Ended (fun m' => m.SameCode m' ∧ m'.Holds P) Q E x := by
  cases x <;> exact ⟨⟨h.1.1.toSameCode, h.1.2⟩, h.2⟩

theorem sameShape_withField (m : Machine) (object index : Nat) (value : Value) :
    m.SameShape (m.withField object index value) := by
  refine ⟨⟨rfl, rfl, rfl, rfl, rfl⟩, rfl, rfl, ?_⟩
  refine Array.ext_getElem? fun i => ?_
  simp only [withField, Array.getElem?_map, Array.getElem?_modify]
  split
  · cases m.objects[i]? <;> simp [Object.shape]
  · rfl

variable {P : Value → Prop} {m : Machine}

/-! ## Operators and arrays -/

section
variable (h : m.Holds P)

include h

theorem steps_operate (hflat : ∀ v : Value, v.isFlat → P v) (operator : Text) (a b : Value) (line : Int) :
    m.Steps P P Failure.IsOrdinary (Actions.machine.operate operator a b line m) := by
  show m.Steps P P _ (Run.ofCause line (binaryOperation m operator a b) m)
  cases hvalue : binaryOperation m operator a b with
  | ok value => exact ⟨⟨.refl m, h⟩, hflat value (isFlat_binaryOperation hvalue)⟩
  | error cause =>
    exact ⟨⟨.refl m, h⟩, Failure.isOrdinary_atLine line (Cause.isAddress_of_isOfStore (isOfStore_binaryOperation hvalue))⟩

theorem steps_newArray (hvalues : ∀ v ∈ values, P v) (harray : P (.array m.arrays.size)) :
    m.Steps P P Failure.IsOrdinary (Run.newArray values m) :=
  ⟨⟨⟨⟨rfl, rfl, rfl, rfl, rfl⟩, rfl, rfl, rfl⟩, h.newArray hvalues⟩, harray⟩

theorem steps_element (target index : Value) (line : Int) :
    m.Steps P (fun _ => True) Failure.IsOrdinary (Run.element target index line m) := by
  rcases Run.element_cases target index line m with ⟨ref, i, -, -, -, -, hx⟩ | ⟨cause, hcause, hx⟩
  · rw [hx]
    exact ⟨⟨.refl m, h⟩, trivial⟩
  · rw [hx]
    exact ⟨⟨.refl m, h⟩, Failure.isOrdinary_atLine line (Cause.isAddress_of_isOfStore hcause)⟩

theorem steps_readElement (hnull : P .null) (ref index : Nat) :
    m.Steps P P Failure.IsOrdinary (Run.readElement ref index m) :=
  ⟨⟨.refl m, h⟩, h.element hnull ref index⟩

theorem steps_setElement (ref index : Nat) (hvalue : P value) :
    m.Steps P (fun _ => True) Failure.IsOrdinary (Run.setElement ref index value m) :=
  ⟨⟨⟨⟨rfl, rfl, rfl, rfl, rfl⟩, rfl, rfl, rfl⟩, h.setElement ref index hvalue⟩, trivial⟩

/-! ## Members -/

theorem steps_readMember (hnull : P .null)
    (hmethod : ∀ index d, Run.methodAt? m object index = some d → P (.method object d)) (site : Site) (title : Label) :
    m.Steps P P Failure.IsOrdinary (Run.readMember object site title m) := by
  rw [Run.readMember_eq]
  cases hfound : m.member object site title with
  | error cause => exact ⟨⟨.refl m, h⟩, Failure.isOrdinary_atLine _ (Cause.isAddress_of_isOfStore (isOfStore_member hfound))⟩
  | ok found =>
    obtain ⟨entry, m'⟩ := found
    rcases member_cases hfound with rfl | rfl
    · exact ⟨⟨.refl _, h⟩, h.memberValue hnull entry fun d hd => hmethod _ d hd⟩
    · have hheld : (m.remembering site entry).Holds P := ⟨h.frames, h.arrays, h.objects⟩
      exact ⟨⟨⟨⟨rfl, rfl, rfl, rfl, rfl⟩, rfl, rfl, rfl⟩, hheld⟩,
        hheld.memberValue hnull entry fun d hd => hmethod _ d hd⟩

theorem steps_assignMember (target : Value) (site : Site) (title : Label) (hvalue : P value) :
    m.Steps P (fun _ => True) Failure.IsOrdinary (Run.assignMember target site title value m) := by
  cases target with
  | object ref =>
    rw [Run.assignMember_eq]
    cases hfound : m.member ref site title with
    | error cause => exact ⟨⟨.refl m, h⟩, Failure.isOrdinary_atLine _ (Cause.isAddress_of_isOfStore (isOfStore_member hfound))⟩
    | ok found =>
      obtain ⟨entry, m'⟩ := found
      have hsame : m.SameShape m' ∧ m'.Holds P := by
        rcases member_cases hfound with rfl | rfl
        · exact ⟨.refl _, h⟩
        · exact ⟨⟨⟨rfl, rfl, rfl, rfl, rfl⟩, rfl, rfl, rfl⟩, h.frames, h.arrays, h.objects⟩
      dsimp only
      split
      · exact ⟨⟨hsame.1.trans (sameShape_withField ..), hsame.2.withField ref entry.index hvalue⟩, trivial⟩
      · exact ⟨hsame, Failure.isOrdinary_atLine _ rfl⟩
  | _ => exact ⟨⟨.refl m, h⟩, Failure.isOrdinary_atLine _ rfl⟩

/-! ## Natives -/

theorem steps_callNative (hflat : ∀ v : Value, v.isFlat → P v)
    (harguments : ∀ v ∈ arguments, P v) (harray : P (.array m.arrays.size)) (native : Native) (env : Env) (line : Int) :
    m.Steps P P (fun e => e.IsOrdinary ∨ ∃ failure, native.action = .host (.fail failure) ∧ e = failure.withLine line)
      (Run.callNative native env line arguments m) := by
  have hstreams : ∀ s : Machine, m.SameShape (m.withStreamsOf s) ∧ (m.withStreamsOf s).Holds P :=
    fun _ => ⟨⟨⟨rfl, rfl, rfl, rfl, rfl⟩, rfl, rfl, rfl⟩, h.frames, h.arrays, h.objects⟩
  have hends := Run.ends_callNative native env line arguments m
  generalize Run.callNative native env line arguments m = x at hends ⊢
  cases hends with
  | flat s hvalue => exact ⟨hstreams s, hflat _ hvalue⟩
  | @found name =>
    refine ⟨⟨.refl m, h⟩, ?_⟩
    cases hget : m.frames.get? name env with
    | none => exact hflat .null rfl
    | some value => exact h.frames.get? hget
  | collected => exact steps_newArray h (by simpa using harguments) harray
  | fault hcause => exact ⟨⟨.refl m, h⟩, .inl (Failure.isOrdinary_atLine line (Cause.isAddress_of_isOfStore hcause))⟩
  | closed writer => exact ⟨⟨.refl m, h⟩, .inl (.inr ⟨_, _, rfl⟩)⟩
  | broken source => exact ⟨hstreams { m with input := { m.input with source } }, .inl (.inr ⟨_, _, rfl⟩)⟩
  | host haction => exact ⟨⟨.refl m, h⟩, .inr ⟨_, haction, rfl⟩⟩

end

end Machine

end StoneLang
