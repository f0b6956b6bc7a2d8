/-
  The invariant of a machine under observation.

  `Inv aim w m trail` ties a machine, and what is remembered beside it, to a world: every frame is what it was
  made for, every function and every class has code that has been placed, objects have the fields of their
  class, and only good values are held.  `Aim.Admits` says which failures are left, and `Moment.Right` what a
  right address is: the frame that it leads to was made for the table in which the name was placed.

  `coupling` couples an observed state with itself under this invariant, and with it everything that has been
  written down so far.  A step that touches the store alone keeps the invariant in the same world
  (`Inv.stepped`); for one that changes frames there is `Inv.reframed`.
-/
import StoneLang.Proofs.Addresses.World
import StoneLang.Proofs.Evaluation.Steps
import StoneLang.Proofs.Evaluation.StoreLaws

namespace StoneLang

/-! ## Faults -/

/-- A call has no room for its arguments. -/
def Failure.IsRoomFault (e : Failure) : Prop := ∃ size : Nat, e = .plain (SlotFault.outside size size).message

/-- A variable is not where it was addressed: a cause says so, or the frames themselves do. -/
def Failure.IsAddressFault (e : Failure) : Prop :=
  (∃ cause line, cause.isAddress = true ∧ e = .atLine cause line) ∨
    ∃ fault : SlotFault, e = .plain fault.message

/-- A failure that is not what the aim excludes. -/
structure Aim.Admits (aim : Aim) (e : Failure) : Prop where
  room : aim.room = true → ¬ e.IsRoomFault
  receiver : aim.receiver = true → e.IsAddressFault → e.IsRoomFault

namespace Aim

variable {aim : Aim}

theorem admits_atLine (h : aim.receiver = true → cause.isAddress = false) (line : Int) :
    aim.Admits (.atLine cause line) where
  room _ := by
    rintro ⟨size, hplain⟩
    cases hplain
  receiver haim := by
    rintro (⟨other, l, hcause, heq⟩ | ⟨fault, heq⟩)
    · cases heq
      rw [h haim] at hcause
      cases hcause
    · cases heq

theorem admits_of_isOrdinary (h : e.IsOrdinary) : aim.Admits e := by
  rcases h with ⟨cause, line, hcause, rfl⟩ | ⟨shown, inner, rfl⟩
  · exact admits_atLine (fun _ => hcause) line
  · refine ⟨fun _ => ?_, fun _ => ?_⟩
    · rintro ⟨size, hplain⟩
      cases hplain
    · rintro (⟨cause, line, -, heq⟩ | ⟨fault, heq⟩) <;> cases heq

theorem admits_unfinished : aim.Admits .unfinished := by
  refine ⟨fun _ => ?_, fun _ => ?_⟩
  · rintro ⟨size, hplain⟩
    cases hplain
  · rintro (⟨cause, line, -, heq⟩ | ⟨fault, heq⟩) <;> cases heq

theorem admits_noRoom (size : Nat) (h : aim.room = false) :
    aim.Admits (.plain (SlotFault.outside size size).message) :=
  ⟨fun haim => (Bool.noConfusion (h.symm.trans haim)), fun _ _ => ⟨size, rfl⟩⟩

theorem admits_none (e : Failure) : Aim.none.Admits e := ⟨nofun, nofun⟩

theorem admits_all_iff : Aim.all.Admits e ↔ ¬ e.IsAddressFault := by
  constructor
  · exact fun h haddress => h.room rfl (h.receiver rfl haddress)
  · intro h
    refine ⟨fun _ => ?_, fun _ haddress => absurd haddress h⟩
    rintro ⟨size, rfl⟩
    exact h (.inr ⟨_, rfl⟩)

theorem Admits.withLine (h : aim.Admits e) (line : Int) : aim.Admits (e.withLine line) := by
  cases e with
  | diagnostic d =>
    have hcause : (d.withLine line).cause = d.cause := by
      unfold Diagnostic.withLine
      split <;> rfl
    show aim.Admits (.atLine (d.withLine line).cause (d.withLine line).line)
    rw [hcause]
    refine admits_atLine (fun haim => ?_) _
    cases haddress : d.cause.isAddress with
    | false => rfl
    | true =>
      obtain ⟨size, hplain⟩ := h.receiver haim (.inl ⟨d.cause, d.line, haddress, rfl⟩)
      cases hplain
  | labelled shown inner => exact admits_of_isOrdinary (.inr ⟨_, _, rfl⟩)
  | _ => exact h

end Aim

/-! ## Right addresses -/

/-- Where a name leads to that has been placed: a lexical location to the frame that was made for its table,
which has that slot; a member to an object that has the member in this place. -/
def Machine.Leads (m : Machine) (trail : Trail) (site : Site) (word : Word) (env : Env) : Location → Prop
  | .lexical nest index => ∃ f owner, env[nest]? = some f ∧ trail.homes.get? site = some owner ∧
      trail.frames.get? f = some owner ∧ ∀ values, m.frames[f]? = some (.slots values) → index < values.size
  | .field index hops => ∃ object c, m.receiver? env hops = some object ∧ m.classOf? object = some c ∧
      c.layout.fields[index]? = some word.text ∧ (Run.fieldAt? m object index).isSome
  | .method index hops => ∃ object c, m.receiver? env hops = some object ∧ m.classOf? object = some c ∧
      c.layout.methods[index]? = some word.text ∧ (Run.methodAt? m object index).isSome

/-- If the moment is an access to a name that has been placed, its address is right. -/
def Moment.Right (moment : Moment) : Prop :=
  match moment.request with
  | .readName site word env | .assignName site word _ env =>
    ∀ location, moment.machine.notes.places.get? site = some location →
      moment.machine.Leads moment.trail site word env location
  | _ => True

/-- The address is right where that is aimed at, and what has been assigned is found by the reads that are to find it. -/
def Aim.Fair (aim : Aim) (moment : Moment) : Prop :=
  match moment.request with
  | .readName .. => aim.receiver = true → moment.Right
  | .assignName site word value env => (aim.receiver = true → moment.Right) ∧
      ∀ m', moment.machine.assigned site word value env = .ok m' → ∀ other (again : Word), aim.follows site other →
        again.text = word.text → m'.read other again env = .ok value
  | _ => True

theorem Aim.Fair.right {aim : Aim} {moment : Moment} (h : aim.Fair moment) (haim : aim.receiver = true) : moment.Right := by
  obtain ⟨request, m, trail⟩ := moment
  cases request with
  | readName site word env => exact h haim
  | assignName site word value env => exact h.1 haim
  | _ => trivial

namespace Addresses

variable {aim : Aim} {extent : Extent} {w v : World} {m m' : Machine} {trail : Trail}

/-! ## The invariant -/

theorem World.holds_later (hle : w.le extent v) (h : m.Holds (w.Good aim)) : m.Holds (v.Good aim) :=
  h.mono fun _ hv => good_later hle hv

def World.FrameIs (aim : Aim) (w : World) (trail : Trail) (f : Nat) : Role → Frame → Prop
  | .natives, .builtins _ => trail.frames.get? f = some .natives
  | .globals, .globals names values =>
    trail.frames.get? f = some .globals ∧ names = w.names ∧ values = w.values
  | .named, .byName _ => True
  | .table owner size receiver, .slots values => trail.frames.get? f = some owner ∧ values.size = size ∧
      (aim.receiver = true → ∀ object, receiver = some object → values[0]? = some (some (.object object)))
  | _, _ => False

/-- All frames are what they were made for. -/
structure Framed (aim : Aim) (w : World) (frames : Frames) (trail : Trail) : Prop where
  size : frames.size = w.roles.length
  natives : w.roles[Machine.builtinFrame]? = some .natives
  globals : w.roles[Machine.globalFrame]? = some .globals
  only : ∀ f : Nat, w.roles[f]? = some .globals → f = Machine.globalFrame
  each : ∀ (f : Nat) role, w.roles[f]? = some role →
    ∃ frame, frames[f]? = some frame ∧ w.FrameIs aim trail f role frame

/-- The machine is as the world says. -/
structure Inv (aim : Aim) (w : World) (m : Machine) (trail : Trail) : Prop where
  noted : m.notes.siteNote trail.homes = w.noted
  /-- Where names are looked up, nothing is noted before a class body is placed. -/
  fresh : m.settings.placesNames = false → ∀ site : Nat, w.known ≤ site →
    (w.noted site).place = none ∧ (w.noted site).size = none
  framed : Framed aim w m.frames trail
  functions_size : m.functions.size = w.functions.length
  functions : ∀ (ref : Nat) f, m.functions[ref]? = some f → w.Callable aim ref f
  function_sites : ∀ (ref : Nat) site, w.functions[ref]? = some site → trail.functions.get? ref = some site
  classes : m.classes.toList = w.classes.map Prod.snd
  classes_good : ∀ entry ∈ w.classes, w.ClassGood aim entry.1 entry.2
  class_sites : ∀ (ref : Nat) entry, w.classes[ref]? = some entry → trail.classes.get? ref = some entry.1
  objects : m.objects.toList.map Object.classRef = w.objects
  fields : ∀ o ∈ m.objects, ∃ entry, w.classes[o.classRef]? = some entry ∧
    o.fields.size = entry.2.layout.fieldCount
  natives : ∀ n ∈ m.natives, ∀ failure, n.action = .host (.fail failure) → aim.Admits failure
  held : m.Holds (w.Good aim)

/-- What has been written down is as it should be. -/
structure Logged (aim : Aim) (s : Observed) : Prop where
  moments : ∀ moment ∈ s.moments, aim.Fair moment
  evaluations : ∀ e ∈ s.evaluations, e.env ≠ Machine.globalEnv → e.after = e.before
  failures : ∀ e ∈ s.failures, aim.Admits e
  /-- At every moment the machine was as some world says. -/
  known : ∀ moment ∈ s.moments, ∃ w, Inv aim w moment.machine moment.trail

theorem Logged.answered (h : Logged aim s) (hinv : Inv aim w s.machine s.trail)
    (hfair : aim.Fair ⟨request, s.machine, s.trail⟩) (m : Machine) : Logged aim (s.answered request m) where
  moments := List.forall_mem_cons.mpr ⟨hfair, h.moments⟩
  evaluations := h.evaluations
  failures := h.failures
  known := List.forall_mem_cons.mpr ⟨⟨w, hinv⟩, h.known⟩

/-! ## Frames -/

namespace Framed

variable {frames : Frames} {f : Nat}

section
variable (h : Framed aim w frames trail)

include h

theorem table {size : Nat} (hf : w.roles[f]? = some (.table owner size receiver)) :
    ∃ values, frames[f]? = some (.slots values) ∧ trail.frames.get? f = some owner ∧ values.size = size ∧
      (aim.receiver = true → ∀ object, receiver = some object → values[0]? = some (some (.object object))) := by
  obtain ⟨frame, hframe, hrole⟩ := h.each f _ hf
  cases frame with
  | slots values => exact ⟨values, hframe, hrole⟩
  | _ => exact absurd hrole id

theorem named (hf : w.roles[f]? = some .named) : ∃ bindings, frames[f]? = some (.byName bindings) := by
  obtain ⟨frame, hframe, hrole⟩ := h.each f _ hf
  cases frame with
  | byName bindings => exact ⟨bindings, hframe⟩
  | _ => exact absurd hrole id

theorem top :
    frames[Machine.globalFrame]? = some (.globals w.names w.values) ∧
      trail.frames.get? Machine.globalFrame = some .globals := by
  obtain ⟨frame, hframe, hrole⟩ := h.each _ _ h.globals
  cases frame with
  | globals names values =>
    obtain ⟨howner, rfl, rfl⟩ := hrole
    exact ⟨hframe, howner⟩
  | _ => exact absurd hrole id

theorem modify (hf : w.roles[f]? = some role)
    (hchange : ∀ frame, w.FrameIs aim trail f role frame → w.FrameIs aim trail f role (change frame)) :
    Framed aim w (frames.modify f change) trail := by
  refine ⟨Array.size_modify.trans h.size, h.natives, h.globals, h.only, fun g other hg => ?_⟩
  obtain ⟨frame, hframe, hrole⟩ := h.each g other hg
  by_cases hsame : g = f
  · subst hsame
    rw [hf] at hg
    cases hg
    exact ⟨change frame, by rw [Frames.getElem?_modify_self, hframe]; rfl, hchange frame hrole⟩
  · exact ⟨frame, (Frames.getElem?_modify_of_ne frames hsame change).trans hframe, hrole⟩

theorem modify_top (hchange : change (.globals w.names w.values) = .globals names values) :
    Framed aim { w with names, values } (frames.modify Machine.globalFrame change) trail := by
  refine ⟨Array.size_modify.trans h.size, h.natives, h.globals, h.only, fun g role hg => ?_⟩
  by_cases hsame : g = Machine.globalFrame
  · subst hsame
    obtain ⟨hframe, howner⟩ := h.top
    have hrole := h.globals
    rw [hg] at hrole
    cases hrole
    exact ⟨.globals names values, by rw [Frames.getElem?_modify_self, hframe, ← hchange]; rfl, howner, rfl, rfl⟩
  · obtain ⟨frame, hframe, hrole⟩ := h.each g role hg
    refine ⟨frame, (Frames.getElem?_modify_of_ne frames hsame change).trans hframe, ?_⟩
    cases role with
    | globals => exact absurd (h.only g hg) hsame
    | _ => cases frame <;> exact hrole

theorem marked (owner : Owner) : Framed aim w frames { trail with frames := trail.frames.set frames.size owner } := by
  refine ⟨h.size, h.natives, h.globals, h.only, fun g role hg => ?_⟩
  obtain ⟨frame, hframe, hrole⟩ := h.each g role hg
  have hlt : g < frames.size := (Array.getElem?_eq_some_iff.mp hframe).1
  have howner : (trail.frames.set frames.size owner).get? g = trail.frames.get? g := by
    rw [SiteMap.get?_set, if_neg (by omega)]
  refine ⟨frame, hframe, ?_⟩
  cases role with
  | named => cases frame <;> exact hrole
  | _ =>
    cases frame <;> first
      | exact absurd hrole id
      | (simp only [World.FrameIs, howner]; exact hrole)

theorem push (hrole : role ≠ .globals) (hframe : w.FrameIs aim trail frames.size role frame) :
    Framed aim { w with roles := w.roles ++ [role] } (frames.push frame) trail := by
  have hprefix : w.roles <+: w.roles ++ [role] := List.prefix_append ..
  have hcases : ∀ (g : Nat) other, (w.roles ++ [role])[g]? = some other →
      (g = frames.size ∧ other = role) ∨ (g < frames.size ∧ w.roles[g]? = some other) := by
    intro g other hg
    rw [h.size]
    rw [List.getElem?_append] at hg
    split at hg
    · rename_i hlt
      exact .inr ⟨hlt, hg⟩
    · rename_i hge
      obtain ⟨hlt, hother⟩ := List.getElem?_eq_some_iff.mp hg
      simp only [List.length_cons, List.length_nil] at hlt
      exact .inl ⟨by omega, by simpa using hother.symm⟩
  refine ⟨by simp [h.size], getElem?_of_isPrefix hprefix h.natives, getElem?_of_isPrefix hprefix h.globals,
    fun g hg => ?_, fun g other hg => ?_⟩
  · rcases hcases g _ hg with ⟨-, heq⟩ | ⟨-, hold⟩
    · exact absurd heq.symm hrole
    · exact h.only g hold
  · rcases hcases g other hg with ⟨rfl, rfl⟩ | ⟨hlt, hold⟩
    · refine ⟨frame, by simp, ?_⟩
      cases other <;> cases frame <;> exact hframe
    · obtain ⟨old, hold, his⟩ := h.each g other hold
      refine ⟨old, by rw [Frames.getElem?_push_of_lt frames hlt]; exact hold, ?_⟩
      cases other <;> cases old <;> exact his

end

end Framed

namespace Inv

section
variable (h : Inv aim w m trail)

include h

theorem place (site : Site) : m.notes.places.get? site = (w.noted site).place := by
  rw [← h.noted]
  rfl

theorem home (site : Site) : trail.homes.get? site = (w.noted site).home := by
  rw [← h.noted]
  rfl

theorem noted_size (site : Site) : m.notes.sizes.get? site = (w.noted site).size := by
  rw [← h.noted]
  rfl

theorem class? (ref : Nat) : m.classes[ref]? = (w.classes[ref]?).map Prod.snd := by
  rw [← Array.getElem?_toList, h.classes, List.getElem?_map]

theorem object? (object : Nat) : (m.objects[object]?).map Object.classRef = w.objects[object]? := by
  rw [← h.objects, List.getElem?_map, Array.getElem?_toList]

end

variable {object ref index : Nat} {entry : Site × Class}

section
variable (h : Inv aim w m trail)

include h

theorem classOf? (hobject : w.objects[object]? = some ref) (hclass : w.classes[ref]? = some entry) :
    m.classOf? object = some entry.2 := by
  rw [← h.object? object] at hobject
  obtain ⟨o, ho, rfl⟩ := Option.map_eq_some_iff.mp hobject
  unfold Machine.classOf?
  rw [ho, Option.bind_some, h.class?, hclass]
  rfl

theorem fieldAt? (hobject : w.objects[object]? = some ref) (hclass : w.classes[ref]? = some entry)
    (hindex : index < entry.2.layout.fields.length) :
    (Run.fieldAt? m object index).isSome := by
  rw [← h.object? object] at hobject
  obtain ⟨o, ho, rfl⟩ := Option.map_eq_some_iff.mp hobject
  obtain ⟨other, hother, hsize⟩ := h.fields o (Array.mem_of_getElem? ho)
  rw [hclass] at hother
  cases hother
  have hlt : index < o.fields.size := by
    rw [hsize]
    exact hindex
  simp [Run.fieldAt?, ho, hlt]

theorem methodAt? (hobject : w.objects[object]? = some ref) (hclass : w.classes[ref]? = some entry)
    (hindex : index < entry.2.layout.methods.length) :
    (Run.methodAt? m object index).isSome := by
  have hfull := (h.classes_good entry (List.mem_of_getElem? hclass)).full
  unfold Run.methodAt?
  rw [h.classOf? hobject hclass]
  have hlt : index < entry.2.layout.definitions.length := by
    rw [hfull]
    exact hindex
  simp [hlt]

theorem method_good (hd : Run.methodAt? m object index = some d) : w.Good aim (.method object d) := by
  obtain ⟨c, hc, hd⟩ := Option.bind_eq_some_iff.mp hd
  obtain ⟨o, ho, hc⟩ := Option.bind_eq_some_iff.mp hc
  rw [h.class?] at hc
  obtain ⟨entry, hentry, rfl⟩ := Option.map_eq_some_iff.mp hc
  refine ⟨o.classRef, entry, ?_, hentry, ?_⟩
  · rw [← h.object? object, ho]
    rfl
  · exact (h.classes_good entry (List.mem_of_getElem? hentry)).methods d (List.mem_of_getElem? hd)

theorem globalFrame : m.frames[Machine.globalFrame]? = some (.globals w.names w.values) :=
  h.framed.top.1

theorem globalNames : m.globalNames = w.names := by
  unfold Machine.globalNames
  rw [h.globalFrame]

/-! ## Steps -/

theorem stepped (hsame : m.SameShape m') (hheld : m'.Holds (w.Good aim)) : Inv aim w m' trail := by
  have hobjects : ∀ {α : Type} (f : Nat × Nat → α), m'.objects.toList.map (f ∘ Object.shape)
      = m.objects.toList.map (f ∘ Object.shape) := by
    intro α f
    have hshapes := congrArg (fun shapes => shapes.toList.map f) hsame.objects
    simpa using hshapes
  refine { h with
    noted := ?_
    fresh := hsame.settings ▸ h.fresh
    framed := hsame.frames ▸ h.framed
    functions_size := hsame.functions ▸ h.functions_size
    functions := hsame.functions ▸ h.functions
    classes := hsame.classes ▸ h.classes
    objects := (hobjects Prod.fst).trans h.objects
    fields := fun o ho => ?_
    natives := hsame.natives ▸ h.natives
    held := hheld }
  · rw [← h.noted]
    unfold Notes.siteNote
    rw [hsame.places, hsame.sizes]
  · have hmem : o.shape ∈ m.objects.toList.map Object.shape := by
      rw [← Function.id_comp Object.shape, ← hobjects id]
      exact List.mem_map_of_mem (Array.mem_toList_iff.mpr ho)
    obtain ⟨old, hold, hshape⟩ := List.mem_map.mp hmem
    obtain ⟨entry, hentry, hsize⟩ := h.fields old (Array.mem_toList_iff.mp hold)
    obtain ⟨href, hfields⟩ := Prod.mk.inj hshape
    exact ⟨entry, href ▸ hentry, hfields ▸ hsize⟩

end

end Inv

variable {names : List Text} {values : Array (Option Value)}

theorem World.le_reframed {roles : List Role} (hnames : w.names <+: names) (hroles : w.roles <+: roles)
    (htop : extent = .within → names = w.names ∧ values = w.values) :
    w.le extent { w with names, values, roles } :=
  ⟨Nat.le_refl _, fun _ _ => rfl, hnames, hroles, List.prefix_rfl, List.prefix_rfl, List.prefix_rfl,
    fun _ => rfl, htop⟩

section
variable (h : Inv aim w m trail)

include h

theorem Inv.reframed (hle : w.le extent { w with names, values, roles })
    (hframed : Framed aim { w with names, values, roles } frames { trail with frames := owners })
    (hheld : frames.Hold (w.Good aim)) :
    Inv aim { w with names, values, roles } { m with frames } { trail with frames := owners } :=
  { h with
    framed := hframed
    functions := fun ref f hf => World.callable_later hle (h.functions ref f hf)
    classes_good := fun entry hentry => World.classGood_later hle (h.classes_good entry hentry)
    held := World.holds_later hle (h.held.withFrames hheld) }

theorem Inv.rewritten (hframed : Framed aim w frames trail) (hheld : frames.Hold (w.Good aim)) :
    Inv aim w { m with frames } trail :=
  h.reframed (World.le.refl w : w.le .top w) hframed hheld

theorem Inv.marked (owner : Owner) : Inv aim w m (trail.enter m owner) :=
  h.reframed (World.le.refl w : w.le .top w) (h.framed.marked owner) h.held.frames

theorem Inv.push (hframe : w.FrameIs aim trail m.frames.size role frame)
    (hheld : frame.Holds (w.Good aim)) (hrole : role ≠ .globals) :
    ∃ v, w.le extent v ∧ Inv aim v { m with frames := m.frames.push frame } trail ∧
      v.roles[m.frames.size]? = some role := by
  have hle : ∀ extent, w.le extent { w with roles := w.roles ++ [role] } := fun _ =>
    World.le_reframed List.prefix_rfl (List.prefix_append ..) fun _ => ⟨rfl, rfl⟩
  refine ⟨_, hle extent, h.reframed (hle .top) (h.framed.push hrole hframe) (h.held.frames.push hheld), ?_⟩
  rw [h.framed.size]
  simp

theorem Inv.modified_top (htop : extent ≠ .within)
    (hchange : change (.globals w.names w.values) = .globals names values) (hnames : w.names <+: names)
    (hheld : Frames.Hold (w.Good aim) (m.frames.modify Machine.globalFrame change)) :
    w.le extent { w with names, values } ∧
      Inv aim { w with names, values } { m with frames := m.frames.modify Machine.globalFrame change } trail :=
  have hle : w.le extent { w with names, values } :=
    World.le_reframed hnames List.prefix_rfl fun hwithin => absurd hwithin htop
  ⟨hle, h.reframed hle (h.framed.modify_top hchange) hheld⟩

end

/-! ## The coupling -/

open Coupling

def coupling (aim : Aim) (extent : Extent) : Coupling Observed Observed where
  World := World
  le := World.le extent
  refl := .refl
  trans := .trans
  related w s t := s = t ∧ Inv aim w s.machine s.trail ∧ Logged aim s
  admits := aim.Admits

/-- The invariant holds in a later world, and the result satisfies `P` there. -/
def Ended (aim : Aim) (extent : Extent) (w : World) (trail : Trail) {α : Type} (P : World → α → Prop) :
    EStateM.Result Failure Machine α → Prop
  | .ok a m => ∃ v, w.le extent v ∧ Inv aim v m trail ∧ P v a
  | .error e m => (∃ v, w.le extent v ∧ Inv aim v m trail) ∧ aim.Admits e

/-- What is to be shown of a request: its address is right, and it ends as it should. -/
theorem sim_asking (request : Request) (x : Run α)
    (h : ∀ m trail, Inv aim w m trail → aim.Fair ⟨request, m, trail⟩ ∧
      Ended aim extent w (trail.after m request) P (x m)) :
    (coupling aim extent).Sim w (Same P) (Observed.asking request x) (Observed.asking request x) := by
  rintro s _ ⟨rfl, hinv, hlogged⟩
  obtain ⟨hfair, hended⟩ := h s.machine s.trail hinv
  have hlogged' := hlogged.answered hinv hfair
  unfold Observed.asking
  generalize x s.machine = res at hended ⊢
  cases res with
  | ok a m =>
    obtain ⟨v, hle, hinv', ha⟩ := hended
    exact .ok v hle ⟨rfl, hinv', hlogged' m⟩ ⟨rfl, ha⟩
  | error e m =>
    obtain ⟨⟨v, hle, hinv'⟩, he⟩ := hended
    exact .error v hle ⟨rfl, hinv', hlogged' m⟩ he

theorem sim_stepping (request : Request) (x : Run α) (hfair : ∀ m trail, aim.Fair ⟨request, m, trail⟩)
    (htrail : ∀ (m : Machine) (trail : Trail), trail.after m request = trail)
    (h : ∀ m trail, Inv aim w m trail → m.Steps (w.Good aim) (P w) aim.Admits (x m)) :
    (coupling aim extent).Sim w (Same P) (Observed.asking request x) (Observed.asking request x) := by
  refine sim_asking request x fun m trail hinv => ⟨hfair m trail, ?_⟩
  rw [htrail]
  have hsteps := h m trail hinv
  generalize x m = res at hsteps ⊢
  cases res with
  | ok a m' => exact ⟨w, .refl w, hinv.stepped hsteps.1.1 hsteps.1.2, hsteps.2⟩
  | error e m' => exact ⟨⟨w, .refl w, hinv.stepped hsteps.1.1 hsteps.1.2⟩, hsteps.2⟩

end Addresses

end StoneLang
