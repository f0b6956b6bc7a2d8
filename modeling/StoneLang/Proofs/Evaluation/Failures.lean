/-
  What evaluation can fail with.

  A program fails by its own doing with a cause, and every such cause has a class that is not the one of
  faults in reading (`Cause.isOfRun`).  Everything else comes from around the program: an output that is
  closed, an input that breaks, a native of the host that fails as it was made to.  Two failures are left
  that have no class: a call whose arguments have no room in its frame, and a loop that is cut short.

  `Surroundings.Fails` is this list.  Here is what single accesses and the placing of names fail with; that the list is
  complete is shown of whole runs (`Surroundings.ends_execute`).
-/
import StoneLang.Proofs.Evaluation.Actions
import StoneLang.Proofs.Evaluation.Coupling
import StoneLang.Proofs.Evaluation.Natives
import StoneLang.Proofs.Scope.Walk
import StoneLang.Session

namespace StoneLang

/-- A cause that a running program can meet by its own doing. -/
def Cause.isOfRun (cause : Cause) : Bool :=
  cause.kind != .unclassified && cause.kind != .syntaxError

theorem Cause.isOfRun_of_isOwn {cause : Cause} (h : cause.isOwn = true) : cause.isOfRun = true := by
  cases cause <;> first | rfl | cases h

theorem Cause.isOfRun_of_isOfStore {cause : Cause} (h : cause.isOfStore = true) : cause.isOfRun = true := by
  cases cause <;> first | rfl | cases h

/-- What a program runs among: the settings, the natives, the room of the output, the end of the input and
the sites that are taken.  None of them changes while it runs. -/
structure Surroundings where
  settings : Settings
  natives : Array Native
  /-- The number of bytes after which the output is closed. -/
  limit : Option Nat
  /-- How reading fails at the end. -/
  broken : Option Text
  /-- The next free site. -/
  nextSite : Site

def Machine.surroundings (m : Machine) : Surroundings :=
  ⟨m.settings, m.natives, m.output.limit, m.input.broken, m.nextSite⟩

namespace Surroundings

/-- What a running program can fail with. -/
inductive Fails (around : Surroundings) : Failure → Prop where
  | cause {cause : Cause} (line : Int) (h : cause.isOfRun = true) : Fails around (.atLine cause line)
  /-- There are more arguments than slots in the frame of a call. -/
  | noRoom (size : Nat) : Fails around (.plain (SlotFault.outside size size).message)
  | closed (writer : Text) (h : around.limit.isSome) :
      Fails around (.label writer (.plain (text "output closed")))
  | broken {reason : Text} (h : around.broken = some reason) :
      Fails around (.label (text "read") (.plain reason))
  | host {native : Native} {failure : Failure} (line : Int) (h : native ∈ around.natives)
      (hfail : native.action = .host (.fail failure)) : Fails around (failure.withLine line)
  | unfinished : Fails around .unfinished

/-- The computation stays in its surroundings, and fails only as a running program can. -/
abbrev Ends {α : Type} (around : Surroundings) (x : Run α) : Prop :=
  Coupling.Ends (fun m : Machine => m.surroundings = around) (fun _ => True) around.Fails x

end Surroundings

theorem Failure.diagnostic?_withLine (failure : Failure) (line : Int) :
    (failure.withLine line).diagnostic? = failure.diagnostic?.map (·.withLine line) := by
  induction failure with
  | labelled shown inner ih => exact ih
  | _ => rfl

theorem Failure.kind_withLine (failure : Failure) (line : Int) : (failure.withLine line).kind = failure.kind := by
  unfold Failure.kind
  rw [Failure.diagnostic?_withLine]
  cases failure.diagnostic? with
  | none => rfl
  | some d =>
    show (d.withLine line).cause.kind = d.cause.kind
    unfold Diagnostic.withLine
    split <;> rfl

/-! ## Causes of single accesses -/

namespace Machine

variable {m : Machine} {cause : Cause}

theorem isOfRun_read (h : m.read site word env = .error cause) : cause.isOfRun = true := by
  unfold read at h
  split at h <;> split at h <;> try split at h
  all_goals cases h <;> rfl

theorem isOfRun_assigned (h : m.assigned site word value env = .error cause) : cause.isOfRun = true := by
  unfold assigned at h
  split at h <;> try split at h <;> try split at h
  all_goals cases h <;> rfl

theorem isOfRun_bound (h : m.bound env slot name value = .error cause) : cause.isOfRun = true := by
  unfold bound at h
  split at h <;> try split at h
  all_goals cases h <;> rfl

theorem isOfRun_superclass (h : m.superclass env parent = .error cause) : cause.isOfRun = true := by
  unfold superclass at h
  split at h <;> try split at h
  all_goals cases h <;> rfl

end Machine

/-! ## Placing names -/

namespace Resolve

open Coupling

/-- The walk fails, if at all, because it is too deep. -/
abbrev Ends {α : Type} (x : Resolve α) : Prop :=
  Coupling.Ends (fun _ : Resolving => True) (fun _ => True)
    (fun e => ∃ pass limit line, e = .atLine (.tooDeep pass limit) line) x

theorem ends_modifyGet (f : Resolving → α × Resolving) : Ends (modifyGet f : Resolve α) :=
  fun _ _ => ⟨trivial, trivial⟩

theorem ends_steps : Paired fun _ x _ => Ends x where
  pure _ := fun _ _ => ⟨trivial, trivial⟩
  bind hx hf := Coupling.Ends.bind hx fun a _ => hf a
  note _ _ _ := ends_modifyGet _
  get? _ := fun _ _ => ⟨trivial, trivial⟩
  put _ := ends_modifyGet _
  place _ _ := ends_modifyGet _
  unplace _ := ends_modifyGet _
  noteSlot _ _ := ends_modifyGet _
  noteSize _ _ := ends_modifyGet _
  function hvisit _ _ body :=
    (ends_modifyGet _).bind fun _ _ => (hvisit (.block body)).bind fun _ _ => ends_modifyGet _

theorem ends_visitWithin (settings : ResolveSettings) (levels : Nat) (node : Node) :
    Ends (visitWithin settings levels node) :=
  ends_steps.visitWithin settings settings 0 (fun _ _ _ => ⟨trivial, _, _, _, rfl⟩) levels node

theorem ends_layOutClass (settings : ResolveSettings) (title : Text) (members : List Node) (base : Layout) :
    Ends (layOutClass settings title members base) :=
  ends_steps.layOutClass settings settings (ends_visitWithin settings settings.maxDepth) (fun _ => ends_modifyGet _)
    (ends_modifyGet _) (fun hf => Ends.bind (P := fun _ => True) (fun _ _ => ⟨trivial, trivial⟩) fun s _ => hf s s rfl)
    title members base

theorem Ends.tooDeep (hx : Ends x) (h : x s = .error e s') : ∃ pass limit line, e = .atLine (.tooDeep pass limit) line := by
  have hended := hx s trivial
  rw [h] at hended
  exact hended.2

end Resolve

end StoneLang
