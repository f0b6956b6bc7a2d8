/-
  Two computations side by side.

  Many statements about running programs compare two runs that move in step: a run that addresses its
  variables by slot and one that looks them up by name, a run that is watched and one that is not, a
  run and itself.  What is known about the pair grows while it runs, so a `Coupling` relates two states
  at a *world*: the world holds what has been learnt, later worlds know more.

  `Coupling.Sim w post x y` says that from states related at `w` the computations `x` and `y` end in
  the same way.  Both give results that `post` relates at a later world, or both fail with the same
  failure, one of those that the coupling admits.  The rules below are all that is used of it; the
  crux is `Sim.bind`, which hands the later world to the second half.
-/
import Mathlib.Order.Defs.PartialOrder
import StoneLang.Proofs.Result

namespace StoneLang

/-- How two kinds of state are compared while two computations run in step. -/
structure Coupling (σ τ : Type) where
  /-- What is known about the two states. -/
  World : Type
  /-- The second world knows at least as much as the first. -/
  le : World → World → Prop
  refl : ∀ w, le w w
  trans : ∀ {u v w}, le u v → le v w → le u w
  /-- The states agree as far as the world says. -/
  related : World → σ → τ → Prop
  /-- The failures that the two computations may share. -/
  admits : Failure → Prop

namespace Coupling

variable {σ τ α β γ δ : Type} (C : Coupling σ τ)

instance : Preorder C.World where
  le := C.le
  le_refl := C.refl
  le_trans _ _ _ := C.trans

/-- Two outcomes agree: both are results that `post` relates, or both are the same failure. -/
inductive Outcome (w : C.World) (post : C.World → α → β → Prop) :
    EStateM.Result Failure σ α → EStateM.Result Failure τ β → Prop where
  | ok {a : α} {b : β} {s : σ} {t : τ} (w' : C.World) (later : C.le w w')
      (related : C.related w' s t) (holds : post w' a b) : Outcome w post (.ok a s) (.ok b t)
  | error {e : Failure} {s : σ} {t : τ} (w' : C.World) (later : C.le w w')
      (related : C.related w' s t) (admitted : C.admits e) : Outcome w post (.error e s) (.error e t)

/-- From states that are related at `w`, the two computations end in agreement. -/
def Sim (w : C.World) (post : C.World → α → β → Prop) (x : EStateM Failure σ α)
    (y : EStateM Failure τ β) : Prop :=
  ∀ s t, C.related w s t → C.Outcome w post (x s) (y t)

variable {C} {w : C.World}

theorem Outcome.earlier (h : C.le w u) (hxy : C.Outcome u post x y) : C.Outcome w post x y := by
  cases hxy with
  | ok w' later related holds => exact .ok w' (C.trans h later) related holds
  | error w' later related admitted => exact .error w' (C.trans h later) related admitted

namespace Sim

variable {post : C.World → α → β → Prop} {x : EStateM Failure σ α} {y : EStateM Failure τ β}

theorem pure (h : post w a b) : C.Sim w post (Pure.pure a) (Pure.pure b) :=
  fun _ _ hst => .ok w (C.refl w) hst h

theorem throw (h : C.admits e) : C.Sim w post (MonadExcept.throw e) (MonadExcept.throw e) :=
  fun _ _ hst => .error w (C.refl w) hst h

/-- Two computations in sequence: the second ones start in the world that the first ones reach. -/
theorem bind {mid : C.World → α → β → Prop} {post : C.World → γ → δ → Prop} {f : α → EStateM Failure σ γ}
    {g : β → EStateM Failure τ δ} (hxy : C.Sim w mid x y)
    (hfg : ∀ w' a b, C.le w w' → mid w' a b → C.Sim w' post (f a) (g b)) :
    C.Sim w post (x >>= f) (y >>= g) := by
  intro s t hst
  have h := hxy s t hst
  rw [bind_apply, bind_apply]
  generalize x s = rx at h
  generalize y t = ry at h
  cases h with
  | ok w' later related holds =>
    exact (hfg w' _ _ later holds _ _ related).earlier later
  | error w' later related admitted => exact .error w' later related admitted

theorem weaken (h : C.Sim w strong x y)
    (himp : ∀ w' a b, C.le w w' → strong w' a b → weak w' a b) : C.Sim w weak x y := by
  intro s t hst
  have hxy := h s t hst
  generalize x s = rx at hxy
  generalize y t = ry at hxy
  cases hxy with
  | ok w' later related holds => exact .ok w' later related (himp w' _ _ later holds)
  | error w' later related admitted => exact .error w' later related admitted

end Sim

/-- The two results are one and the same, and `P` holds of it. -/
def Same (P : C.World → α → Prop) : C.World → α → α → Prop := fun w a b => a = b ∧ P w a

namespace Sim

theorem bindSame {P : C.World → α → Prop} {post : C.World → γ → δ → Prop}
    {x : EStateM Failure σ α} {y : EStateM Failure τ α} {f : α → EStateM Failure σ γ}
    {g : α → EStateM Failure τ δ} (hxy : C.Sim w (Same P) x y)
    (hfg : ∀ w' a, C.le w w' → P w' a → C.Sim w' post (f a) (g a)) :
    C.Sim w post (x >>= f) (y >>= g) := by
  refine hxy.bind ?_
  rintro w' a b hle ⟨rfl, ha⟩
  exact hfg w' a hle ha

theorem imp {P Q : C.World → α → Prop} (h : C.Sim w (Same P) x y) (himp : ∀ w' a, C.le w w' → P w' a → Q w' a) :
    C.Sim w (Same Q) x y :=
  h.weaken fun w' a _ hle hsame => ⟨hsame.1, himp w' a hle hsame.2⟩

theorem pureSame (h : P w a) : C.Sim w (Same P) (Pure.pure a) (Pure.pure a) :=
  pure ⟨rfl, h⟩

end Sim

/-! ## Invariants

  What one computation keeps, and what it can fail with, is the special case of a state coupled with
  itself. -/

/-- The state satisfies `I`, and the result `Q` or the failure `E`. -/
def Ended (I : σ → Prop) (Q : α → Prop) (E : Failure → Prop) : EStateM.Result Failure σ α → Prop
  | .ok a s => I s ∧ Q a
  | .error e s => I s ∧ E e

/-- The computation keeps `I`; its results satisfy `Q` and its failures `E`. -/
def Ends (I : σ → Prop) (Q : α → Prop) (E : Failure → Prop) (x : EStateM Failure σ α) : Prop :=
  ∀ s, I s → Ended I Q E (x s)

/-- The computation keeps `I`, and its results satisfy `Q`. -/
def Keeps (I : σ → Prop) (Q : α → Prop) (x : EStateM Failure σ α) : Prop :=
  ∀ s, I s → match x s with
    | .ok a s' => I s' ∧ Q a
    | .error _ s' => I s'

/-- A state coupled with itself under an invariant, failing in the ways `E` only. -/
def diagonal (I : σ → Prop) (E : Failure → Prop) : Coupling σ σ where
  World := Unit
  le _ _ := True
  refl _ := trivial
  trans _ _ := trivial
  related _ s t := s = t ∧ I s
  admits := E

section
variable {I : σ → Prop} {P Q : α → Prop} {R : β → Prop} {E : Failure → Prop} {x : EStateM Failure σ α}
  {f : α → EStateM Failure σ β}

theorem Ends.sim (h : Ends I Q E x) (w : (diagonal I E).World) :
    (diagonal I E).Sim w (Same fun _ => Q) x x := by
  rintro s _ ⟨rfl, hs⟩
  have hx := h s hs
  generalize x s = res at hx ⊢
  cases res with
  | ok a s' => exact .ok () trivial ⟨rfl, hx.1⟩ ⟨rfl, hx.2⟩
  | error e s' => exact .error () trivial ⟨rfl, hx.1⟩ hx.2

theorem Sim.ends {w : (diagonal I E).World} (h : (diagonal I E).Sim w (Same fun _ => Q) x x) :
    Ends I Q E x := by
  intro s hs
  have hx := h s s ⟨rfl, hs⟩
  generalize x s = result at hx
  cases hx with
  | ok w' later related holds => exact ⟨related.2, holds.2⟩
  | error w' later related admitted => exact ⟨related.2, admitted⟩

theorem Ends.bind (hx : Ends I P E x) (hf : ∀ a, P a → Ends I R E (f a)) : Ends I R E (x >>= f) :=
  ((hx.sim ()).bindSame fun w a _ ha => (hf a ha).sim w).ends

theorem Ended.imp {I' : σ → Prop} {E' : Failure → Prop} {r : EStateM.Result Failure σ α} (hr : Ended I P E r)
    (hI : ∀ s, I s → I' s) (hQ : ∀ a, P a → Q a) (hE : ∀ e, E e → E' e) : Ended I' Q E' r := by
  cases r with
  | ok a s => exact ⟨hI s hr.1, hQ a hr.2⟩
  | error e s => exact ⟨hI s hr.1, hE e hr.2⟩

theorem Ended.state {r : EStateM.Result Failure σ α} (hr : Ended I Q E r) : I (finalState r) := by
  cases r with
  | ok a s | error e s => exact hr.1

theorem Ended.onState {τ : Type} {f : σ → τ} {J : τ → Prop} {r : EStateM.Result Failure σ α}
    (hr : Ended (fun s => J (f s)) Q E r) : Ended J Q E (onState f r) := by
  cases r with
  | ok a s | error e s => exact hr

theorem Ends.imp (hx : Ends I P E x) (h : ∀ a, P a → Q a) : Ends I Q E x :=
  fun s hs => (hx s hs).imp (fun _ => id) h fun _ => id

theorem keeps_iff_ends : Keeps I Q x ↔ Ends I Q (fun _ => True) x := by
  refine forall_congr' fun s => imp_congr_right fun _ => ?_
  cases x s with
  | ok a s' => rfl
  | error e s' => exact (and_iff_left trivial).symm

theorem Keeps.bind (hx : Keeps I P x) (hf : ∀ a, P a → Keeps I R (f a)) : Keeps I R (x >>= f) :=
  keeps_iff_ends.mpr ((keeps_iff_ends.mp hx).bind fun a ha => keeps_iff_ends.mp (hf a ha))

end

end Coupling

end StoneLang
