/-
  Taking results apart.

  The passes are written in one monad, state with failure.  A sequence that succeeds is two successes, and
  these lemmas read them off; so a proof about a pass opens it one step at a time.
-/
import StoneLang.Diagnostic

namespace StoneLang

variable {ε σ α β : Type}

/-- The state that a computation ends in, whether it succeeds or fails. -/
def finalState : EStateM.Result ε σ α → σ
  | .ok _ s | .error _ s => s

/-- The failure, if the outcome is one. -/
def failure? : Except ε α → Option ε
  | .ok _ => none
  | .error e => some e

variable {e : ε} {x : EStateM ε σ α} {f : α → EStateM ε σ β} {s s' : σ} {a : α}

theorem eq_error_of_failure? {x : Except ε α} (h : failure? x = some e) : x = .error e := by
  cases x with
  | ok a => cases h
  | error e' =>
    cases h
    rfl

/-- The result with its state replaced. -/
def onState {τ : Type} (f : σ → τ) : EStateM.Result ε σ α → EStateM.Result ε τ α
  | .ok a s => .ok a (f s)
  | .error e s => .error e (f s)

theorem finalState_onState (f : σ → τ) (x : EStateM.Result ε σ α) : finalState (onState f x) = f (finalState x) := by
  cases x <;> rfl

theorem onState_eq_ok {x : EStateM.Result ε σ α} : onState g x = .ok a t ↔ ∃ s, x = .ok a s ∧ g s = t := by
  cases x <;> simp [onState, and_assoc]

theorem onState_eq_error {x : EStateM.Result ε σ α} : onState g x = .error e t ↔ ∃ s, x = .error e s ∧ g s = t := by
  cases x <;> simp [onState, and_assoc]

theorem bind_apply : (x >>= f) s = match x s with
    | .ok a t => f a t
    | .error e t => .error e t := by
  show EStateM.bind x f s = _
  unfold EStateM.bind
  cases x s <;> rfl

theorem bind_eq_ok : (x >>= f) s = .ok b s' ↔ ∃ a t, x s = .ok a t ∧ f a t = .ok b s' := by
  rw [bind_apply]
  cases x s with
  | ok a t =>
    constructor
    · exact fun h => ⟨a, t, rfl, h⟩
    · rintro ⟨a', t', hx, h⟩
      cases hx
      exact h
  | error e t => simp

/-- A sequence fails exactly if its first half does, or the second half after a success of the first. -/
theorem bind_eq_error : (x >>= f) s = .error e s' ↔ x s = .error e s' ∨ ∃ a t, x s = .ok a t ∧ f a t = .error e s' := by
  rw [bind_apply]
  cases x s with
  | ok a t =>
    constructor
    · exact fun h => .inr ⟨a, t, rfl, h⟩
    · rintro (hx | ⟨a', t', hx, h⟩)
      · cases hx
      · cases hx
        exact h
  | error e' t => simp

theorem bind_of_ok (h : x s = .ok a t) : (x >>= f) s = f a t := by
  rw [bind_apply, h]

theorem bind_of_error (h : x s = .error e t) : (x >>= f) s = .error e t := by
  rw [bind_apply, h]

/-- What the first half of a sequence ends with, and the second half keeps, is so at the end of the sequence. -/
theorem finalState_bind {P : σ → Prop} (hx : P (finalState (x s)))
    (hf : ∀ a t, x s = .ok a t → P t → P (finalState (f a t))) : P (finalState ((x >>= f) s)) := by
  rw [bind_apply]
  generalize x s = res at hx hf ⊢
  cases res with
  | ok a t => exact hf a t rfl hx
  | error e t => exact hx

theorem pure_eq_ok : (pure a : EStateM ε σ α) s = .ok b s' ↔ a = b ∧ s = s' := by
  simp [pure, EStateM.pure]

theorem throw_ne_ok : (throw e : EStateM ε σ α) s ≠ .ok a s' := by
  show (EStateM.Result.error e s : EStateM.Result ε σ α) ≠ .ok a s'
  simp

theorem modifyGet_eq_ok {f : σ → α × σ} : (modifyGet f : EStateM ε σ α) s = .ok a s' ↔ (f s).1 = a ∧ (f s).2 = s' := by
  show (EStateM.Result.ok (f s).1 (f s).2 : EStateM.Result ε σ α) = .ok a s' ↔ _
  simp

theorem modify_eq_ok {f : σ → σ} : (modify f : EStateM ε σ PUnit) s = .ok u s' ↔ f s = s' := by
  show (EStateM.Result.ok ⟨⟩ (f s) : EStateM.Result ε σ PUnit) = .ok u s' ↔ _
  simp

theorem get_bind_apply {f : σ → EStateM ε σ β} : ((get : EStateM ε σ σ) >>= f) s = f s s := rfl

theorem modify_bind_apply {f : σ → σ} {g : PUnit → EStateM ε σ β} :
    ((modify f : EStateM ε σ PUnit) >>= g) s = g ⟨⟩ (f s) := rfl

theorem except_bind_eq_ok {x : Except ε α} {f : α → Except ε β} {b : β} :
    (x >>= f) = .ok b ↔ ∃ a, x = .ok a ∧ f a = .ok b := by
  cases x <;> simp [bind, Except.bind]

end StoneLang
