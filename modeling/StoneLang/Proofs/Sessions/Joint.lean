/-
  Sessions in step.

  PROGRAM: a session, and a second one on another kind of state, which executes units in its own way.

  SPEC: if the two execute every unit alike, they answer a line and a source alike, and their states stay related
  (`Joint.evalLine`, `Joint.run`).

  `Joint` is what is to be shown of one unit.  The relation between the states is told which sites are taken, so that
  it can say of a unit that has just been read that its sites are new.
-/
import StoneLang.Proofs.Evaluation.Accesses
import StoneLang.Proofs.Sessions.Carriers

namespace StoneLang

/-- The two computations have ended alike, in states that `rel` relates, and have failed in the ways `E` only. -/
inductive Alike {σ τ α : Type} (rel : σ → τ → Prop) (E : σ → Failure → Prop) :
    EStateM.Result Failure σ α → EStateM.Result Failure τ α → Prop where
  | ok {a : α} {s : σ} {t : τ} (related : rel s t) : Alike rel E (.ok a s) (.ok a t)
  | error {e : Failure} {s : σ} {t : τ} (related : rel s t) (fails : E s e) : Alike rel E (.error e s) (.error e t)

namespace Alike

variable {σ τ α β : Type} {rel rel' : σ → τ → Prop} {E E' : σ → Failure → Prop}

theorem bind {x : EStateM Failure σ α} {y : EStateM Failure τ α} {s : σ} {t : τ} (h : Alike rel E (x s) (y t))
    {f : α → EStateM Failure σ β} {g : α → EStateM Failure τ β} (hrel : ∀ s t, rel s t → rel' s t)
    (hE : ∀ s e, E s e → E' s e)
    (hf : ∀ a s' t', x s = .ok a s' → rel s' t' → Alike rel' E' (f a s') (g a t')) :
    Alike rel' E' ((x >>= f) s) ((y >>= g) t) := by
  rw [bind_apply, bind_apply]
  generalize x s = left at h hf
  generalize y t = right at h
  cases h with
  | ok related => exact hf _ _ _ rfl related
  | error related fails => exact .error (hrel _ _ related) (hE _ _ fails)

theorem imp (h : Alike rel E x y)
    (hrel : ∀ s t, rel s t → rel' s t) (hE : ∀ s e, E s e → E' s e) : Alike rel' E' x y := by
  cases h with
  | ok related => exact .ok (hrel _ _ related)
  | error related fails => exact .error (hrel _ _ related) (hE _ _ fails)

theorem of_onState (h : rel (finalState x) (f (finalState x))) : Alike rel (fun _ _ => True) x (onState f x) := by
  cases x with
  | ok a s => exact .ok h
  | error e s => exact .error h trivial

theorem labelled (name : Text) (h : Alike rel E (x s) (y t)) :
    Alike rel (fun s e => ∃ inner : Failure, e = inner.label name ∧ E s inner) (Carrier.labelled name x s)
      (Carrier.labelled name y t) := by
  unfold Carrier.labelled
  generalize x s = left at h
  generalize y t = right at h
  cases h with
  | ok related => exact .ok related
  | error related fails => exact .error related ⟨_, rfl, fails⟩

end Alike

/-- What is to be shown of one unit: the two execute it alike, keep `J` with the sites that are taken by then, and fail in
the ways `E` only. -/
structure Joint {σ τ : Type} (K : Carrier σ) (L : Carrier τ) (execute : Node → EStateM Failure σ Value)
    (follow : Node → EStateM Failure τ Value) (J : Nat → σ → τ → Prop) (E : σ → Failure → Prop) : Prop where
  settings : ∀ {k s t}, J k s t → Run.parseSettings (L.machine t) = Run.parseSettings (K.machine s)
  nextSite : ∀ {k s t}, J k s t → (L.machine t).nextSite = (K.machine s).nextSite
  read : ∀ {k s t} (r : Reading), J k s t → J k (K.afterReading s r) (L.afterReading t r)
  note : ∀ {k s t} (record : Record), J k s t → J k (K.noting s record) (L.noting t record)
  widen : ∀ {k l s t}, k ≤ l → J k s t → J l s t
  execute : ∀ {k l s t} {unit : Node}, J k s t → unit.IsUnit → k ≤ l → Ascending k l unit.sites →
    Alike (fun s' t' => J l s' t' ∧ (K.machine s').nextSite = (K.machine s).nextSite) E (execute unit s) (follow unit t)

namespace Joint

open Carrier

variable {σ τ : Type} {K : Carrier σ} {L : Carrier τ} {execute : Node → EStateM Failure σ Value}
  {follow : Node → EStateM Failure τ Value} {J : Nat → σ → τ → Prop} {E : σ → Failure → Prop} {s : σ} {t : τ}
  (P : Joint K L execute follow J E)

include P

theorem executeAll (hunits : Numbered k units l) (hs : J k s t) (last : Value) :
    Alike (fun s' t' => J l s' t' ∧ (K.machine s').nextSite = (K.machine s).nextSite) E
      (Carrier.executeAll execute units last s) (Carrier.executeAll follow units last t) := by
  induction hunits generalizing s t last with
  | nil hle => exact .ok ⟨P.widen hle hs, rfl⟩
  | @cons a b c unit rest isUnit le sites tail ih =>
    unfold Carrier.executeAll
    split
    · exact ih (P.widen le hs) last
    · refine (P.execute hs isUnit le sites).bind (fun _ _ h => ⟨P.widen tail.le h.1, h.2⟩) (fun _ _ h => h) ?_
      intro value s' t' _ h
      rw [← h.2]
      exact ih h.1 value

theorem runUnits (layers : Layers) (source : Text) (bound : Nat) (hr : r.nextSite = (K.machine s).nextSite)
    (hsound : r.Sound) (hs : J (K.machine s).nextSite s t) (last : Value) (count : Nat) :
    Alike (fun s t => J (K.machine s).nextSite s t) (fun s e => E s e ∨ e.IsOfReading)
      (K.runUnits execute layers source bound r last count s) (L.runUnits follow layers source bound r last count t) := by
  induction bound generalizing r s t last count with
  | zero => exact .error hs (.inr (.inr rfl))
  | succ bound ih =>
    have hsites := Parse.sites_closed.turn layers (Run.parseSettings (K.machine s)) r
    have hends := Parse.ends_closed.turn layers (Run.parseSettings (K.machine s)) r hsound
    -- what the states are after a unit has been read
    have hread : ∀ r', r.nextSite ≤ r'.nextSite →
        J (K.machine (K.afterReading s r')).nextSite (K.afterReading s r') (L.afterReading t r') := by
      intro r' hle
      rw [machine_afterReading]
      exact P.widen (hr ▸ hle) (P.read r' hs)
    rw [runUnits_turn, runUnits_turn, P.settings hs]
    cases hturn : Language.turn layers (Run.parseSettings (K.machine s)) r with
    | error e r' =>
      rw [hturn] at hsites hends
      exact .error (hread r' hsites) (.inr hends.2)
    | ok found r' =>
      rw [hturn] at hsites hends
      cases found with
      | none =>
        refine .ok ?_
        rw [machine_noting, Machine.note_eq]
        exact P.note _ (hread r' hsites)
      | some unit =>
        dsimp only
        split
        · refine ih (r := r'.withTrace #[]) ?_ hends.1 (hread r' hsites) last count
          rw [machine_afterReading]
          rfl
        · obtain ⟨hle, hascending⟩ := Language.ascending_turn hturn
          have hs₁ := P.note (unitRecord source unit) (P.read r' hs)
          have hnext : (K.machine (K.noting (K.afterReading s r') (unitRecord source unit))).nextSite = r'.nextSite := by
            rw [machine_noting, Machine.note_eq, machine_afterReading]
            rfl
          rw [← hr] at hs₁
          generalize K.noting (K.afterReading s r') (unitRecord source unit) = s₁ at hs₁ hnext
          have hexecuted := P.execute hs₁ (Language.isUnit_turn hturn) hle hascending
          rw [hnext] at hexecuted
          refine hexecuted.bind (fun _ _ h => h.2.symm ▸ h.1) (fun _ _ => .inl) ?_
          intro value s' t' _ h
          exact ih (r := r'.withTrace #[]) h.2.symm hends.1 (h.2.symm ▸ h.1) value (count + 1)

theorem evalLine (layers : Layers) (hs : J (K.machine s).nextSite s t) (source : Text) :
    Alike (fun s t => J (K.machine s).nextSite s t)
      (fun s' e => (Session.parse ⟨layers, K.machine s⟩ source).1.failure = some e ∨ E s' e)
      (K.evalLine execute layers source s) (L.evalLine follow layers source t) := by
  have hunits : Numbered (K.machine s).nextSite (K.read layers source s).1.units (K.read layers source s).2.nextSite :=
    Language.numbered_parseUnits layers (Run.parseSettings (K.machine s)) _ (.start (.ofSource source) (K.machine s).nextSite)
  -- the settings and the next site are the same, so the line is read alike
  have hsame : L.read layers source t = K.read layers source s := by
    unfold Carrier.read
    rw [P.settings hs, P.nextSite hs]
  have hfailure : (Session.parse ⟨layers, K.machine s⟩ source).1.failure = (K.read layers source s).1.failure := rfl
  rw [evalLine_eq, evalLine_eq, hsame, hfailure]
  generalize K.read layers source s = parsed at hunits
  have hnext : (K.machine (K.afterReading s parsed.2)).nextSite = parsed.2.nextSite := by
    rw [machine_afterReading]
    rfl
  cases parsed.1.failure with
  | some failure =>
    refine .error ?_ (.inl rfl)
    rw [hnext]
    exact P.widen hunits.le (P.read parsed.2 hs)
  | none =>
    refine (P.executeAll hunits (P.read parsed.2 hs) .null).imp (fun s' t' h => ?_) fun _ _ => .inr
    rw [h.2, hnext]
    exact h.1

theorem run (layers : Layers) (hs : J (K.machine s).nextSite s t) (name source : Text) :
    Alike (fun s t => J (K.machine s).nextSite s t)
      (fun s' e => ∃ inner : Failure, e = inner.label name ∧ (E s' inner ∨ inner.IsOfReading))
      (K.run execute layers name source s) (L.run follow layers name source t) := by
  have hbegin : K.lift (Run.beginReading (.ofSource source)) s
      = .ok (.start (.ofSource source) (K.machine s).nextSite) s :=
    congrArg (EStateM.Result.ok _) (K.withMachine_machine s)
  have hbegin' : L.lift (Run.beginReading (.ofSource source)) t
      = .ok (.start (.ofSource source) (L.machine t).nextSite) t :=
    congrArg (EStateM.Result.ok _) (L.withMachine_machine t)
  unfold Carrier.run
  refine Alike.labelled name ?_
  rw [bind_of_ok hbegin, bind_of_ok hbegin', P.nextSite hs]
  have hsound : (Reading.start (.ofSource source) (K.machine s).nextSite).Sound := rfl
  exact P.runUnits layers name _ rfl hsound hs .null 0

end Joint

end StoneLang
