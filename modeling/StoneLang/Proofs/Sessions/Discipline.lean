/-
  What a session keeps, unit by unit.

  `Discipline` is what is to be shown of one unit: that an observer does not disturb it, what is kept, and
  what it can fail with.  From this the lemmas here go through a line, through a source, and through
  everything that a session is given (`Discipline.after`).
-/
import StoneLang.Proofs.Evaluation.Upkeep
import StoneLang.Proofs.Sessions.Joint

namespace StoneLang

/-- What is to be shown of one unit: on the machine it ends as ever, it keeps `J` with the sites that are
taken by then, and it fails in the ways `E` only. -/
structure Discipline {σ : Type} (K : Carrier σ) (execute : Node → EStateM Failure σ Value)
    (J : Nat → σ → Prop) (E : σ → Failure → Prop) : Prop where
  read : ∀ {k : Nat} {s : σ} (nextSite : Site) (records : Array Record),
    J k s → J k (K.withMachine s { K.machine s with nextSite, records })
  widen : ∀ {k l : Nat} {s : σ}, k ≤ l → J k s → J l s
  execute : ∀ {k l : Nat} {s : σ} {unit : Node}, J k s → unit.IsUnit → k ≤ l → Ascending k l unit.sites →
    onState K.machine (execute unit s) = Run.execute unit (K.machine s) ∧
      EndedIn (J l) E (execute unit s)

def Carrier.Settled {σ : Type} (K : Carrier σ) (J : Nat → σ → Prop) (s : σ) : Prop := J (K.machine s).nextSite s

theorem Carrier.Settled.of_eq {σ : Type} {K : Carrier σ} {J : Nat → σ → Prop} {s : σ}
    (hk : (K.machine s).nextSite = k) (h : J k s) : K.Settled J s := by
  unfold Settled
  rw [hk]
  exact h

namespace Discipline

open Coupling Carrier

variable {σ : Type} {K : Carrier σ} {execute : Node → EStateM Failure σ Value} {J : Nat → σ → Prop}
  {E : σ → Failure → Prop} (h : Discipline K execute J E)

include h

theorem note (hs : J k s) (record : Record) : J k (K.noting s record) := by
  unfold noting
  rw [Machine.note_eq]
  exact h.read (K.machine s).nextSite _ hs

theorem ended_execute (hs : J k s) (hunit : unit.IsUnit) (hle : k ≤ l) (hsites : Ascending k l unit.sites) :
    EndedIn (fun s' => J l s' ∧ (K.machine s').nextSite = (K.machine s).nextSite) E (execute unit s) := by
  obtain ⟨hsame, hended⟩ := h.execute hs hunit hle hsites
  have hnext := Run.nextSite_execute unit (K.machine s)
  rw [← hsame] at hnext
  generalize execute unit s = res at hended hnext ⊢
  cases res with
  | ok value s' => exact ⟨hended, hnext⟩
  | error e s' => exact ⟨⟨hended.1, hnext⟩, hended.2⟩

theorem joint : Joint K self execute Run.execute (fun k s m => m = K.machine s ∧ J k s) E where
  settings := by
    rintro k s _ ⟨rfl, -⟩
    rfl
  nextSite := by
    rintro k s _ ⟨rfl, -⟩
    rfl
  read := by
    rintro k s _ r ⟨rfl, hs⟩
    exact ⟨(K.machine_afterReading s r).symm, h.read _ _ hs⟩
  note := by
    rintro k s _ record ⟨rfl, hs⟩
    exact ⟨(K.machine_noting s record).symm, h.note hs record⟩
  widen hle hs := ⟨hs.1, h.widen hle hs.2⟩
  execute := by
    rintro k l s _ unit ⟨rfl, hs⟩ hunit hle hsites
    have hended := h.ended_execute hs hunit hle hsites
    rw [← (h.execute hs hunit hle hsites).1]
    generalize execute unit s = res at hended ⊢
    cases res with
    | ok value s' => exact .ok ⟨⟨rfl, hended.1⟩, hended.2⟩
    | error e s' => exact .error ⟨⟨rfl, hended.1.1⟩, hended.1.2⟩ hended.2

omit h in
theorem ended_of_alike (halike : Alike (fun s m => m = K.machine s ∧ I s) F x y) :
    onState K.machine x = y ∧ EndedIn I F x := by
  cases halike with
  | @ok a s m related =>
    obtain ⟨rfl, hI⟩ := related
    exact ⟨rfl, hI⟩
  | @error e s m related fails =>
    obtain ⟨rfl, hI⟩ := related
    exact ⟨rfl, hI, fails⟩

theorem evalLine (layers : Layers) (hs : K.Settled J s) (source : Text) :
    onState K.machine (K.evalLine execute layers source s) = self.evalLine Run.execute layers source (K.machine s) ∧
      EndedIn (K.Settled J) (fun s' e => (Session.parse ⟨layers, K.machine s⟩ source).1.failure = some e ∨ E s' e)
        (K.evalLine execute layers source s) :=
  ended_of_alike (h.joint.evalLine layers ⟨rfl, hs⟩ source)

theorem run (layers : Layers) (hs : K.Settled J s) (name source : Text) :
    onState K.machine (K.run execute layers name source s) = self.run Run.execute layers name source (K.machine s) ∧
      EndedIn (K.Settled J) (fun s' e => ∃ inner : Failure, e = inner.label name ∧ (E s' inner ∨ inner.IsOfReading))
        (K.run execute layers name source s) :=
  ended_of_alike (h.joint.run layers ⟨rfl, hs⟩ name source)

end Discipline

/-! ## What a session is given -/

/-- What a session can be given. -/
inductive Session.Entry where
  /-- A line that is evaluated as a whole. -/
  | line (text : Text)
  /-- A source that is run unit by unit. -/
  | source (name text : Text)
  /-- A native that the host adds. -/
  | native (n : Native)
  /-- A tree that the host has executed. -/
  | tree (node : Node)

/-- Natives and trees of the host are as said; texts can be any. -/
def Session.Entry.Meets (ofNative : Native → Prop) (ofTree : Node → Prop) : Session.Entry → Prop
  | .line _ | .source _ _ => True
  | .native n => ofNative n
  | .tree node => ofTree node

theorem Session.Entry.Meets.mono {entry : Session.Entry}
    (h : entry.Meets ofNative ofTree) (himp : ∀ n, ofNative n → ofNative' n) : entry.Meets ofNative' ofTree := by
  cases entry with
  | native n => exact himp n h
  | tree node => exact h
  | _ => trivial

/-- The session after an entry, whatever it gave or failed with. -/
def Session.give (s : Session) : Session.Entry → Session
  | .line text => (s.evalLine text).2
  | .source name text => (s.run name text).2
  | .native n => { s with machine := s.machine.registerNative n }
  | .tree node => (s.perform (Run.execute node)).2

/-- The session after all entries. -/
def Session.after (s : Session) (entries : List Session.Entry) : Session := entries.foldl Session.give s

namespace Carrier

variable {σ : Type} (K : Carrier σ) (execute : Node → EStateM Failure σ Value) (layers : Layers)

def give (s : σ) : Session.Entry → σ
  | .line text => finalState (K.evalLine execute layers text s)
  | .source name text => finalState (K.run execute layers name text s)
  | .native n => K.withMachine s ((K.machine s).registerNative n)
  | .tree node => finalState (execute node s)

/-- The state after all entries. -/
def after (s : σ) (entries : List Session.Entry) : σ := entries.foldl (K.give execute layers) s

end Carrier

/-- What holds of a machine without natives, and is kept when a standard native is added, holds at the start
of a session. -/
theorem Session.start_induction {P : Machine → Prop}
    (hstart : P (Machine.start ⟨depthLimit config.maxDepth, config.placesNames, watched, defaultRounds⟩ input
      limit nextClass)) (hregister : ∀ {m native}, native ∈ Native.standard → P m → P (m.registerNative native))
    (hnote : ∀ {m} (record : Record), P m → P (m.note record)) :
    P (Session.start config watched input limit nextClass).machine := by
  suffices hfold : ∀ (names : List Text) (m : Machine), P m → P (names.foldl Machine.installNative m) from
    hfold _ _ hstart
  intro names
  induction names with
  | nil => exact fun m hm => hm
  | cons name rest ih =>
    intro m hm
    refine ih _ ?_
    unfold Machine.installNative
    cases hnative : Native.standard? name with
    | some native => exact hregister (List.mem_of_find?_eq_some hnative) hm
    | none => exact hnote _ hm

namespace Discipline

open Coupling Carrier

variable {σ : Type} {K : Carrier σ} {execute : Node → EStateM Failure σ Value} {J : Nat → σ → Prop}
  {E : σ → Failure → Prop} {ofNative : Native → Prop} {ofTree : Node → Prop}

theorem after (h : Discipline K execute J E)
    (hnative : ∀ {k s n}, ofNative n → J k s → J k (K.withMachine s ((K.machine s).registerNative n)))
    (htree : ∀ {k s node}, ofTree node → J k s →
      onState K.machine (execute node s) = Run.execute node (K.machine s) ∧ J k (finalState (execute node s)))
    (hentries : ∀ entry ∈ entries, entry.Meets ofNative ofTree) (layers : Layers) (hs : K.Settled J s) :
    Session.after ⟨layers, K.machine s⟩ entries = ⟨layers, K.machine (K.after execute layers s entries)⟩ ∧
      K.Settled J (K.after execute layers s entries) := by
  induction entries generalizing s with
  | nil => exact ⟨rfl, hs⟩
  | cons entry rest ih =>
    suffices hstep : Session.give ⟨layers, K.machine s⟩ entry = ⟨layers, K.machine (K.give execute layers s entry)⟩ ∧
        K.Settled J (K.give execute layers s entry) by
      show Session.after (Session.give _ entry) rest = _ ∧ _
      rw [hstep.1]
      exact ih (fun other hother => hentries other (List.mem_cons_of_mem _ hother)) hstep.2
    have hentry := hentries entry List.mem_cons_self
    -- the end of an action is the end of the same action on the machine
    have hperform : ∀ (x : EStateM Failure σ Value) (y : Run Value), onState K.machine (x s) = y (K.machine s) →
        (Session.perform ⟨layers, K.machine s⟩ y).2 = ⟨layers, K.machine (finalState (x s))⟩ := by
      intro x y hxy
      unfold Session.perform
      rw [← hxy]
      cases x s <;> rfl
    cases entry with
    | line text =>
      obtain ⟨hsame, hended⟩ := h.evalLine layers hs text
      refine ⟨?_, hended.final⟩
      show (Session.evalLine _ text).2 = _
      rw [evalLine_self]
      exact hperform _ _ hsame
    | source name text =>
      obtain ⟨hsame, hended⟩ := h.run layers hs name text
      refine ⟨?_, hended.final⟩
      show (Session.run _ name text).2 = _
      rw [run_self]
      exact hperform _ _ hsame
    | native n =>
      have hmachine := K.machine_withMachine s ((K.machine s).registerNative n)
      exact ⟨congrArg (Session.mk layers) hmachine.symm,
        .of_eq (congrArg Machine.nextSite hmachine) (hnative hentry hs)⟩
    | tree node =>
      obtain ⟨hsame, hkept⟩ := htree hentry hs
      have hnext := Run.nextSite_execute node (K.machine s)
      rw [← hsame, finalState_onState] at hnext
      exact ⟨hperform _ _ hsame, .of_eq hnext hkept⟩

end Discipline

end StoneLang
