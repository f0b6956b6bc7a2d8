/-
  Sessions that follow each other.

  PROGRAM: a session, and a second one that executes units in another way.

  SPEC: if the second one answers every unit alike, it answers everything alike that it is given (`Following.answers`),
  and the machines stay related.

  `Following` is what is to be shown of one unit.  The unit is executed in a state in which all that a `Discipline` keeps
  is known; this is what makes the two ways give the same.
-/
import StoneLang.Proofs.Sessions.Discipline

namespace StoneLang

/-! ## What a session answers -/

namespace Session

/-- What a session answers to an entry, and the session after it. -/
def answer (s : Session) : Entry → Except Failure Value × Session
  | .line text => s.evalLine text
  | .source name text => s.run name text
  | .native n => (.ok .null, { s with machine := s.machine.registerNative n })
  | .tree node => s.perform (Run.execute node)

/-- All that it answers. -/
def answers (s : Session) : List Entry → List (Except Failure Value)
  | [] => []
  | entry :: rest => (s.answer entry).1 :: (s.answer entry).2.answers rest

variable (execute : Node → Run Value)

/-- What a session answers that executes units in some other way. -/
def answerBy (s : Session) : Entry → Except Failure Value × Session
  | .line text => s.perform (Carrier.self.evalLine execute s.layers text)
  | .source name text => s.perform (Carrier.self.run execute s.layers name text)
  | .native n => (.ok .null, { s with machine := s.machine.registerNative n })
  | .tree node => s.perform (execute node)

/-- All that it answers. -/
def answersBy (s : Session) : List Entry → List (Except Failure Value)
  | [] => []
  | entry :: rest => (s.answerBy execute entry).1 :: (s.answerBy execute entry).2.answersBy rest

def afterBy (s : Session) (entries : List Entry) : Session := entries.foldl (fun s entry => (s.answerBy execute entry).2) s

theorem answer_eq (s : Session) (entry : Entry) : s.answer entry = s.answerBy Run.execute entry := by
  cases entry with
  | line text => exact Carrier.evalLine_self s text
  | source name text => exact Carrier.run_self s name text
  | native n => rfl
  | tree node => rfl

end Session

/-! ## Following -/

/-- What is to be shown of one unit: `follow` executes it as `execute` does, on a machine that `rel` relates. -/
structure Following {σ : Type} (K : Carrier σ) (execute : Node → EStateM Failure σ Value) (J : Nat → σ → Prop)
    (follow : Node → Run Value) (rel : Machine → Machine → Prop) : Prop where
  settings : ∀ {m m' : Machine}, rel m m' → m'.settings = m.settings
  nextSite : ∀ {m m' : Machine}, rel m m' → m'.nextSite = m.nextSite
  read : ∀ {m m' : Machine} (nextSite : Site) (records records' : Array Record),
    rel m m' → rel { m with nextSite, records } { m' with nextSite, records := records' }
  native : ∀ {m m' : Machine} (n : Native), rel m m' → rel (m.registerNative n) (m'.registerNative n)
  execute : ∀ {k l : Nat} {s : σ} {m' : Machine} {unit : Node}, J k s → unit.IsUnit → k ≤ l →
    Ascending k l unit.sites → rel (K.machine s) m' →
    Alike (fun s m' => rel (K.machine s) m') (fun _ _ => True) (execute unit s) (follow unit m')

namespace Following

open Carrier

variable {σ : Type} {K : Carrier σ} {execute : Node → EStateM Failure σ Value} {J : Nat → σ → Prop}
  {E : σ → Failure → Prop} {follow : Node → Run Value} {rel : Machine → Machine → Prop}
  (F : Following K execute J follow rel)

include F

theorem joint (h : Discipline K execute J E) :
    Joint K self execute follow (fun k s m' => J k s ∧ rel (K.machine s) m') fun _ _ => True where
  settings {k s m'} hs := by
    show Run.parseSettings m' = _
    unfold Run.parseSettings
    rw [F.settings hs.2]
  nextSite hs := F.nextSite hs.2
  read r hs := by
    refine ⟨h.read _ _ hs.1, ?_⟩
    rw [machine_afterReading]
    exact F.read _ _ _ hs.2
  note {k s m'} record hs := by
    refine ⟨h.note hs.1 record, ?_⟩
    show rel _ (m'.note record)
    rw [machine_noting, Machine.note_eq, Machine.note_eq m', F.nextSite hs.2]
    exact F.read _ _ _ hs.2
  widen hle hs := ⟨h.widen hle hs.1, hs.2⟩
  execute {k l s m' unit} hs hunit hle hsites := by
    have halike := F.execute hs.1 hunit hle hsites hs.2
    have hended := h.ended_execute hs.1 hunit hle hsites
    generalize execute unit s = left at halike hended
    generalize follow unit m' = right at halike
    cases halike with
    | ok related => exact .ok ⟨⟨hended.1, related⟩, hended.2⟩
    | error related _ => exact .error ⟨⟨hended.1.1, related⟩, hended.1.2⟩ trivial

variable (h : Discipline K execute J E)

include h

/-! ## Entries -/

omit F h in
theorem perform {layers : Layers} {s : σ} {m' : Machine} {x : EStateM Failure σ Value} {y z : Run Value}
    {F : σ → Failure → Prop} (hsame : onState K.machine (x s) = z (K.machine s))
    (halike : Alike (fun s m' => K.Settled J s ∧ rel (K.machine s) m') F (x s) (y m')) :
    ∃ outcome m₁, Session.perform ⟨layers, K.machine s⟩ z = (outcome, ⟨layers, K.machine (finalState (x s))⟩) ∧
      Session.perform ⟨layers, m'⟩ y = (outcome, ⟨layers, m₁⟩) ∧ rel (K.machine (finalState (x s))) m₁ := by
  unfold Session.perform
  rw [← hsame]
  generalize x s = left at halike
  generalize y m' = right at halike
  cases halike with
  | ok related => exact ⟨_, _, rfl, rfl, related.2⟩
  | error related _ => exact ⟨_, _, rfl, rfl, related.2⟩

variable {ofNative : Native → Prop}
  (hnative : ∀ {k s n}, ofNative n → J k s → J k (K.withMachine s ((K.machine s).registerNative n)))

include hnative

theorem answer {entry : Session.Entry} (hentry : entry.Meets ofNative fun _ => False) (layers : Layers) {s : σ}
    {m' : Machine} (hs : K.Settled J s) (hrel : rel (K.machine s) m') :
    K.Settled J (K.give execute layers s entry) ∧ ∃ outcome m₁,
      Session.answer ⟨layers, K.machine s⟩ entry = (outcome, ⟨layers, K.machine (K.give execute layers s entry)⟩) ∧
      Session.answerBy follow ⟨layers, m'⟩ entry = (outcome, ⟨layers, m₁⟩) ∧
      rel (K.machine (K.give execute layers s entry)) m₁ := by
  rw [Session.answer_eq]
  cases entry with
  | line text =>
    obtain ⟨hsame, hended⟩ := h.evalLine layers hs text
    exact ⟨hended.final, perform hsame ((F.joint h).evalLine layers ⟨hs, hrel⟩ text)⟩
  | source name text =>
    obtain ⟨hsame, hended⟩ := h.run layers hs name text
    exact ⟨hended.final, perform hsame ((F.joint h).run layers ⟨hs, hrel⟩ name text)⟩
  | native n =>
    have hmachine := K.machine_withMachine s ((K.machine s).registerNative n)
    refine ⟨.of_eq (congrArg Machine.nextSite hmachine) (hnative hentry hs), .ok .null, m'.registerNative n, ?_, rfl, ?_⟩
    · exact congrArg (fun m => (Except.ok Value.null, Session.mk layers m)) hmachine.symm
    · show rel (K.machine (K.withMachine s _)) _
      rw [hmachine]
      exact F.native n hrel
  | tree node => exact absurd hentry id

theorem answers (hentries : ∀ entry ∈ entries, entry.Meets ofNative fun _ => False)
    (layers : Layers) (hs : K.Settled J s) (hrel : rel (K.machine s) m') :
    Session.answersBy follow ⟨layers, m'⟩ entries = Session.answers ⟨layers, K.machine s⟩ entries ∧
      ∃ m₁, Session.afterBy follow ⟨layers, m'⟩ entries = ⟨layers, m₁⟩ ∧
        rel (K.machine (K.after execute layers s entries)) m₁ := by
  induction entries generalizing s m' with
  | nil => exact ⟨rfl, m', rfl, hrel⟩
  | cons entry rest ih =>
    obtain ⟨hsettled, outcome, m₁, hleft, hright, hrel₁⟩ :=
      F.answer h hnative (hentries entry List.mem_cons_self) layers hs hrel
    obtain ⟨hanswers, hafter⟩ := ih (fun other hother => hentries other (List.mem_cons_of_mem _ hother)) hsettled hrel₁
    constructor
    · unfold Session.answersBy Session.answers
      rw [hleft, hright, hanswers]
    · unfold Session.afterBy Carrier.after
      rw [List.foldl_cons, List.foldl_cons, hright]
      exact hafter

end Following

end StoneLang
