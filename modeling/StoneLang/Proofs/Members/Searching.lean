/-
  Evaluation that remembers nothing of members.

  PROGRAM: `Observed.execute`, whose member accesses remember what they found, and `Run.executeBySearch`, which searches
  the class of the object at every access.

  SPEC: both give the same value or the same failure, and the machines are the same but for what is remembered
  (`Observed.retraces_execute`).  At every moment on the way, what is remembered is what a search would find
  (`Moment.Faithful`).

  The crux is `Machine.Remembers.member`: an access that finds its class in its memory finds what a search finds.  Every
  other action does not look at the memory at all.
-/
import StoneLang.Proofs.Members.Memory
import StoneLang.Proofs.Observation.Observed
import StoneLang.Proofs.Settings.Evaluation

namespace StoneLang

open Coupling

/-! ## Searching at every access -/

namespace Run

/-- The member of an object that a title refers to, by a search in its class. -/
def searchedMember (object : Nat) (title : Label) : Run MemberCache := do
  match (← get).classOf? object with
  | none => fault (.noMember [] title.text) (orLine title.line 0)
  | some c =>
    match searchMember c title.text with
    | some entry => return entry
    | none => fault (.noMember c.name title.text) (orLine title.line 0)

def readSearched (object : Nat) (title : Label) : Run Value := do
  let entry ← searchedMember object title
  if entry.isField then
    return (fieldAt? (← get) object entry.index).getD .null
  else
    match methodAt? (← get) object entry.index with
    | some d => return .method object d
    | none => return .null

def assignSearched (target : Value) (title : Label) (value : Value) : Run Unit := do
  match target with
  | .object object =>
    let entry ← searchedMember object title
    if entry.isField then setField object entry.index value
    else
      fault (.methodAssignment ((← get).className object ++ text "." ++ title.text))
        (orLine title.line 0)
  | other => fault (.noMemberStore title.text other.kind) (orLine title.line 0)

end Run

/-- What the evaluator does to the machine if member accesses remember nothing. -/
def Actions.searching : Actions Machine :=
  { Actions.machine with
    readMember := fun object _ title => Run.readSearched object title
    assignMember := fun target _ title value => Run.assignSearched target title value }

/-- Runs a unit at the global level; member accesses remember nothing. -/
def Run.executeBySearch (unit : Node) : Run Value := do
  let settings := (← get).settings
  if settings.placesNames then placeNames unit
  Actions.searching.evaluate settings.maxDepth unit Machine.globalEnv

/-- A machine that remembers nothing of members, watched or not. -/
def Variant.forgetful (watched : Bool) : Variant := ⟨0, watched, fun _ => .empty⟩

namespace Machine

def searched (m : Machine) (object : Nat) (title : Label) : Except Cause MemberCache :=
  match m.classOf? object with
  | none => .error (.noMember [] title.text)
  | some c =>
    match searchMember c title.text with
    | some entry => .ok entry
    | none => .error (.noMember c.name title.text)

theorem Remembers.member_eq {m : Machine} (h : m.Remembers t) (object : Nat) {site : Site} {title : Label}
    (hsite : t.Has (site, title)) :
    (∃ cause, m.searched object title = .error cause ∧ m.member object site title = .error cause) ∨
      ∃ entry m', m.searched object title = .ok entry ∧ m.member object site title = .ok (entry, m') ∧
        (m' = m ∨ m' = m.remembering site entry) := by
  unfold searched
  cases hc : m.classOf? object with
  | none =>
    refine .inl ⟨_, rfl, ?_⟩
    unfold Machine.member
    rw [hc]
  | some c =>
    dsimp only
    rcases h.member hsite hc with ⟨entry, hfound, hkept | hnew⟩ | ⟨hnone, hfails⟩
    · rw [hfound]
      exact .inr ⟨entry, m, rfl, hkept, .inl rfl⟩
    · rw [hfound]
      exact .inr ⟨entry, _, rfl, hnew, .inr rfl⟩
    · rw [hnone]
      exact .inl ⟨_, rfl, hfails⟩

end Machine

namespace Run

theorem searchedMember_eq (object : Nat) (title : Label) (m : Machine) :
    searchedMember object title m = match m.searched object title with
      | .ok entry => .ok entry m
      | .error cause => .error (.atLine cause (orLine title.line 0)) m := by
  unfold searchedMember Machine.searched
  rw [get_bind_apply]
  cases m.classOf? object with
  | none => rfl
  | some c =>
    dsimp only
    cases searchMember c title.text <;> rfl

theorem readSearched_eq (object : Nat) (title : Label) (m : Machine) :
    readSearched object title m = match m.searched object title with
      | .ok entry => .ok (m.memberValue object entry) m
      | .error cause => .error (.atLine cause (orLine title.line 0)) m := by
  unfold readSearched
  rw [bind_apply, searchedMember_eq]
  cases m.searched object title with
  | error cause => rfl
  | ok entry =>
    dsimp only
    unfold Machine.memberValue
    cases entry.isField with
    | true => rfl
    | false =>
      simp only [Bool.false_eq_true, if_false]
      rw [get_bind_apply]
      cases methodAt? m object entry.index <;> rfl

theorem assignSearched_eq (object : Nat) (title : Label) (value : Value) (m : Machine) :
    assignSearched (.object object) title value m = match m.searched object title with
      | .ok entry =>
        if entry.isField then .ok () (m.withField object entry.index value)
        else .error (.atLine (.methodAssignment (m.className object ++ text "." ++ title.text))
          (orLine title.line 0)) m
      | .error cause => .error (.atLine cause (orLine title.line 0)) m := by
  refine bind_apply.trans ?_
  rw [searchedMember_eq]
  cases m.searched object title with
  | error cause => rfl
  | ok entry =>
    dsimp only
    cases entry.isField <;> rfl

end Run

/-! ## What each action keeps -/

namespace Machine

variable {t : Titles} {m : Machine}

theorem Clear.read (h : m.Clear t) (nextSite : Site) (records : Array Record) :
    Machine.Clear t { m with nextSite, records } :=
  have hheld := h.carries.held
  Upkeep.Holds.stepped h rfl rfl ⟨hheld.frames, hheld.arrays, hheld.objects⟩ (Recalling.same h.kept rfl rfl rfl)

theorem Clear.note (h : m.Clear t) (record : Record) : (m.note record).Clear t := by
  rw [note_eq]
  exact h.read m.nextSite _

theorem Clear.registerNative (h : m.Clear t) (n : Native) : (m.registerNative n).Clear t := by
  have hvalue : (Upkeep.recalling t).good (.native m.natives.size) := nofun
  have hheld := h.carries.held
  exact Upkeep.Holds.stepped h rfl rfl
    ⟨hheld.frames.bindIn (m.frames.definer? n.name [builtinFrame]) n.name hvalue, hheld.arrays, hheld.objects⟩
    (Recalling.same h.kept rfl rfl rfl)

end Machine

/-! ## Two runs -/

/-- At that moment, what was remembered is what a search would have found; and if the moment is an access, its title is
known. -/
structure Moment.Faithful (t : Titles) (moment : Moment) : Prop where
  remembers : moment.machine.Remembers t
  access : ∀ a, moment.request.access? = some a → t.Has a

theorem Moment.Faithful.later {moment : Moment} (h : moment.Faithful t) (hle : t.Within u) : moment.Faithful u :=
  ⟨h.remembers.later hle, fun a ha => (h.access a ha).later hle⟩

namespace Observed

/-- The machine is clear, and all moments were faithful. -/
structure Clear (t : Titles) (s : Observed) : Prop where
  machine : s.machine.Clear t
  moments : ∀ moment ∈ s.moments, moment.Faithful t

/-- The second computation, on a machine that remembers nothing of members, does what the first one does. -/
structure Retraces (t : Titles) (watched : Bool) {α : Type} (Q : α → Prop) (x : EStateM Failure Observed α) (y : Run α) :
    Prop where
  same : ∀ (s : Observed) (records : Array Record), s.Clear t → ∃ records',
    y (s.machine.under (.forgetful watched) records)
      = onState (fun s' => s'.machine.under (.forgetful watched) records') (x s)
  ends : Ends (Clear t) Q (fun _ => True) x

variable {t : Titles} {watched : Bool} {α β : Type}

variable {Q : α → Prop} {y : Run α} {request : Request} {unit : Node}

theorem Retraces.pure (h : Q a) : Retraces t watched Q (Pure.pure a) (Pure.pure a) :=
  ⟨fun _ records _ => ⟨records, rfl⟩, fun _ hs => ⟨hs, h⟩⟩

theorem Retraces.throw (e : Failure) : Retraces t watched Q (MonadExcept.throw e) (MonadExcept.throw e) :=
  ⟨fun _ records _ => ⟨records, rfl⟩, fun _ hs => ⟨hs, trivial⟩⟩

theorem Retraces.bind {Q : β → Prop} (hx : Retraces t watched P x y)
    (hf : ∀ a, P a → Retraces t watched Q (f a) (g a)) : Retraces t watched Q (x >>= f) (y >>= g) where
  same s records hs := by
    obtain ⟨records', hsame⟩ := hx.same s records hs
    have hended := hx.ends s hs
    rw [bind_apply, bind_apply, hsame]
    cases hres : x s with
    | error e s' => exact ⟨records', rfl⟩
    | ok a s' =>
      rw [hres] at hended
      exact (hf a hended.2).same s' records' hended.1
  ends := hx.ends.bind fun a ha => (hf a ha).ends

theorem retraces_asking {x : Run α} (hrequest : ∀ a, request.access? = some a → t.Has a)
    (hends : ∀ around, ∃ E, Ends ((Upkeep.recalling t).Upheld around) Q E x)
    (hsame : ∀ (m : Machine) (records : Array Record), m.Clear t → ∃ records',
      y (m.under (.forgetful watched) records) = onState (Machine.under · (.forgetful watched) records') (x m)) :
    Retraces t watched Q (asking request x) y where
  same s records hs := by
    obtain ⟨records', hright⟩ := hsame s.machine records hs.machine
    refine ⟨records', ?_⟩
    rw [hright]
    unfold asking
    cases x s.machine <;> rfl
  ends s hs := by
    refine ((Upkeep.ends_of_upheld hends s.machine hs.machine).imp (fun m hm => ?_) (fun _ => id) fun _ => id).onState
    exact ⟨hm, List.forall_mem_cons.mpr ⟨⟨hs.machine.kept, hrequest⟩, hs.moments⟩⟩

theorem retraces_readMember (object : Nat) (haccess : ∀ a ∈ (Suffix.member site title).accesses, t.Has a) :
    Retraces t watched (Upkeep.recalling t).good
      (asking (.readMember object site title) (Run.readMember object site title)) (Run.readSearched object title) := by
  have hsite : t.Has (site, title) := haccess _ (List.mem_singleton_self _)
  refine retraces_asking (by rintro a ⟨⟩; exact hsite) (fun _ => ⟨_, Upkeep.ends_readMember object haccess⟩)
    fun m records h => ⟨records, ?_⟩
  have hsearched : (m.under (.forgetful watched) records).searched object title = m.searched object title := rfl
  rw [Run.readSearched_eq, Run.readMember_eq, hsearched]
  rcases Machine.Remembers.member_eq h.kept object hsite with ⟨cause, hfound, hmember⟩ |
    ⟨entry, m', hfound, hmember, rfl | rfl⟩ <;> rw [hfound, hmember] <;> rfl

theorem retraces_assignMember (target : Value)
    (haccess : ∀ a ∈ (Suffix.member site title).accesses, t.Has a) (hvalue : (Upkeep.recalling t).good value) :
    Retraces t watched (fun _ => True)
      (asking (.assignMember target site title value) (Run.assignMember target site title value))
      (Run.assignSearched target title value) := by
  have hsite : t.Has (site, title) := haccess _ (List.mem_singleton_self _)
  refine retraces_asking (by rintro a ⟨⟩; exact hsite) (fun _ => ⟨_, Upkeep.ends_assignMember target haccess hvalue⟩)
    fun m records h => ⟨records, ?_⟩
  cases target with
  | object object =>
    have hsearched : (m.under (.forgetful watched) records).searched object title = m.searched object title := rfl
    rw [Run.assignSearched_eq, Run.assignMember_eq, hsearched]
    rcases Machine.Remembers.member_eq h.kept object hsite with ⟨cause, hfound, hmember⟩ |
      ⟨entry, m', hfound, hmember, rfl | rfl⟩ <;> rw [hfound, hmember]
    · rfl
    all_goals
      dsimp only
      cases entry.isField <;> rfl
  | _ => rfl

theorem lifts_retraces (t : Titles) (watched : Bool) : Lifts (.accessing t.Has)
    (fun object _ title => Run.readSearched object title) (fun target _ title value => Run.assignSearched target title value)
    (Retraces t watched) where
  pure := .pure
  throw := .throw
  bind := .bind
  rounds := ⟨fun _ records _ => ⟨records, rfl⟩, fun _ hs => ⟨hs, trivial⟩⟩
  asks hrequest hx := by
    refine retraces_asking (fun a ha => ?_) (fun around => hx.keeps _ _ _ _ around) fun m records _ => hx.same _ m records rfl
    rw [hrequest] at ha
    cases ha
  readMember object _ _ haccess := retraces_readMember object haccess
  assignMember target _ _ _ haccess hvalue := retraces_assignMember target haccess hvalue

/-! ## Units -/

theorem Retraces.evaluated {x : EStateM Failure Observed α} (h : Retraces t watched Q x y) (env : Env) :
    Retraces t watched Q (fun s => onState (s.evaluated env) (x s)) y where
  same s records hs := by
    obtain ⟨records', hsame⟩ := h.same s records hs
    refine ⟨records', ?_⟩
    rw [hsame]
    cases x s <;> rfl
  ends s hs := ((h.ends s hs).imp (fun _ hs' => ⟨hs'.machine, hs'.moments⟩) (fun _ => id) fun _ => id).onState

theorem retraces_evaluate (levels : Nat) (hnode : ∀ a ∈ node.accesses, t.Has a) (env : Env) :
    Retraces t watched (Upkeep.recalling t).good (evaluate levels node env) (Actions.searching.evaluate levels node env) := by
  induction levels generalizing node env with
  | zero =>
    have hlook : Retraces t watched (fun _ => True) (look (·.settings.maxDepth)) Actions.searching.maxDepth :=
      ⟨fun _ records _ => ⟨records, rfl⟩, fun _ hs => ⟨hs, trivial⟩⟩
    have hfault : Retraces t watched (Upkeep.recalling t).good (Actions.evaluate actions 0 node env) (Actions.searching.evaluate 0 node env) :=
      hlook.bind fun depth _ => .throw _
    exact hfault.evaluated env
  | succ levels ih =>
    have hrec : ∀ (_ : Still) node env, (CodeKind.fixed (.accessing t.Has) fun _ => True).node .still env node →
        Retraces t watched (Upkeep.recalling t).good (evaluate levels node env) (Actions.searching.evaluate levels node env) :=
      fun _ node env hnode => ih hnode.2 env
    exact ((lifts_retraces t watched).accord.evaluateNode hrec (w := .still) ⟨trivial, hnode⟩).evaluated env

theorem retraces_runUnit (watched : Bool) (hunit : ∀ a ∈ unit.accesses, t.Has a) :
    Retraces t watched (Upkeep.recalling t).good (runUnit unit) (Run.executeBySearch unit) := by
  have hplaces : Retraces t watched (fun _ => True) (asking (.placeNames unit) (Run.placeNames unit)) (Run.placeNames unit) :=
    (lifts_retraces t watched).asks rfl (.of_agrees (fun _ _ _ _ _ => ⟨_, Upkeep.ends_placeNames hunit⟩)
      fun _ => Run.agrees_placeNames unit)
  -- both look at the settings, which have the same limit and the same mode
  have hrun : ∀ settings : Settings, Retraces t watched (Upkeep.recalling t).good
      (do
        if settings.placesNames then asking (.placeNames unit) (Run.placeNames unit)
        evaluate settings.maxDepth unit Machine.globalEnv)
      (do
        if settings.placesNames then Run.placeNames unit
        Actions.searching.evaluate settings.maxDepth unit Machine.globalEnv) := by
    intro settings
    cases settings.placesNames with
    | true => exact hplaces.bind fun _ _ => retraces_evaluate settings.maxDepth hunit Machine.globalEnv
    | false => exact retraces_evaluate settings.maxDepth hunit Machine.globalEnv
  exact ⟨fun s records hs => (hrun s.machine.settings).same s records hs, fun s hs => (hrun s.machine.settings).ends s hs⟩

theorem retraces_execute (watched : Bool) (hunit : ∀ a ∈ unit.accesses, t.Has a) :
    Retraces t watched (Upkeep.recalling t).good (execute unit) (Run.executeBySearch unit) where
  same s records hs := by
    obtain ⟨records', hsame⟩ := (retraces_runUnit watched hunit).same (s.executing unit) records ⟨hs.machine, hs.moments⟩
    refine ⟨records', ?_⟩
    have hmachine : (s.executing unit).machine = s.machine := rfl
    rw [← hmachine, hsame]
    unfold execute
    cases runUnit unit (s.executing unit) <;> rfl
  ends s hs := ended_execute ((retraces_runUnit watched hunit).ends (s.executing unit) ⟨hs.machine, hs.moments⟩)
    fun _ _ hs' _ => ⟨hs'.machine, hs'.moments⟩

end Observed

end StoneLang
