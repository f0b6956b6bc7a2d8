/-
  Syntax errors have no effect.

  SPEC: a line that fails with a syntax error has left everything as it was, so a host may try it again
  with more text.

  PROGRAM: `Session.evalLine`, in whatever state the lines, sources, natives and trees before it have
  left the session.

  A line is executed only after all of it is read, so the one thing to exclude is a syntax error from
  execution.  The causes that a running program meets are of other classes (`Cause.isOfRun`), and what
  comes from around the program is no diagnostic, unless a native of the host fails with one.
-/
import StoneLang.Proofs.Sessions.Discipline

namespace StoneLang

/-- The native does not fail with a syntax error. -/
def Native.NoSyntaxError (n : Native) : Prop :=
  ∀ failure, n.action = .host (.fail failure) → failure.kind ≠ .syntaxError

namespace Failure

theorem kind_of_isIncomplete {failure : Failure} (h : failure.isIncomplete = true) :
    failure.kind = .syntaxError := by
  unfold isIncomplete at h
  unfold kind
  cases hd : failure.diagnostic? with
  | none => simp [hd] at h
  | some d =>
    simp only [hd, Diagnostic.isIncomplete, Bool.and_eq_true, beq_iff_eq] at h
    exact h.1

end Failure

theorem Surroundings.Fails.kind_ne {around : Surroundings} {failure : Failure} (h : around.Fails failure)
    (hnatives : ∀ n ∈ around.natives, n.NoSyntaxError) : failure.kind ≠ .syntaxError := by
  cases h with
  | cause line hcause =>
    simp only [Cause.isOfRun, Bool.and_eq_true, bne_iff_ne, ne_eq] at hcause
    exact hcause.2
  | host line hmem hfail =>
    rw [Failure.kind_withLine]
    exact hnatives _ hmem _ hfail
  | noRoom | closed | broken | unfinished => exact fun h => by cases h

/-- No native of the machine fails with a syntax error. -/
def Machine.NoSyntaxError (m : Machine) : Prop := ∀ n ∈ m.natives, n.NoSyntaxError

namespace Machine.NoSyntaxError

variable {m : Machine}

theorem execute (h : m.NoSyntaxError) (node : Node) :
    (finalState (Run.execute node m)).NoSyntaxError := by
  unfold Machine.NoSyntaxError
  rw [Run.natives_execute]
  exact h

theorem registerNative (h : m.NoSyntaxError) (hnative : native.NoSyntaxError) :
    (m.registerNative native).NoSyntaxError :=
  Array.forall_mem_push.mpr ⟨hnative, h⟩

theorem note (h : m.NoSyntaxError) (record : Record) : (m.note record).NoSyntaxError := by
  rw [Machine.note_eq]
  exact h

end Machine.NoSyntaxError

theorem Native.noSyntaxError_of_standard (h : n ∈ standard) : n.NoSyntaxError := by
  simp only [standard, List.mem_cons, List.not_mem_nil, or_false] at h
  rcases h with rfl | rfl | rfl | rfl | rfl | rfl <;> exact fun _ h => by cases h

theorem Discipline.noSyntaxError :
    Discipline .self Run.execute (fun _ m => m.NoSyntaxError) fun _ e => e.kind ≠ .syntaxError where
  read _ _ hm := hm
  widen _ hm := hm
  execute {_ _ m unit} hm _ _ _ := by
    refine ⟨Carrier.onState_self _, ?_⟩
    have hended := Surroundings.ends_execute m.surroundings unit m rfl
    have hkept := hm.execute unit
    cases hres : Run.execute unit m with
    | ok value m' =>
      rw [hres] at hkept
      exact hkept
    | error e m' =>
      rw [hres] at hended hkept
      exact ⟨hkept, hended.2.kind_ne hm⟩

/-- A line that fails with a syntax error was not executed: it failed when it was read, and only the sites
that reading gave out and the journal are not as before. -/
theorem syntax_error_has_no_effect (config : Config) (watched : Bool) (input : Input) (limit : Option Nat)
    (nextClass : Nat) (entries : List Session.Entry)
    (hnatives : ∀ entry ∈ entries, entry.Meets Native.NoSyntaxError fun _ => True) (s : Session)
    (hreached : s = (Session.start config watched input limit nextClass).after entries) (source : Text)
    (e : Failure) (hfails : (s.evalLine source).1 = .error e)
    (hclass : e.kind = .syntaxError ∨ e.isIncomplete = true) :
    (s.parse source).1.failure = some e ∧ ∃ nextSite records,
      (s.evalLine source).2 = { s with machine := { s.machine with nextSite, records } } := by
  have hs : s.machine.NoSyntaxError := by
    have hstart : (Session.start config watched input limit nextClass).machine.NoSyntaxError :=
      Session.start_induction (fun n hn => by simp [Machine.start] at hn)
        (fun hstandard hm => hm.registerNative (Native.noSyntaxError_of_standard hstandard))
        (fun record hm => hm.note record)
    rw [hreached]
    have hafter := Discipline.noSyntaxError.after (fun hnative hm => hm.registerNative hnative)
      (fun _ hm => ⟨Carrier.onState_self _, hm.execute _⟩) hnatives config.layers hstart
    have hmachine := congrArg Session.machine hafter.1
    exact hmachine ▸ hafter.2
  have hkind : e.kind = .syntaxError := hclass.elim id Failure.kind_of_isIncomplete
  have hfailure : (s.parse source).1.failure = some e := by
    have hended := (Discipline.noSyntaxError.evalLine s.layers hs source).2
    rw [Carrier.evalLine_self] at hfails
    exact ((Session.perform_ended hended).2 e hfails).resolve_right fun hrun => hrun hkind
  refine ⟨hfailure, ?_⟩
  have hunits : (Carrier.self.read s.layers source s.machine).1.failure = some e := hfailure
  rw [Carrier.evalLine_self]
  unfold Session.perform
  rw [Carrier.evalLine_eq, hunits]
  exact ⟨_, _, rfl⟩

/-- A session that holds a global, and a host that has added a native. -/
def holdingSession : Session :=
  (Session.start .default false (.ofText []) none 0).after
    [.native ⟨text "count", -1, .host .count⟩, .line (text "x = 1\n")]

/-- A line that would print, were it not for its second unit. -/
def halfLine : Text := text "print(x); x = 2\nif x \x7b\n"

/-- The line is incomplete, and nothing of it was executed. -/
theorem half_line_has_no_effect : ∃ e : Failure, e.isIncomplete = true ∧ ∃ nextSite records,
    (holdingSession.evalLine halfLine).2
      = { holdingSession with machine := { holdingSession.machine with nextSite, records } } := by
  let e := Failure.atLine (.unexpected (text "\"\x7d\"") (text "end of input") true) 2
  have hfails : (holdingSession.evalLine halfLine).1 = .error e := eq_error_of_failure? (by decide +kernel)
  refine ⟨e, rfl, (syntax_error_has_no_effect .default false (.ofText []) none 0 _ ?_ holdingSession rfl
    halfLine e hfails (.inr rfl)).2⟩
  simp only [List.mem_cons, List.not_mem_nil, or_false]
  rintro entry (rfl | rfl)
  · exact fun failure h => by cases h
  · trivial

end StoneLang
