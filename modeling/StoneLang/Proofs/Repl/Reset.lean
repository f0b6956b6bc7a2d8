/-
  The reset command.

  PROGRAM: the interactive loop on a script.  The reset command puts a new session in the place of the old one; its
  classes are numbered from where the old one was.

  SPEC: whatever came before the command, what is shown after it is what a loop shows that begins there
  (`reset_forgets`).

  A loop after a reset and a loop that begins differ in the numbers of their classes, by a fixed step, and in what was
  shown before (`Loop.Apart`).  Every answer of the line reader keeps them so.
-/
import StoneLang.Proofs.Settings.Counters
import StoneLang.Repl

namespace StoneLang.Repl

/-! ## Loops whose classes are numbered apart -/

/-- The loops have done the same; the numbers of the second's classes are higher by `n`, and it had shown `before`
already. -/
structure Loop.Apart (n : Nat) (before : Array Shown) (l l' : Loop) : Prop where
  layers : l'.session.layers = l.session.layers
  machines : l.session.machine.Apart n l'.session.machine
  unfinished : l'.unfinished = l.unfinished
  shown : l'.shown = before ++ l.shown

namespace Loop.Apart

variable {n : Nat} {before : Array Shown} {l l' : Loop} {s : Setting}

section
variable (h : l.Apart n before l')

include h

theorem show_ (shown : Shown) :
    Loop.Apart n before { l with shown := l.shown.push shown } { l' with shown := l'.shown.push shown } where
  layers := h.layers
  machines := h.machines
  unfinished := h.unfinished
  shown := by
    show l'.shown.push shown = before ++ l.shown.push shown
    rw [h.shown, Array.append_push]

theorem print (t : Text) : (l.print t).Apart n before (l'.print t) := h.show_ (.output t)

theorem printValue (v : Value) : (l.printValue v).Apart n before (l'.printValue v) := by
  have hrender : l'.session.render v = l.session.render v := h.machines.render v
  unfold Loop.printValue
  rw [hrender]
  exact h.print _

theorem enter (source : Text) : (l.enter source).Apart n before (l'.enter source) :=
  { h with unfinished := rfl }

theorem absorb (layers : Layers) (hm : m.Apart n m') :
    (l.absorb ⟨layers, m⟩).Apart n before (l'.absorb ⟨layers, m'⟩) where
  layers := rfl
  machines := by
    show Machine.Apart n _ { m' with output := .empty m'.output.limit, records := #[] }
    rw [hm.output]
    exact hm.withOutput _ _ _
  unfinished := h.unfinished
  shown := by
    show l'.shown ++ m'.output.chunks.map _ = before ++ (l.shown ++ m.output.chunks.map _)
    rw [h.shown, hm.output, Array.append_assoc]

/-! ## One answer -/

theorem answer (entry : Session.Entry) (hentry : entry.IsPlain) :
    ∃ outcome m m', l.session.answer entry = (outcome, ⟨l.session.layers, m⟩) ∧
      l'.session.answer entry = (outcome, ⟨l.session.layers, m'⟩) ∧ m.Apart n m' := by
  have hsession : l'.session = ⟨l.session.layers, l'.session.machine⟩ := by rw [← h.layers]
  rw [hsession]
  exact Session.apart_answer h.machines hentry l.session.layers

theorem evaluate (source : Text) : (l.evaluate source).Apart n before (l'.evaluate source) := by
  obtain ⟨outcome, m, m', hleft, hright, hm⟩ := h.answer (.line (source ++ [Text.newline])) trivial
  have habsorbed := h.absorb l.session.layers hm
  unfold Loop.evaluate
  rw [show l.session.evalLine _ = _ from hleft, show l'.session.evalLine _ = _ from hright]
  cases outcome with
  | ok v =>
    dsimp only
    split
    · exact habsorbed.enter source
    · exact (habsorbed.printValue v).enter source
  | error f =>
    dsimp only
    split
    · exact { habsorbed with unfinished := rfl }
    · exact (habsorbed.print _).enter source

theorem load (path : Text) : (l.load s path).Apart n before (l'.load s path) := by
  unfold Loop.load
  cases s.load path with
  | error f => exact h.print _
  | ok source =>
    obtain ⟨outcome, m, m', hleft, hright, hm⟩ := h.answer (.source source.name source.content) trivial
    have habsorbed := h.absorb l.session.layers hm
    dsimp only
    rw [show l.session.run _ _ = _ from hleft, show l'.session.run _ _ = _ from hright]
    cases outcome with
    | ok v => exact habsorbed.printValue v
    | error f => exact habsorbed.print _

theorem reset : (l.reset s).Apart n before (l'.reset s) := by
  have hnext : l'.session.machine.nextClass = l.session.machine.nextClass + n := h.machines.nextClass
  have hstart := Session.apart_start s.config s.watched s.input none l.session.machine.nextClass n
  rw [← hnext] at hstart
  have hfresh : Loop.Apart n before { l with sessions := l.sessions + 1 } { l' with sessions := l'.sessions + 1 } := { h with }
  exact (hfresh.absorb s.config.layers hstart).print _

theorem command (words : List Text) :
    (l.command s words).1.Apart n before (l'.command s words).1 ∧ (l'.command s words).2 = (l.command s words).2 := by
  unfold Loop.command
  cases words with
  | nil => exact ⟨h, rfl⟩
  | cons name arguments =>
    dsimp only
    split
    · exact ⟨h, rfl⟩
    split
    · exact ⟨h.print _, rfl⟩
    split
    · exact ⟨h.reset, rfl⟩
    split
    · split
      · exact ⟨h.load _, rfl⟩
      · exact ⟨h.print _, rfl⟩
    · exact ⟨h.print _, rfl⟩

/-- Every answer of the line reader keeps the loops apart by as much, and they go on together. -/
theorem step (s : Setting) (answer : Answer) :
    (l.step s answer).1.Apart n before (l'.step s answer).1 ∧ (l'.step s answer).2 = (l.step s answer).2 := by
  cases answer with
  | line line =>
    have hsource : l'.sourceWith line = l.sourceWith line := by
      unfold sourceWith
      rw [h.unfinished]
    unfold Loop.step
    dsimp only
    rw [hsource]
    split
    · exact (h.enter _).command _
    · exact ⟨h.evaluate _, rfl⟩
  | aborted => exact ⟨{ h with unfinished := rfl }, rfl⟩
  | broken reason => exact ⟨(h.print _).print _, rfl⟩

/-! ## Scripts -/

theorem prompt : l'.prompt s = l.prompt s := by
  unfold Loop.prompt
  rw [h.unfinished]

theorem ask : (l.ask s).Apart n before (l'.ask s) := by
  unfold Loop.ask
  rw [h.prompt]
  exact h.show_ _

end

end Loop.Apart

namespace Loop

variable {s : Setting} {l l' : Loop}

theorem run_refused (h : s.refuses (l.prompt s) = true) (script : List Answer) :
    l.run s script = ((l.step s refusal).1, script) := by
  have hrefused : l.refused? s = some (l.step s refusal).1 := if_pos h
  cases script with
  | nil => rw [Loop.run, hrefused]; rfl
  | cons answer rest => rw [Loop.run, hrefused]

theorem run_nil (h : s.refuses (l.prompt s) = false) : l.run s [] = ((l.ask s).finish, []) := by
  have hrefused : l.refused? s = none := if_neg (by rw [h]; decide)
  rw [Loop.run, hrefused]
  rfl

theorem run_cons (h : s.refuses (l.prompt s) = false) (answer : Answer) (rest : List Answer) :
    l.run s (answer :: rest) =
      if ((l.ask s).step s answer).2 then ((l.ask s).step s answer).1.run s rest
      else (((l.ask s).step s answer).1, rest) := by
  have hrefused : l.refused? s = none := if_neg (by rw [h]; decide)
  rw [Loop.run, hrefused]
  rcases (l.ask s).step s answer with ⟨l', goesOn⟩
  cases goesOn <;> rfl

/-- A script leads loops that are apart to ends that are apart by as much, with the same answers left over. -/
theorem Apart.run (h : l.Apart n before l') (script : List Answer) :
    (l.run s script).1.Apart n before (l'.run s script).1 ∧ (l'.run s script).2 = (l.run s script).2 := by
  induction script generalizing l l' with
  | nil =>
    cases hrefuses : s.refuses (l.prompt s) with
    | true =>
      rw [run_refused hrefuses, run_refused (h.prompt ▸ hrefuses)]
      exact ⟨(h.step s refusal).1, rfl⟩
    | false =>
      rw [run_nil hrefuses, run_nil (h.prompt ▸ hrefuses)]
      exact ⟨h.ask.print _, rfl⟩
  | cons answer rest ih =>
    cases hrefuses : s.refuses (l.prompt s) with
    | true =>
      rw [run_refused hrefuses, run_refused (h.prompt ▸ hrefuses)]
      exact ⟨(h.step s refusal).1, rfl⟩
    | false =>
      obtain ⟨hstep, hgoes⟩ := h.ask.step s answer
      rw [run_cons hrefuses, run_cons (h.prompt ▸ hrefuses), hgoes]
      split
      · exact ih hstep
      · exact ⟨hstep, rfl⟩

/-- The loop after the answers of a script, if it is still asking then. -/
def after (s : Setting) : Loop → List Answer → Option Loop
  | l, [] => some l
  | l, answer :: rest =>
    if s.refuses (l.prompt s) then none
    else if ((l.ask s).step s answer).2 then after s ((l.ask s).step s answer).1 rest
    else none

theorem run_after (h : l.after s first = some l') (second : List Answer) :
    l.run s (first ++ second) = l'.run s second := by
  induction first generalizing l with
  | nil =>
    cases h
    rfl
  | cons answer rest ih =>
    unfold after at h
    split at h
    · cases h
    · rename_i hrefuses
      split at h
      · rename_i hgoes
        rw [List.cons_append, run_cons (by simpa using hrefuses), if_pos hgoes]
        exact ih h
      · cases h

/-! ## Resets -/

/-- A loop before the first line, its classes numbered from `nextClass` on. -/
def fresh (s : Setting) (nextClass : Nat) : Loop :=
  let session := s.newSession nextClass
  { session := { session with machine := { session.machine with records := #[] } }
    unfinished := []
    shown := #[]
    entered := #[]
    records := session.machine.records
    sessions := 1 }

theorem output_newSession (s : Setting) (nextClass : Nat) : (s.newSession nextClass).machine.output = .empty none :=
  Session.output_start s.config s.watched s.input none nextClass

def freshMachine (s : Setting) (nextClass : Nat) : Machine :=
  { (s.newSession nextClass).machine with output := .empty none, records := #[] }

theorem apart_freshMachine (s : Setting) (n : Nat) : (freshMachine s 0).Apart n (freshMachine s n) := by
  have hstart := (Session.apart_start s.config s.watched s.input none 0 n).withOutput (.empty none) #[] #[]
  rw [Nat.zero_add] at hstart
  exact hstart

theorem machine_fresh (s : Setting) (nextClass : Nat) : (fresh s nextClass).session.machine = freshMachine s nextClass := by
  unfold freshMachine
  rw [← output_newSession s nextClass]
  rfl

theorem machine_reset (s : Setting) (l : Loop) :
    (l.reset s).session.machine = freshMachine s l.session.machine.nextClass := by
  show ({ (s.newSession _).machine with output := .empty (s.newSession _).machine.output.limit, records := #[] } : Machine) = _
  rw [output_newSession]
  rfl

theorem apart_fresh (s : Setting) (n : Nat) : (fresh s 0).Apart n #[] (fresh s n) where
  layers := rfl
  machines := by
    rw [machine_fresh, machine_fresh]
    exact apart_freshMachine s n
  unfinished := rfl
  shown := Array.empty_append.symm

/-- A loop that has been reset is a loop before the first line, but for the numbers of its classes. -/
theorem apart_reset (s : Setting) (h : l.unfinished = []) :
    (fresh s 0).Apart l.session.machine.nextClass (l.shown.push (.output (text "session reset\n"))) (l.reset s) where
  layers := rfl
  machines := by
    rw [machine_fresh, machine_reset]
    exact apart_freshMachine s _
  unfinished := h
  shown := by
    show (l.shown ++ (s.newSession _).machine.output.chunks.map _).push _ = l.shown.push _ ++ #[]
    rw [output_newSession]
    simp [Output.empty]

theorem step_reset (h : l.unfinished = []) :
    (l.ask s).step s (.line (text ":reset")) = (((l.ask s).enter (text ":reset")).reset s, true) := by
  have hsource : (l.ask s).sourceWith (text ":reset") = text ":reset" := if_pos h
  have hcommand : isCommand (text ":reset") = true := by decide
  have hwords : (text ":reset").words = [text ":reset"] := by decide
  unfold step
  dsimp only
  rw [hsource, if_pos hcommand, hwords]
  rfl

end Loop

/-- What a loop shows after a reset is what a loop shows that begins there, though the numbers of classes go on; and no
session shows from which number on its classes are numbered. -/
theorem reset_forgets (s : Setting) (first second : List Answer) {l : Loop}
    (hprompt : s.refuses s.config.repl.prompt = false) (hfirst : (Loop.start s).after s first = some l)
    (hdone : l.unfinished = []) :
    let whole := (Loop.start s).run s (first ++ .line (text ":reset") :: second)
    let fresh := (Loop.start s).run s second
    whole.1.shown = l.shown ++ #[.prompt s.config.repl.prompt, .output (text "session reset\n")] ++ fresh.1.shown ∧
      whole.2 = fresh.2 ∧
      whole.1.session.machine.nextClass + 1 = fresh.1.session.machine.nextClass + l.session.machine.nextClass ∧
      ∀ (config : Config) (watched : Bool) (input : Input) (limit : Option Nat) (a b : Nat),
        (Session.start config watched input limit a).Indistinguishable (.start config watched input limit b) := by
  intro whole fresh
  have hshown : l.prompt s = s.config.repl.prompt := if_pos hdone
  have hwhole : whole = (((l.ask s).enter (text ":reset")).reset s).run s second := by
    show (Loop.start s).run s _ = _
    rw [Loop.run_after hfirst, Loop.run_cons (by rw [hshown]; exact hprompt), Loop.step_reset hdone]
    rfl
  obtain ⟨hreset, hleft⟩ := (Loop.apart_reset s (l := (l.ask s).enter (text ":reset")) rfl).run (s := s) second
  obtain ⟨hstart, hleft'⟩ := (Loop.apart_fresh s 1).run (s := s) second
  rw [← hwhole] at hreset hleft
  refine ⟨?_, hleft.trans hleft'.symm, ?_, Session.counter_unseen⟩
  · have hbefore : ((l.ask s).enter (text ":reset")).shown = l.shown.push (.prompt s.config.repl.prompt) := by rw [← hshown]; rfl
    have hfresh : fresh.1.shown = #[] ++ _ := hstart.shown
    rw [hreset.shown, hbefore, hfresh]
    exact Array.ext' (by simp)
  · have hnext : whole.1.session.machine.nextClass = _ + l.session.machine.nextClass := hreset.machines.nextClass
    have hnext' : fresh.1.session.machine.nextClass = _ + 1 := hstart.machines.nextClass
    omega

/-- A loop without files. -/
def bareSetting : Setting where
  config := .default
  input := .ofText []
  watched := false
  load path := .error (.plain path)
  refuses _ := false

/-- A line that defines a class. -/
def classLine : Answer := .line (text "class A \x7b x = 1 \x7d")

/-- After a class and a reset, a class of that name is defined anew and used. -/
theorem reset_forgets_class :
    ∃ l, (Loop.start bareSetting).after bareSetting [classLine] = some l ∧ l.unfinished = [] ∧
      l.session.machine.nextClass = 2 ∧
      ((Loop.start bareSetting).run bareSetting
          ([classLine] ++ .line (text ":reset") :: [classLine, .line (text "A.new.x")])).1.shown =
        l.shown ++ #[.prompt bareSetting.config.repl.prompt, .output (text "session reset\n")] ++
          ((Loop.start bareSetting).run bareSetting [classLine, .line (text "A.new.x")]).1.shown := by
  have hstate : ((Loop.start bareSetting).after bareSetting [classLine]).map
      (fun l => (l.unfinished, l.session.machine.nextClass)) = some ([], 2) := by decide +kernel
  obtain ⟨l, hl, hfields⟩ := Option.map_eq_some_iff.1 hstate
  obtain ⟨hdone, hnext⟩ := Prod.mk.inj hfields
  exact ⟨l, hl, hdone, hnext, (reset_forgets bareSetting [classLine] _ rfl hl hdone).1⟩

end StoneLang.Repl
