/-
  Watching a parse.

  PROGRAM: `Grammar.parse` by any rule of any grammar.  A watched parse notes each named rule as it is entered, with the
  token that comes next, and looks at the stream for it.

  SPEC: the watched parse and the plain one end with the same node or the same failure, and leave streams that go on
  in the same way, provided that every line the watched parse takes can be scanned
  (`Grammar.parse_watched`).

  The proviso is needed.  A bad line is reported once, when it is scanned.  If it is scanned for a note, the report is
  dropped, and the parse goes on with the tokens before the fault, where the plain parse fails.

  Two streams are at the same place if filling their queues gives the same (`Reading.Alike`): every look and every read
  fills the queue first.
-/
import StoneLang.Proofs.Grammar.Derivation
import StoneLang.Proofs.Token.Beginnings

namespace StoneLang

/-! ## Lines that are taken -/

namespace Stream

/-- The second stream is the first one after the lines `taken` have been scanned. -/
structure Took (s : Stream) (taken : List Text) (s' : Stream) : Prop where
  pending : s.pending = taken ++ s'.pending
  line : s'.line = s.line + taken.length

/-- The second stream is the first one after some lines have been scanned. -/
def Advances (s s' : Stream) : Prop := ∃ taken, s.Took taken s'

def Loses (s s' : Stream) : Prop := ∃ taken, s.Took taken s' ∧ ¬Scans s.line taken

theorem Took.nil (s : Stream) : s.Took [] s := ⟨rfl, rfl⟩

variable {s s₁ s₂ : Stream}

theorem Took.append (h : s.Took taken s₁) (hmore : s₁.Took more s₂) :
    s.Took (taken ++ more) s₂ := by
  refine ⟨?_, ?_⟩
  · rw [h.pending, hmore.pending, List.append_assoc]
  · rw [hmore.line, h.line, List.length_append]
    omega

theorem Advances.refl (s : Stream) : s.Advances s := ⟨[], .nil s⟩

theorem Advances.trans (h : s.Advances s₁) (h' : s₁.Advances s₂) : s.Advances s₂ := by
  obtain ⟨taken, htook⟩ := h
  obtain ⟨more, hmore⟩ := h'
  exact ⟨taken ++ more, htook.append hmore⟩

theorem Loses.trans (h : s.Loses s₁) (h' : s₁.Advances s₂) : s.Loses s₂ := by
  obtain ⟨taken, htook, hbad⟩ := h
  obtain ⟨more, hmore⟩ := h'
  exact ⟨taken ++ more, htook.append hmore, fun hscans => hbad (scans_append.mp hscans).1⟩

theorem Advances.loses (h : s.Advances s₁) (h' : s₁.Loses s₂) : s.Loses s₂ := by
  obtain ⟨taken, htook⟩ := h
  obtain ⟨more, hmore, hbad⟩ := h'
  refine ⟨taken ++ more, htook.append hmore, fun hscans => hbad ?_⟩
  rw [htook.line]
  exact (scans_append.mp hscans).2

theorem took_fillFrom (broken : Option Text) (i : Nat) (pending : List Text) (queue : List Token) (line : Nat) :
    Advances ⟨pending, broken, queue, line⟩ (finalState (fillFrom broken i pending queue line)) := by
  fun_induction fillFrom broken i pending queue line with
  | case5 content _ _ _ _ _ _ ih => exact .trans ⟨[content], rfl, rfl⟩ ih
  | case6 content => exact ⟨[content], rfl, rfl⟩
  | _ => subst_eqs; exact .refl _

theorem advances_fill (s : Stream) : s.Advances (finalState (fill 0 s)) :=
  took_fillFrom s.broken 0 s.pending s.queue s.line

/-- A stream whose queue has been filled is filled again in the same way, unless a bad line was scanned. -/
theorem fill_finalState (s : Stream) :
    fill 0 (finalState (fill 0 s)) = fill 0 s ∨ s.Loses (finalState (fill 0 s)) := by
  have hfills := fills s
  generalize hfill : fill 0 s = filled at hfills ⊢
  cases hfills with
  | ready ready => exact .inl (fill_of_ready ready)
  | starved => exact .inl hfill
  | @bad content _ _ _ _ hpending hscan =>
    refine .inr ⟨[content], ⟨hpending, rfl⟩, fun hscans => ?_⟩
    have hnone := hscans.1
    rw [hscan] at hnone
    cases hnone
  | line => exact .inl (fill_of_ready (ready_of_fill hfill))

end Stream

/-! ## Two parses -/

/-- The two parses are at the same place, whatever they have noted. -/
structure Reading.Alike (r r' : Reading) : Prop where
  stream : Stream.fill 0 r.stream = Stream.fill 0 r'.stream
  bound : r.bound = r'.bound
  site : r.nextSite = r'.nextSite

theorem Reading.Alike.tokens {r r' : Reading} (h : r.Alike r') : r.stream.tokens = r'.stream.tokens := by
  rw [← Stream.tokens_fill 0 r.stream, h.stream, Stream.tokens_fill]

theorem Reading.Alike.read {r r' : Reading} (h : r.Alike r') : Stream.read r.stream = Stream.read r'.stream := by
  rw [Stream.read_eq, Stream.read_eq, h.stream]

namespace Parse

variable {α β ι : Type}

/-- How a parse from the stream `s` ends and another one: in the same way, or the first one has taken a bad line. -/
inductive Outcome (s : Stream) : EStateM.Result Failure Reading α → EStateM.Result Failure Reading α → Prop
  | ok {a : α} {r r' : Reading} (alike : r.Alike r') : Outcome s (.ok a r) (.ok a r')
  | error {e : Failure} {r r' : Reading} (alike : r.Alike r') : Outcome s (.error e r) (.error e r')
  | lost {left right : EStateM.Result Failure Reading α} (loses : s.Loses (finalState left).stream) :
      Outcome s left right

/-- From the same place the two parses end in the same way, unless the first one takes a bad line. -/
structure Shadows (x y : Parse α) : Prop where
  advances : ∀ r : Reading, r.stream.Advances (finalState (x r)).stream
  agrees : ∀ r r' : Reading, r.Alike r' → Outcome r.stream (x r) (y r')

namespace Shadows

theorem pure (a : α) : Shadows (Pure.pure a) (Pure.pure a) := ⟨fun _ => .refl _, fun _ _ h => .ok h⟩

theorem throw (e : Failure) : Shadows (MonadExcept.throw e : Parse α) (MonadExcept.throw e) :=
  ⟨fun _ => .refl _, fun _ _ h => .error h⟩

theorem bind (hx : Shadows x y) (hf : ∀ a, Shadows (f a) (g a)) :
    Shadows (x >>= f) (y >>= g) := by
  refine ⟨fun r => ?_, fun r r' halike => ?_⟩
  · exact finalState_bind (P := (r.stream.Advances ·.stream)) (hx.advances r) fun a s _ h => h.trans ((hf a).advances s)
  · have hfirst := hx.advances r
    have houtcome := hx.agrees r r' halike
    rw [bind_apply, bind_apply]
    generalize x r = left at hfirst houtcome
    generalize y r' = right at houtcome
    cases houtcome with
    | @ok a s s' alike =>
      have hnext := (hf a).agrees s s' alike
      dsimp only
      generalize f a s = left at hnext
      generalize g a s' = right at hnext
      cases hnext with
      | ok alike => exact .ok alike
      | error alike => exact .error alike
      | lost loses => exact .lost (hfirst.loses loses)
    | error alike => exact .error alike
    | lost loses =>
      cases left with
      | ok a s => exact .lost (loses.trans ((hf a).advances s))
      | error e s => exact .lost loses

theorem onStream (answer : Unit → Stream → α) (rest : Stream → Stream)
    (hrest : ∀ s : Stream, s.Advances (rest s))
    (haction : ∀ s, action s = match Stream.fill 0 s with
      | .ok u s' => .ok (answer u s') (rest s')
      | .error e s' => .error e s') : Shadows (Parse.onStream action) (Parse.onStream action) := by
  refine ⟨fun r => ?_, fun r r' halike => ?_⟩
  · have hadvances := Stream.advances_fill r.stream
    simp only [Parse.onStream, haction]
    cases hfill : Stream.fill 0 r.stream with
    | ok u s =>
      rw [hfill] at hadvances
      exact hadvances.trans (hrest s)
    | error e s => rwa [hfill] at hadvances
  · simp only [Parse.onStream, haction, halike.stream]
    cases Stream.fill 0 r'.stream with
    | ok u s => exact .ok ⟨rfl, halike.bound, halike.site⟩
    | error e s => exact .error ⟨rfl, halike.bound, halike.site⟩

theorem peek : Shadows Parse.peek Parse.peek :=
  onStream (fun _ s => s.queue.head?.getD (.endOfInput s.line)) id Stream.Advances.refl Stream.peek_eq

theorem read : Shadows Parse.read Parse.read :=
  onStream (fun _ s => s.queue.head?.getD (.endOfInput s.line)) (fun s => { s with queue := s.queue.tail })
    (fun _ => ⟨[], rfl, rfl⟩) Stream.read_eq

theorem peekAnyway : Shadows Parse.peekAnyway Parse.peekAnyway := by
  refine ⟨fun r => ?_, fun r r' halike => ?_⟩
  · have hadvances := peek.advances r
    unfold Parse.peekAnyway
    cases hpeek : Parse.peek r with
    | ok t s => rwa [hpeek] at hadvances
    | error e s => rwa [hpeek] at hadvances
  · have houtcome := peek.agrees r r' halike
    unfold Parse.peekAnyway
    generalize Parse.peek r = left at houtcome
    generalize Parse.peek r' = right at houtcome
    cases houtcome with
    | ok alike => exact .ok alike
    | error alike => exact .ok alike
    | lost loses => cases left <;> exact .lost loses

theorem freshSite : Shadows Parse.freshSite Parse.freshSite := by
  refine ⟨fun _ => .refl _, fun r r' halike => ?_⟩
  have hleft : Parse.freshSite r = .ok r.nextSite { r with nextSite := r.nextSite + 1 } := rfl
  have hright : Parse.freshSite r' = .ok r'.nextSite { r' with nextSite := r'.nextSite + 1 } := rfl
  rw [hleft, hright, halike.site]
  exact .ok ⟨halike.stream, halike.bound, rfl⟩

theorem paired : Paired Shadows Eq where
  pure := pure
  throw _ := throw _
  bind := bind
  peek := peek
  peekAnyway := peekAnyway
  read := read
  freshSite := freshSite
  rounds h := by
    refine ⟨fun r => (h r.bound r.bound rfl).advances r, fun r r' halike => ?_⟩
    exact (h r.bound r'.bound halike.bound).agrees r r' halike
  cut h := .inl h.symm
  round h := ⟨_, h.symm, rfl⟩

/-- Entering a rule: only the note looks at the stream, and it finds what the next look would find. -/
theorem noteEntry (maxDepth : Nat) (title : Text) (depth : Nat) :
    Shadows (Grammar.noteEntry ⟨maxDepth, true⟩ title depth) (Grammar.noteEntry ⟨maxDepth, false⟩ title depth) := by
  by_cases htitle : title = []
  · subst htitle
    exact pure ()
  -- after the note the stream is the one whose queue has been filled
  have hnote : ∀ r, ∃ trace, Grammar.noteEntry ⟨maxDepth, true⟩ title depth r
      = .ok () { r with stream := finalState (Stream.fill 0 r.stream), trace } := by
    intro r
    have hwatched : (true && title != []) = true := by simpa using htitle
    obtain ⟨t, hpeek⟩ : ∃ t, Parse.peekAnyway r = .ok t { r with stream := finalState (Stream.fill 0 r.stream) } := by
      unfold Parse.peekAnyway Parse.peek Parse.onStream
      rw [Stream.peek_eq]
      cases Stream.fill 0 r.stream with
      | ok u s => exact ⟨_, rfl⟩
      | error e s => exact ⟨_, rfl⟩
    unfold Grammar.noteEntry
    rw [if_pos hwatched, bind_of_ok hpeek]
    exact ⟨_, rfl⟩
  refine ⟨fun r => ?_, fun r r' halike => ?_⟩
  · obtain ⟨trace, hleft⟩ := hnote r
    rw [hleft]
    exact Stream.advances_fill r.stream
  · obtain ⟨trace, hleft⟩ := hnote r
    have hright : Grammar.noteEntry ⟨maxDepth, false⟩ title depth r' = .ok () r' := rfl
    rw [hleft, hright]
    exact (Stream.fill_finalState r.stream).elim
      (fun hsame => .ok ⟨hsame.trans halike.stream, halike.bound, halike.site⟩) fun hloses => .lost hloses

theorem parseWithin (g : Grammar ι) (maxDepth levels : Nat) (p : ι) :
    Shadows (g.parseWithin ⟨maxDepth, true⟩ levels p) (g.parseWithin ⟨maxDepth, false⟩ levels p) :=
  @Paired.parseWithin _ _ paired _ g (fun _ _ _ => .inr throw) ⟨maxDepth, true⟩ ⟨maxDepth, false⟩ rfl (noteEntry maxDepth)
    levels p

end Shadows

end Parse

/-! ## Watching changes nothing -/

/-- The two parses end with the same node or the same failure, and their streams go on in the same way. -/
def EndAlike : EStateM.Result Failure Reading Node → EStateM.Result Failure Reading Node → Prop
  | .ok node r, .ok node' r' =>
    node = node' ∧ r.stream.tokens = r'.stream.tokens ∧ Stream.read r.stream = Stream.read r'.stream
  | .error e r, .error e' r' =>
    e = e' ∧ r.stream.tokens = r'.stream.tokens ∧ Stream.read r.stream = Stream.read r'.stream
  | _, _ => False

/-- Watching does not change how a parse by a rule ends, if the watched parse takes no bad line. -/
theorem Grammar.parse_watched {ι : Type} (g : Grammar ι) (maxDepth : Nat) (p : ι) (r : Reading)
    (h : ∀ taken, r.stream.Took taken (finalState (g.parse ⟨maxDepth, true⟩ p r)).stream →
      Stream.Scans r.stream.line taken) :
    EndAlike (g.parse ⟨maxDepth, true⟩ p r) (g.parse ⟨maxDepth, false⟩ p r) := by
  have houtcome := (Parse.Shadows.parseWithin g maxDepth maxDepth p).agrees r r ⟨rfl, rfl, rfl⟩
  change Parse.Outcome r.stream (g.parse ⟨maxDepth, true⟩ p r) (g.parse ⟨maxDepth, false⟩ p r) at houtcome
  generalize g.parse ⟨maxDepth, true⟩ p r = left at h houtcome
  generalize g.parse ⟨maxDepth, false⟩ p r = right at houtcome
  cases houtcome with
  | ok alike => exact ⟨rfl, alike.tokens, alike.read⟩
  | error alike => exact ⟨rfl, alike.tokens, alike.read⟩
  | lost loses =>
    obtain ⟨taken, htook, hbad⟩ := loses
    exact absurd (h taken htook) hbad

/-- A rule with a name that reads a number. -/
def Book.ofNumber : Book := (Book.empty.begin ⟨text "r", [], none⟩).2.append 0 (.token .number .number)

/-- A bad line that the parse does not come to makes no difference.  One that it comes to does: the plain parse reports
it, and the watched one reads the number before the fault. -/
theorem Grammar.parse_watched_number :
    EndAlike (Book.ofNumber.grammar.parse ⟨10, true⟩ 0 (.start (.ofSource (text "1\n2 é")) 0))
      (Book.ofNumber.grammar.parse ⟨10, false⟩ 0 (.start (.ofSource (text "1\n2 é")) 0)) ∧
    (∃ r, Book.ofNumber.grammar.parse ⟨10, true⟩ 0 (.start (.ofSource (text "1 é")) 0)
      = .ok (.number ⟨text "1", 1⟩ 1) r) ∧
    ∃ r, Book.ofNumber.grammar.parse ⟨10, false⟩ 0 (.start (.ofSource (text "1 é")) 0)
      = .error (.atLine (.badToken 0xC3) 1) r := by
  refine ⟨?_, ⟨_, rfl⟩, ⟨_, rfl⟩⟩
  refine Grammar.parse_watched _ 10 0 _ fun taken htook => ?_
  -- one line has been taken, and it can be scanned
  have hline : taken.length = 1 := by
    have hcount := htook.line
    change 1 = 0 + taken.length at hcount
    omega
  obtain ⟨content, rfl⟩ := List.length_eq_one_iff.mp hline
  have hcontent : content = text "1" := (List.cons.inj htook.pending).1.symm
  rw [hcontent]
  exact ⟨by decide, trivial⟩

end StoneLang
