/-
  Reading under other settings.

  PROGRAM: `Language.parseUnit` and `Language.parseUnits`, which stop at a limit of nesting and, if the parse is
  watched, note every named rule that they enter.

  SPEC: two parses of one stream whose limits differ by `k` read the same nodes and fail in the same way, watched or
  not, unless the lower limit is met (`Parse.Agrees`).

  The crux is the note: it looks at the next token, and a look ahead can use up the fault of a bad line.  But a rule is
  entered only where the next token is in the queue, or the text has ended (`Stream.Poised`), and a look ahead finds
  nothing new there.
-/
import StoneLang.Proofs.Grammar.Beginnings

namespace StoneLang

namespace Stream

/-- The place of a stream: the next token is in the queue, or the text has ended, if `poised`. -/
def Poised (poised : Bool) (s : Stream) : Prop := s.Tidy ∧ (poised = true → s.Ready)

theorem poised_ofText (source : Text) (broken : Option Text) : (ofText source broken).Poised false :=
  ⟨⟨nofun, nofun⟩, nofun⟩

theorem tidy_fill {s s' : Stream} (hs : s.Tidy) (h : fill 0 s = .ok () s') : s'.Tidy := by
  have hfills := fills s
  rw [h] at hfills
  cases hfills with
  | ready => exact hs
  | line _ _ scan => exact tidy_scanned scan

end Stream

namespace Parse

variable {α β : Type}

/-! ## Two parses -/

/-- How a parse ends and one whose limit is higher by `k`: alike but for the trace, or the first one at its limit. -/
def Agree (k : Nat) (post : α → Stream → Prop) (left right : EStateM.Result Failure Reading α) : Prop :=
  (∃ trace, right = onState (Reading.withTrace · trace) left ∧ ∀ a s, left = .ok a s → post a s.stream) ∨
    0 < k ∧ ∃ e s, left = .error e s ∧ e.kind = .stackExhausted

/-- From a place of which `pre` holds, the two parses agree, whatever the trace. -/
def Agrees (k : Nat) (x y : Parse α) (pre : Stream → Prop) (post : α → Stream → Prop) : Prop :=
  ∀ r trace, pre r.stream → Agree k post (x r) (y (r.withTrace trace))

variable {k : Nat} {pre : Stream → Prop}

variable {post : α → Stream → Prop} {x : Parse α}

theorem Agrees.pure {a : α} (h : ∀ s, pre s → post a s) : Agrees k (Pure.pure a) (Pure.pure a) pre post := by
  intro r trace hr
  refine .inl ⟨trace, rfl, fun b s hok => ?_⟩
  cases hok
  exact h r.stream hr

theorem Agrees.throw (e : Failure) : Agrees k (MonadExcept.throw e) (MonadExcept.throw e) pre post :=
  fun _ trace _ => .inl ⟨trace, rfl, nofun⟩

theorem Agrees.bind {y : Parse α} {f g : α → Parse β} {mid : α → Stream → Prop} {post : β → Stream → Prop}
    (hx : Agrees k x y pre mid) (hf : ∀ a, Agrees k (f a) (g a) (mid a) post) :
    Agrees k (x >>= f) (y >>= g) pre post := by
  intro r trace hr
  rw [bind_apply, bind_apply]
  rcases hx r trace hr with ⟨trace', hright, hmid⟩ | ⟨hk, e, s, hleft, he⟩
  · rw [hright]
    cases hleft : x r with
    | ok a s => exact hf a s trace' (hmid a s hleft)
    | error e s => exact .inl ⟨trace', rfl, nofun⟩
  · rw [hleft]
    exact .inr ⟨hk, e, s, rfl, he⟩

theorem Agrees.weaken {y : Parse α} {pre' : Stream → Prop} {post' : α → Stream → Prop} (h : Agrees k x y pre post)
    (hpre : ∀ s, pre' s → pre s) (hpost : ∀ a s, post a s → post' a s) :
    Agrees k x y pre' post' := by
  intro r trace hr
  rcases h r trace (hpre _ hr) with ⟨trace', hright, hholds⟩ | hdeep
  · exact .inl ⟨trace', hright, fun a s hok => hpost a s.stream (hholds a s hok)⟩
  · exact .inr hdeep

/-! ## Tokens -/

theorem onStream_withTrace (action : EStateM Failure Stream α) (r : Reading) (trace : Array Record) :
    onStream action (r.withTrace trace) = onState (Reading.withTrace · trace) (onStream action r) := by
  unfold onStream Reading.withTrace
  cases action r.stream <;> rfl

theorem agrees_peek (poised : Bool) : Agrees k peek peek (Stream.Poised poised) (Fronts Stream.Poised) := by
  intro r trace hr
  refine .inl ⟨trace, onStream_withTrace _ r trace, fun t r' hok => ?_⟩
  obtain ⟨s, hpeek, rfl⟩ := peek_eq_ok.mp hok
  rw [Stream.peek_eq] at hpeek
  cases hfill : Stream.fill 0 r.stream with
  | error e s' =>
    rw [hfill] at hpeek
    cases hpeek
  | ok _ s' =>
    rw [hfill] at hpeek
    cases hpeek
    exact ⟨⟨Stream.tidy_fill hr.1 hfill, fun _ => Stream.ready_of_fill hfill⟩, rfl⟩

/-- Reading takes the token that was seen; the next one is in the queue, unless the line has ended. -/
theorem agrees_read (t : Token) :
    Agrees k read read (Fronts Stream.Poised t) (fun t' s => t' = t ∧ s.Poised (!t.isEndOfLine)) := by
  intro r trace hr
  obtain ⟨⟨htidy, hready⟩, hseen⟩ := hr
  have hread : Stream.read r.stream = .ok t { r.stream with queue := r.stream.queue.tail } := by
    rw [Stream.read_eq, Stream.fill_of_ready (hready rfl), ← hseen]
  refine .inl ⟨trace, onStream_withTrace _ r trace, fun t' s hok => ?_⟩
  unfold read onStream at hok
  rw [hread] at hok
  cases hok
  refine ⟨rfl, ⟨fun last hlast => ?_, fun other hother => htidy.inside other (List.mem_of_mem_tail hother)⟩, fun hword => ?_⟩
  · refine htidy.ends last ?_
    change r.stream.queue.tail.getLast? = some last at hlast
    cases hqueue : r.stream.queue with
    | nil => rw [hqueue] at hlast; cases hlast
    | cons first rest =>
      rw [hqueue, List.tail_cons] at hlast
      rw [List.getLast?_cons, hlast]
      rfl
  · -- a queue with one token left holds the end of a line
    rcases hready rfl with hne | hended
    · cases hqueue : r.stream.queue with
      | nil => exact absurd hqueue hne
      | cons first rest =>
        rw [hqueue, List.head?_cons, Option.getD_some] at hseen
        refine .inl fun hnil => ?_
        change rest = [] at hnil
        have hlast := htidy.ends first (by rw [hqueue, hnil]; rfl)
        rw [← hseen, hlast] at hword
        cases hword
    · exact .inr hended

end Parse

namespace Language

open Parse

variable {l : Layers} {k : Nat}

/-! ## Rules -/

theorem agrees_noteEntry (settings settings' : ParseSettings) (title : Text) (depth depth' : Nat) :
    Agrees k (Grammar.noteEntry settings title depth) (Grammar.noteEntry settings' title depth') (Stream.Poised true)
      fun _ => Stream.Poised true := by
  intro r trace hr
  obtain ⟨trace₁, hleft⟩ := noteEntry_of_ready settings title depth (hr.2 rfl)
  have hready : (r.withTrace trace).stream.Ready := hr.2 rfl
  obtain ⟨trace₂, hright⟩ := noteEntry_of_ready settings' title depth' hready
  rw [hleft, hright]
  refine .inl ⟨trace₂, rfl, fun a s hok => ?_⟩
  cases hok
  exact hr

theorem agrees_abreast : Abreast Eq Stream.Poised fun x y pre post _ => Agrees k x y pre post where
  loosen hloose hs := ⟨hs.1, fun h => hs.2 (hloose h)⟩
  pure := .pure
  throw _ := .throw _
  bind hx hf _ := hx.bind hf
  weaken h hpre hpost _ := h.weaken hpre hpost
  answered h r trace hr := by
    obtain ⟨t, hseen, hanswer⟩ := hr
    exact h t hanswer r trace hseen
  peek := agrees_peek
  read := agrees_read
  freshSite r trace hr := by
    refine .inl ⟨trace, rfl, fun a s hok => ?_⟩
    cases hok
    exact hr
  mismatch _ := (agrees_peek true).bind fun _ => .throw _
  noteEntry := agrees_noteEntry
  rounds h r trace hr := h r.bound r.bound rfl r trace hr
  later {n n'} h := ⟨n, h.symm, rfl⟩
  spent h hy := by
    subst h
    rw [hy]
    exact .throw _

theorem agrees_parseWithin {settings settings' : ParseSettings} (hdepth : settings'.maxDepth = settings.maxDepth + k)
    (levels : Nat) (p : Phrase) :
    Enters Stream.Poised (fun x y pre post _ => Agrees k x y pre post) ((grammar l).parseWithin settings levels)
      ((grammar l).parseWithin settings' (levels + k)) p := by
  refine abreast_parseWithin agrees_abreast settings settings' k (fun p r trace hr => ?_) levels p
  rw [parseWithin_zero settings p (hr.2 rfl)]
  by_cases hk : 0 < k
  · exact .inr ⟨hk, _, _, rfl, rfl⟩
  · obtain rfl : k = 0 := by omega
    have hready : (r.withTrace trace).stream.Ready := hr.2 rfl
    rw [parseWithin_zero settings' p hready, hdepth]
    exact .inl ⟨trace, rfl, fun _ _ hok => by cases hok⟩

theorem agrees_turn (settings settings' : ParseSettings) (hdepth : settings'.maxDepth = settings.maxDepth + k) :
    Agrees k (turn l settings) (turn l settings') (Stream.Poised false) fun _ => Stream.Poised false := by
  have hunit := @agrees_parseWithin l k settings settings' hdepth settings.maxDepth .program
  rw [← hdepth] at hunit
  have hend := (agrees_abreast (k := k)).asks (show Asks atEnd Token.isEndOfInput from rfl) false
  refine (hend.weaken (fun _ => id) fun _ _ hs => hs.place).bind fun finished => ?_
  have hloose : ∀ s, Stream.Poised true s → Stream.Poised false s := fun s hs => ⟨hs.1, nofun⟩
  cases finished with
  | true => exact .pure hloose
  | false => exact Agrees.bind hunit fun _ => .pure fun s hs => ⟨hs.1, nofun⟩

theorem agrees_parseUnits (settings settings' : ParseSettings) (hdepth : settings'.maxDepth = settings.maxDepth + k)
    (bound : Nat) {r : Reading} (hr : r.stream.Poised false) (trace : Array Record) :
    (∃ trace', parseUnits l settings' bound (r.withTrace trace)
        = ((parseUnits l settings bound r).1, (parseUnits l settings bound r).2.withTrace trace')) ∨
      0 < k ∧ ∃ e, (parseUnits l settings bound r).1.failure = some e ∧ e.kind = .stackExhausted := by
  induction bound generalizing r trace with
  | zero => exact .inl ⟨trace, rfl⟩
  | succ bound ih =>
    rw [parseUnits_turn, parseUnits_turn]
    rcases @agrees_turn l k settings settings' hdepth r trace hr with ⟨trace₁, hright, hholds⟩ | ⟨hk, e, s, hleft, he⟩
    · rw [hright]
      cases hturn : turn l settings r with
      | error e s => exact .inl ⟨trace₁, rfl⟩
      | ok found s =>
        cases found with
        | none => exact .inl ⟨trace₁, rfl⟩
        | some unit =>
          dsimp only [onState]
          rcases ih (hholds _ s hturn) trace₁ with ⟨trace₂, hrest⟩ | hdeep
          · exact .inl ⟨trace₂, by rw [hrest]⟩
          · exact .inr hdeep
    · rw [hleft]
      exact .inr ⟨hk, e, rfl, he⟩

end Language

end StoneLang
