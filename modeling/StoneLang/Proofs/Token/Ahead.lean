/-
  The tokens that are still to come.

  A stream scans a line only when a token of it is asked for.  What it will give is settled before: the
  queue, and then the tokens of the lines that are left (`Stream.tokens`).  Looking ahead scans lines and
  changes nothing about that, whether it succeeds or fails; reading takes the first token away.

  After a successful look at the next token the stream is ready (`Stream.Ready`): a second look changes
  nothing at all.
-/
import StoneLang.Proofs.Result
import StoneLang.Token.Stream

namespace StoneLang.Stream

/-- The tokens of lines that are not yet scanned, `line` lines being scanned before them.  A bad line
gives those before its fault, and no end of line. -/
@[grind =] def tokensOf (line : Nat) : List Text → List Token
  | [] => []
  | content :: rest =>
    (match Token.scanLine (line + 1) content with
      | (tokens, none) => tokens ++ [Token.endOfLine (line + 1)]
      | (tokens, some _) => tokens) ++ tokensOf (line + 1) rest

/-- The tokens that a stream has still to give. -/
def tokens (s : Stream) : List Token := s.queue ++ tokensOf s.line s.pending

def Ready (s : Stream) : Prop := s.queue ≠ [] ∨ s.pending = [] ∧ s.broken = none

/-! ## Scanning -/

theorem tokens_fillFrom (broken : Option Text) (i : Nat) (pending : List Text) (queue : List Token) (line : Nat) :
    (finalState (fillFrom broken i pending queue line)).tokens = queue ++ tokensOf line pending := by
  fun_induction fillFrom broken i pending queue line with
  | case5 _ _ _ _ _ _ hscan ih =>
    rw [ih]
    simp [tokensOf, hscan]
  | case6 _ _ _ _ _ _ _ hscan => simp [finalState, tokens, tokensOf, hscan]
  | _ => rfl

theorem tokens_fill (i : Nat) (s : Stream) : (finalState (fill i s)).tokens = s.tokens :=
  tokens_fillFrom s.broken i s.pending s.queue s.line

theorem broken_fillFrom (broken : Option Text) (i : Nat) (pending : List Text) (queue : List Token) (line : Nat) :
    (finalState (fillFrom broken i pending queue line)).broken = broken := by
  fun_induction fillFrom broken i pending queue line <;> simp_all [finalState]

theorem broken_fill (i : Nat) (s : Stream) : (finalState (fill i s)).broken = s.broken :=
  broken_fillFrom s.broken i s.pending s.queue s.line

variable {s : Stream} {t : Token}

theorem fillFrom_of_queue {queue : List Token} (broken : Option Text) (pending : List Text) (h : queue ≠ []) (line : Nat) :
    fillFrom broken 0 pending queue line = .ok () ⟨pending, broken, queue, line⟩ := by
  have hlength : 0 < queue.length := List.length_pos_iff.mpr h
  cases pending <;> cases broken <;> simp [fillFrom, hlength]

theorem fill_of_ready (h : s.Ready) : fill 0 s = .ok () s := by
  obtain ⟨pending, broken, queue, line⟩ := s
  rcases h with h | ⟨rfl, rfl⟩
  · exact fillFrom_of_queue broken pending h line
  · rfl

/-- How the next token comes into the queue: it is there, or the next line is scanned, which may be bad or missing. -/
inductive Fills (s : Stream) : EStateM.Result Failure Stream Unit → Prop where
  | ready (ready : s.Ready) : Fills s (.ok () s)
  | starved {reason : Text} (queue : s.queue = []) (pending : s.pending = []) (broken : s.broken = some reason) :
      Fills s (.error (.plain reason) s)
  | bad {content : Text} {rest : List Text} {scanned : List Token} {cause : Cause} (queue : s.queue = [])
      (pending : s.pending = content :: rest) (scan : Token.scanLine (s.line + 1) content = (scanned, some cause)) :
      Fills s (.error (.atLine cause (s.line + 1)) ⟨rest, s.broken, scanned, s.line + 1⟩)
  | line {content : Text} {rest : List Text} {scanned : List Token} (queue : s.queue = [])
      (pending : s.pending = content :: rest) (scan : Token.scanLine (s.line + 1) content = (scanned, none)) :
      Fills s (.ok () ⟨rest, s.broken, scanned ++ [Token.endOfLine (s.line + 1)], s.line + 1⟩)

theorem fills (s : Stream) : s.Fills (fill 0 s) := by
  by_cases hready : s.Ready
  · rw [fill_of_ready hready]
    exact .ready hready
  · obtain ⟨pending, broken, queue, line⟩ := s
    obtain rfl : queue = [] := Decidable.byContradiction fun hne => hready (.inl hne)
    cases pending with
    | nil =>
      cases broken with
      | none => exact absurd (.inr ⟨rfl, rfl⟩) hready
      | some reason => exact .starved rfl rfl rfl
    | cons content rest =>
      simp only [fill, fillFrom, List.length_nil, Nat.lt_irrefl, if_false, List.nil_append]
      cases hscan : Token.scanLine (line + 1) content with
      | mk scanned fault =>
        cases fault with
        | some cause => exact .bad rfl rfl hscan
        | none =>
          dsimp only
          rw [fillFrom_of_queue _ _ (by simp)]
          exact .line rfl rfl hscan

theorem ready_of_fill (h : fill 0 s = .ok () s') : s'.Ready := by
  have hfills := fills s
  rw [h] at hfills
  cases hfills with
  | ready ready => exact ready
  | line => exact .inl (by simp)

/-! ## Looking and reading -/

theorem peek_eq (s : Stream) :
    peek 0 s = match fill 0 s with
      | .ok _ s' => .ok (s'.queue.head?.getD (.endOfInput s'.line)) s'
      | .error e s' => .error e s' := by
  refine bind_apply.trans ?_
  cases fill 0 s with
  | error e s' => rfl
  | ok _ s' =>
    dsimp only
    rw [List.head?_eq_getElem?]
    rfl

theorem read_eq (s : Stream) :
    read s = match fill 0 s with
      | .ok _ s' => .ok (s'.queue.head?.getD (.endOfInput s'.line)) { s' with queue := s'.queue.tail }
      | .error e s' => .error e s' := by
  refine bind_apply.trans ?_
  cases fill 0 s with
  | error e s' => rfl
  | ok _ s' =>
    obtain ⟨pending, broken, queue, line⟩ := s'
    cases queue <;> rfl

theorem tokens_peek (s : Stream) : (finalState (peek 0 s)).tokens = s.tokens := by
  rw [peek_eq, ← tokens_fill 0 s]
  cases fill 0 s <;> rfl

theorem broken_peek (s : Stream) : (finalState (peek 0 s)).broken = s.broken := by
  rw [peek_eq, ← broken_fill 0 s]
  cases fill 0 s <;> rfl

/-- The token seen is the first of those to come; at the end of the text it is an end of input. -/
theorem peek_eq_ok (h : peek 0 s = .ok t s') :
    s'.Ready ∧ (s.tokens.head? = some t ∨ s.tokens = [] ∧ s.broken = none ∧ t = .endOfInput s'.line) := by
  have htokens := tokens_peek s
  have hbroken := broken_peek s
  rw [h] at htokens hbroken
  change s'.tokens = s.tokens at htokens
  rw [peek_eq] at h
  cases hfill : fill 0 s with
  | error e s₁ =>
    rw [hfill] at h
    cases h
  | ok _ s₁ =>
    rw [hfill] at h
    cases h
    have hready : s'.Ready := ready_of_fill hfill
    refine ⟨hready, ?_⟩
    rw [← htokens, ← hbroken]
    cases hqueue : s'.queue with
    | cons t rest => exact .inl (by simp [tokens, hqueue])
    | nil =>
      rcases hready with hne | ⟨hpending, hends⟩
      · exact absurd hqueue hne
      · exact .inr ⟨by simp [tokens, hqueue, hpending, tokensOf], hends, rfl⟩

theorem peek_of_ready (h : s.Ready) : peek 0 s = .ok (s.queue.head?.getD (.endOfInput s.line)) s := by
  rw [peek_eq, fill_of_ready h]

theorem peek_again (h : peek 0 s = .ok t s') : peek 0 s' = .ok t s' := by
  rw [peek_of_ready (peek_eq_ok h).1]
  rw [peek_eq] at h
  cases hfill : fill 0 s with
  | error e s₁ => rw [hfill] at h; cases h
  | ok _ s₁ => rw [hfill] at h; cases h; rfl

theorem read_of_peek (h : peek 0 s = .ok t s') : read s = read s' := by
  have hready := (peek_eq_ok h).1
  rw [peek_eq] at h
  cases hfill : fill 0 s with
  | error e s₁ =>
    rw [hfill] at h
    cases h
  | ok _ s₁ =>
    rw [hfill] at h
    cases h
    rw [read_eq, read_eq, hfill, fill_of_ready hready]

theorem read_of_ready (h : s.Ready) (ht : s.tokens.head? = some t) :
    ∃ s', read s = .ok t s' ∧ s.tokens = t :: s'.tokens ∧ s'.broken = s.broken ∧
      s'.pending = s.pending ∧ s'.line = s.line := by
  cases hqueue : s.queue with
  | nil =>
    rcases h with h | ⟨hpending, -⟩
    · exact absurd hqueue h
    · simp [tokens, hqueue, hpending, tokensOf] at ht
  | cons first rest =>
    simp only [tokens, hqueue, List.cons_append, List.head?_cons, Option.some.injEq] at ht
    subst ht
    refine ⟨{ s with queue := rest }, ?_, by simp [tokens, hqueue], rfl, rfl, rfl⟩
    rw [read_eq, fill_of_ready h]
    dsimp only
    rw [hqueue]
    rfl

end StoneLang.Stream
