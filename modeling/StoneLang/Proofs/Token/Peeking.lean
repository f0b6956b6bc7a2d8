/-
  Looking ahead cannot be noticed.

  PROGRAM: `Stream.read` and `Stream.peek i` on the stream of a text, in any order.

  SPEC: if every line can be scanned, the reads give the tokens of the text one after the other, and the end of the
  input for ever after; a look `i` places ahead gives what the read `i` places later gives
  (`Stream.peeking_is_invisible`).

  What has been scanned ahead differs from one order to the next.  What is still to come does not (`Stream.upcoming`):
  filling the queue moves tokens from the lines into it, and at the end of the text all lines are counted.
-/
import StoneLang.Proofs.Token.Beginnings

namespace StoneLang.Stream

/-- What can be done with a stream. -/
inductive Operation where
  | read
  | peek (i : Nat)

def Operation.perform : Operation → EStateM Failure Stream Token
  | .read => Stream.read
  | .peek i => Stream.peek i

/-- The tokens that operations give, one after the other. -/
def performAll : List Operation → EStateM Failure Stream (List Token)
  | [] => return []
  | operation :: rest => do
    let t ← operation.perform
    let more ← performAll rest
    return t :: more

/-- The tokens of a row, the last of them for ever. -/
def lasting (tokens : List Token) (place : Nat) : Token :=
  (tokens[place]?).getD (tokens.getLastD (.endOfInput 0))

/-- What operations are to give where the tokens before `place` have been read. -/
def answers (tokens : Nat → Token) : Nat → List Operation → List Token
  | _, [] => []
  | place, .read :: rest => tokens place :: answers tokens (place + 1) rest
  | place, .peek i :: rest => tokens (place + i) :: answers tokens place rest

/-! ## What is to come -/

def lines (s : Stream) : Nat := s.line + s.pending.length

def upcoming (s : Stream) (i : Nat) : Token := (s.tokens[i]?).getD (.endOfInput s.lines)

variable {s : Stream} {line : Nat} {pending : List Text}

/-- Filling the queue keeps what is to come, and then the token is in the queue or the text has ended. -/
theorem fill_of_clean (h : s.Clean) (i : Nat) :
    ∃ s', fill i s = .ok () s' ∧ s'.Clean ∧ s'.upcoming = s.upcoming ∧
      (s'.queue[i]?).getD (.endOfInput s'.line) = s.upcoming i := by
  obtain ⟨s', hfill, hclean, hlines, hends⟩ := fillFrom_clean i s.queue h.2
  rw [← h.1] at hfill
  have htokens := tokens_fill i s
  rw [show fill i s = .ok () s' from hfill] at htokens
  have hsame : s'.upcoming = s.upcoming := by
    funext j
    show (s'.tokens[j]?).getD _ = (s.tokens[j]?).getD _
    rw [show s'.tokens = s.tokens from htokens, show s'.lines = s.lines from hlines]
  refine ⟨s', hfill, hclean, hsame, ?_⟩
  rw [← hsame, upcoming, tokens]
  rcases hends with hlength | hpending
  · rw [List.getElem?_append_left hlength, List.getElem?_eq_getElem hlength]
    rfl
  · simp [lines, hpending, tokensOf]

theorem peek_of_clean (h : s.Clean) (i : Nat) :
    ∃ s', peek i s = .ok (s.upcoming i) s' ∧ s'.Clean ∧ s'.upcoming = s.upcoming := by
  obtain ⟨s', hfill, hclean, hsame, hseen⟩ := fill_of_clean h i
  refine ⟨s', ?_, hclean, hsame⟩
  rw [← hseen]
  exact bind_of_ok hfill

theorem read_of_clean (h : s.Clean) :
    ∃ s', read s = .ok (s.upcoming 0) s' ∧ s'.Clean ∧ ∀ i, s'.upcoming i = s.upcoming (i + 1) := by
  obtain ⟨s', hfill, hclean, hsame, hseen⟩ := fill_of_clean h 0
  refine ⟨{ s' with queue := s'.queue.tail }, ?_, hclean, fun i => ?_⟩
  · rw [read_eq, hfill, ← hseen, ← List.head?_eq_getElem?]
  · rw [← hsame]
    cases hqueue : s'.queue with
    | cons t rest => simp [upcoming, tokens, lines, hqueue]
    | nil =>
      -- the queue is empty after filling only where the text has ended
      rcases ready_of_fill hfill with hne | ⟨hpending, -⟩
      · exact absurd hqueue hne
      · simp [upcoming, tokens, lines, hqueue, hpending, tokensOf]

/-! ## Rows of operations -/

theorem performAll_of_clean {tokens : Nat → Token} {place : Nat} (operations : List Operation) (h : s.Clean)
    (hplace : ∀ i, s.upcoming i = tokens (place + i)) :
    ∃ s', performAll operations s = .ok (answers tokens place operations) s' ∧ s'.Clean ∧
      ∃ place', ∀ i, s'.upcoming i = tokens (place' + i) := by
  induction operations generalizing s place with
  | nil => exact ⟨s, rfl, h, place, hplace⟩
  | cons operation rest ih =>
    cases operation with
    | read =>
      obtain ⟨s₁, hread, hclean, hnext⟩ := read_of_clean h
      have hplace₁ : ∀ i, s₁.upcoming i = tokens (place + 1 + i) := by
        intro i
        rw [hnext, hplace, Nat.add_right_comm, Nat.add_assoc]
      obtain ⟨s', hrest, hends⟩ := ih hclean hplace₁
      rw [hplace 0] at hread
      exact ⟨s', (bind_of_ok hread).trans (bind_of_ok hrest), hends⟩
    | peek i =>
      obtain ⟨s₁, hpeek, hclean, hsame⟩ := peek_of_clean h i
      obtain ⟨s', hrest, hends⟩ := ih hclean (hsame ▸ hplace)
      rw [hplace i] at hpeek
      exact ⟨s', (bind_of_ok hpeek).trans (bind_of_ok hrest), hends⟩

theorem answers_reads (tokens : Nat → Token) (place n : Nat) :
    (answers tokens place (List.replicate (n + 1) .read)).getLast? = some (tokens (place + n)) := by
  induction n generalizing place with
  | zero => rfl
  | succ n ih =>
    rw [List.replicate_succ, answers, List.getLast?_cons, ih, Nat.add_right_comm]
    rfl

/-! ## The stream of a text -/

theorem tokenizeLines_of_scans (h : Scans line pending) :
    Token.tokenizeLines none line pending
      = (tokensOf line pending ++ [.endOfInput ((line + pending.length : Nat) : Int)], none) := by
  induction pending generalizing line with
  | nil => rfl
  | cons content rest ih =>
    obtain ⟨hscan, hrest⟩ := h
    rw [Token.tokenizeLines, tokensOf, ih hrest, List.length_cons]
    cases hline : Token.scanLine (line + 1) content with
    | mk scanned fault =>
      obtain rfl : fault = none := by rwa [hline] at hscan
      simp [Nat.add_assoc, Nat.add_comm 1]

theorem upcoming_ofSource (h : (ofSource source).Scannable) :
    (ofSource source).upcoming = lasting (Token.tokenize source).1 := by
  have hlines : Scans 0 (deliveredLines source none) := h
  funext i
  rw [Token.tokenize, tokenizeLines_of_scans hlines]
  simp only [upcoming, lasting, tokens, lines, ofSource, ofText, List.nil_append, List.getLastD_concat]
  rw [List.getElem?_append]
  split
  · rfl
  · rename_i hge
    rw [List.getElem?_eq_none (Nat.le_of_not_lt hge)]
    cases i - (tokensOf 0 (deliveredLines source none)).length <;> rfl

/-- On a text whose lines can all be scanned, reads give the tokens of the text one after the other, the last one for
ever, and looks ahead give those to come, in whatever order they are made.  After any of them, a look `i` places ahead
gives the last of the next `i + 1` reads. -/
theorem peeking_is_invisible (source : Text) (h : (ofSource source).Scannable) (operations : List Operation) :
    ∃ s, performAll operations (ofSource source)
        = .ok (answers (lasting (Token.tokenize source).1) 0 operations) s ∧
      ∀ i, ∃ t s' given s'', peek i s = .ok t s' ∧
        performAll (List.replicate (i + 1) .read) s' = .ok given s'' ∧ given.getLast? = some t := by
  have hstart : ∀ i, (ofSource source).upcoming i = lasting (Token.tokenize source).1 (0 + i) := by
    intro i
    rw [upcoming_ofSource h, Nat.zero_add]
  obtain ⟨s, hgiven, hclean, place, hplace⟩ := performAll_of_clean operations ⟨rfl, h⟩ hstart
  refine ⟨s, hgiven, fun i => ?_⟩
  obtain ⟨s', hpeek, hclean', hsame⟩ := peek_of_clean hclean i
  obtain ⟨s'', hreads, -⟩ := performAll_of_clean (List.replicate (i + 1) .read) hclean' (hsame ▸ hplace)
  rw [hplace i] at hpeek
  exact ⟨_, s', _, s'', hpeek, hreads, answers_reads _ _ _⟩

/-- A look past the end, before anything is read. -/
theorem peeking_past_the_end :
    (ofSource (text "a\nb")).Scannable ∧ ∃ s, performAll [.peek 9, .peek 2, .read, .peek 0] (ofSource (text "a\nb"))
      = .ok [.endOfInput 2, ⟨.identifier, text "b", 0, 2⟩, ⟨.identifier, text "a", 0, 1⟩, .endOfLine 1] s := by
  have hscans : (ofSource (text "a\nb")).Scannable := ⟨by decide, by decide, trivial⟩
  obtain ⟨s, hgiven, -⟩ := peeking_is_invisible (text "a\nb") hscans [.peek 9, .peek 2, .read, .peek 0]
  exact ⟨hscans, s, hgiven.trans (congrArg (EStateM.Result.ok · s) (by decide))⟩

end StoneLang.Stream
