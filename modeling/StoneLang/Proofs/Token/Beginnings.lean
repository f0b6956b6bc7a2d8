/-
  The beginning of a text.

  A stream whose reader fails after the last line stands for a text of which only the beginning is known: as
  long as that failure is not met, the stream does what every longer text does (`Stream.Begins`).

  The queue of a stream is filled a line at a time, and every line that can be scanned ends with the token of
  its end (`Stream.Tidy`).  So between two tokens of one line the queue is not empty (`Stream.Stands`), and a look
  ahead scans nothing.
-/
import StoneLang.Proofs.Grammar.Reading
import StoneLang.Proofs.Token.Ahead

namespace StoneLang

namespace Token

theorem Lexeme.isEndOfInput_token? {line : Int} {lexeme : Lexeme} {t : Token}
    (h : lexeme.token? line = .ok (some t)) : t.isEndOfInput = false := by
  unfold token? at h
  split at h
  · cases h
  · split at h <;> cases h
    rfl
  · cases h
    rfl
  · split at h <;> cases h
    rfl

theorem isEndOfInput_scanFrom {line : Int} {covered : Nat} {content : Text} :
    ∀ t ∈ (scanFrom line covered content).1, t.isEndOfInput = false := by
  fun_induction scanFrom line covered content with
  | case2 _ _ _ ih => exact ih
  | case3 _ _ _ ih => exact ih
  | case6 _ _ _ _ _ token htoken _ _ hmore ih =>
    rw [hmore] at ih
    intro t ht
    simp only [List.mem_append, Option.mem_toList] at ht
    rcases ht with rfl | ht
    · exact Lexeme.isEndOfInput_token? htoken
    · exact ih t ht
  | _ => nofun

theorem isEndOfInput_scanLine {line : Int} {content : Text} {tokens : List Token} {fault : Option Cause}
    (h : scanLine line content = (tokens, fault)) : ∀ t ∈ tokens, t.isEndOfInput = false := by
  have hscanned : (scanFrom line 0 content.chomp).1 = tokens := congrArg Prod.fst h
  rw [← hscanned]
  exact isEndOfInput_scanFrom

end Token

namespace Stream

/-- The lines can be scanned, `line` lines being scanned before them. -/
def Scans (line : Nat) : List Text → Prop
  | [] => True
  | content :: rest => (Token.scanLine (line + 1) content).2 = none ∧ Scans (line + 1) rest

/-- The queue ends with the end of a line, and holds no end of input. -/
structure Tidy (s : Stream) : Prop where
  ends : ∀ t, s.queue.getLast? = some t → t.isEndOfLine = true
  inside : ∀ t ∈ s.queue, t.isEndOfInput = false

/-- The place of a stream: the next token is in the queue if `poised`, and else it need not be. -/
def Stands (poised : Bool) (s : Stream) : Prop := s.Tidy ∧ (poised = true → s.queue ≠ [])

/-- The lines that are left can be scanned. -/
def Scannable (s : Stream) : Prop := Scans s.line s.pending

/-- The text has been read to its end. -/
structure Exhausted (s : Stream) : Prop where
  queue : s.queue = []
  pending : s.pending = []
  broken : s.broken = none

def Clean (s : Stream) : Prop := s.broken = none ∧ Scans s.line s.pending

/-- The first stream is at the same place as the second, in a text of which it lacks the lines `extra`. -/
structure Begins (reason : Text) (extra : List Text) (s s' : Stream) : Prop where
  opens : s.broken = some reason
  ends : s'.broken = none
  queue : s'.queue = s.queue
  line : s'.line = s.line
  pending : s'.pending = s.pending ++ extra

variable {s : Stream} {poised : Bool}

theorem Stands.ready (h : s.Stands true) : s.Ready := .inl (h.2 rfl)

theorem Exhausted.peek (h : s.Exhausted) : peek 0 s = .ok (.endOfInput s.line) s := by
  rw [peek_of_ready (.inr ⟨h.pending, h.broken⟩), h.queue]
  rfl

variable {queue : List Token} {line : Nat} {pending extra : List Text} {reason : Text}

theorem fillFrom_clean (i : Nat) (queue : List Token) (h : Scans line pending) :
    ∃ s, fillFrom none i pending queue line = .ok () s ∧ s.Clean ∧ s.line + s.pending.length = line + pending.length ∧
      (i < s.queue.length ∨ s.pending = []) := by
  induction pending generalizing queue line with
  | nil => exact ⟨_, rfl, ⟨rfl, trivial⟩, rfl, .inr rfl⟩
  | cons content rest ih =>
    obtain ⟨hscan, hrest⟩ := h
    rw [fillFrom]
    split
    · rename_i hlength
      exact ⟨_, rfl, ⟨rfl, hscan, hrest⟩, rfl, .inl hlength⟩
    · cases hline : Token.scanLine (line + 1) content with
      | mk scanned fault =>
        obtain rfl : fault = none := by rwa [hline] at hscan
        obtain ⟨s, hfill, hclean, hlines, hends⟩ := ih (queue ++ scanned ++ [Token.endOfLine (line + 1)]) hrest
        refine ⟨s, hfill, hclean, ?_, hends⟩
        rw [hlines, List.length_cons]
        omega

theorem mem_tokensOf (h : t ∈ tokensOf line pending) :
    (∃ line content, t ∈ (Token.scanLine line content).1) ∨ ∃ line, t = Token.endOfLine line := by
  induction pending generalizing line with
  | nil => cases h
  | cons content rest ih =>
    rw [tokensOf, List.mem_append] at h
    rcases h with h | h
    · split at h
      · rename_i hscan
        rcases List.mem_append.mp h with h | h
        · exact .inl ⟨_, content, by rwa [hscan]⟩
        · exact .inr ⟨_, List.mem_singleton.mp h⟩
      · rename_i hscan
        exact .inl ⟨_, content, by rwa [hscan]⟩
    · exact ih h

theorem tidy_scanned {content : Text} {scanned : List Token}
    (hscan : Token.scanLine (line + 1) content = (scanned, none)) {broken : Option Text} :
    Tidy ⟨pending, broken, scanned ++ [Token.endOfLine (line + 1)], line + 1⟩ where
  ends t ht := by
    simp only [List.getLast?_concat, Option.some.injEq] at ht
    subst ht
    rfl
  inside := List.forall_mem_append.mpr ⟨Token.isEndOfInput_scanLine hscan, List.forall_mem_singleton.mpr rfl⟩

/-- How filling the queue ends at the beginning of a text, and in the longer text: with the next token, with
the same fault, or because the beginning is over, which happens only if the next token is not in the queue. -/
inductive Filled (reason : Text) (extra : List Text) (poised : Bool) (scanned : Stream → Prop) :
    EStateM.Result Failure Stream Unit → EStateM.Result Failure Stream Unit → Prop where
  | next {s s' : Stream} (begins : Begins reason extra s s') (stands : s.Stands true) (reflects : scanned s) :
      Filled reason extra poised scanned (.ok () s) (.ok () s')
  | fault {s s' : Stream} {cause : Cause} {line : Int} (settled : cause.isSettled = true) :
      Filled reason extra poised scanned (.error (.atLine cause line) s) (.error (.atLine cause line) s')
  | starved {s : Stream} {result : EStateM.Result Failure Stream Unit} (loose : poised = false) (reflects : scanned s)
      (spent : s.pending = []) (ended : extra = [] → ∃ s', result = .ok () s' ∧ s'.Exhausted) :
      Filled reason extra poised scanned (.error (.plain reason) s) result

theorem filled_fill (h : Begins reason extra s s') (hs : s.Stands poised) :
    Filled reason extra poised (fun s₁ => s₁.Scannable → s.Scannable) (fill 0 s) (fill 0 s') := by
  obtain ⟨pending, broken, queue, line⟩ := s
  obtain ⟨rfl, hends, hqueue, hline, hpending⟩ := h
  obtain ⟨htidy, hpoised⟩ := hs
  unfold fill
  rw [hends, hqueue, hline, hpending]
  dsimp only
  by_cases hqueue : queue = []
  · subst hqueue
    cases pending with
    | nil =>
      refine .starved (by simpa using hpoised) id rfl fun hextra => ?_
      subst hextra
      exact ⟨_, rfl, rfl, rfl, rfl⟩
    | cons content rest =>
      simp only [fillFrom, List.cons_append, List.length_nil, Nat.lt_irrefl, if_false]
      cases hscan : Token.scanLine (line + 1) content with
      | mk scanned fault =>
        cases fault with
        | some cause => exact .fault (Token.isSettled_scanFrom (congrArg Prod.snd hscan))
        | none =>
          -- the line is in the queue now, and nothing more is scanned
          have hfilled : scanned ++ [Token.endOfLine (line + 1)] ≠ [] := by simp
          dsimp only
          rw [List.nil_append, fillFrom_of_queue _ _ hfilled, fillFrom_of_queue _ _ hfilled]
          exact .next ⟨rfl, rfl, rfl, rfl, rfl⟩ ⟨tidy_scanned hscan, fun _ => hfilled⟩ fun hrest => ⟨by rw [hscan], hrest⟩
  · rw [fillFrom_of_queue _ _ hqueue, fillFrom_of_queue _ _ hqueue]
    exact .next ⟨rfl, rfl, rfl, rfl, rfl⟩ ⟨htidy, fun _ => hqueue⟩ id

end Stream

/-! ## Texts in two parts -/

namespace Text

/-- The text consists of whole lines. -/
def EndsLine (t : Text) : Prop := t.getLast? = some newline

instance (t : Text) : Decidable t.EndsLine := inferInstanceAs (Decidable (_ = _))

theorem splitLines_cons (b : UInt8) (rest : Text) :
    splitLines (b :: rest) =
      if b = newline then ([] :: (splitLines rest).1, (splitLines rest).2)
      else match (splitLines rest).1 with
        | [] => ([], b :: (splitLines rest).2)
        | line :: more => ((b :: line) :: more, (splitLines rest).2) := rfl

theorem splitLines_append (h : t.EndsLine) (more : Text) :
    t.splitLines.1 ≠ [] ∧ t.splitLines.2 = [] ∧
      (t ++ more).splitLines = (t.splitLines.1 ++ more.splitLines.1, more.splitLines.2) := by
  induction t with
  | nil => cases h
  | cons b rest ih =>
    cases hrest : rest with
    | nil =>
      -- the last byte is the line feed
      obtain rfl : b = newline := by simpa [EndsLine, hrest] using h
      simp [splitLines]
    | cons c others =>
      rw [← hrest]
      have hends : EndsLine rest := by
        rw [EndsLine, hrest]
        rw [EndsLine, hrest, List.getLast?_cons_cons] at h
        exact h
      obtain ⟨hne, hlast, happend⟩ := ih hends
      obtain ⟨line, lines, hlines⟩ := List.exists_cons_of_ne_nil hne
      rw [List.cons_append, splitLines_cons, splitLines_cons, happend, hlines]
      by_cases hb : b = newline <;> simp [hb, hlast]

end Text

namespace Stream

theorem deliveredLines_endsLine (h : source.EndsLine) :
    deliveredLines source none = source.splitLines.1 := by
  obtain ⟨-, hlast, -⟩ := Text.splitLines_append h []
  simp [deliveredLines, hlast]

theorem deliveredLines_append (h : source.EndsLine) (more : Text) :
    deliveredLines (source ++ more) none = deliveredLines source none ++ deliveredLines more none := by
  obtain ⟨-, -, happend⟩ := Text.splitLines_append h more
  rw [deliveredLines_endsLine h]
  simp only [deliveredLines, happend]
  split <;> simp

theorem tokensOf_append (line : Nat) (pending more : List Text) :
    tokensOf line (pending ++ more) = tokensOf line pending ++ tokensOf (line + pending.length) more := by
  induction pending generalizing line with
  | nil => simp [tokensOf]
  | cons content rest ih =>
    have hlines : line + 1 + rest.length = line + (content :: rest).length := by
      rw [List.length_cons]
      omega
    simp only [List.cons_append, tokensOf, ih, List.append_assoc, hlines]

theorem scans_append {line : Nat} {pending more : List Text} :
    Scans line (pending ++ more) ↔ Scans line pending ∧ Scans (line + pending.length) more := by
  induction pending generalizing line with
  | nil => simp [Scans]
  | cons content rest ih =>
    have hlines : line + 1 + rest.length = line + (content :: rest).length := by
      rw [List.length_cons]
      omega
    simp only [List.cons_append, Scans, ih, and_assoc, hlines]

theorem size_le_append (h : source.EndsLine) (more : Text) :
    (ofSource source).size ≤ (ofSource (source ++ more)).size := by
  simp only [ofSource, ofText, size, deliveredLines_append h more, List.flatten_append, List.length_append]
  omega

end Stream

end StoneLang
