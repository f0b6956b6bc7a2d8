/-
  A text that breaks off can be closed.

  Where a text breaks off within a unit, closing brackets complete it.  The parser stands inside a row of rules
  that are read half; the words that complete one of them are read off the rest of its elements
  (`Language.closingWords`): a bracket for a bracket that is missing, an empty block for a block, and nothing for
  what may be left out.

  Two things make this work.  What was read up to there is read in the same way in the longer text
  (`Language.prolongs_reads`), because every decision was about a token that was there.  And none of the closing
  words, nor the end of a line, goes on with a rule that could be over (`Language.closesRule`).
-/
import StoneLang.Proofs.Grammar.Beginnings
import StoneLang.Proofs.Grammar.Rows
import StoneLang.Proofs.Token.Literals

namespace StoneLang

/-! ## Longer texts -/

/-- The cursor in a longer text, which has `more` after the tokens that are left, and then ends. -/
def Cursor.upTo (c : Cursor) (more : List Token) : Cursor := ⟨c.tokens ++ more, c.site, true⟩

variable {c : Cursor} {t : Token} {r : Reading}

theorem Cursor.Sees.upTo (h : c.Sees t) (hopen : c.finished = false) (more : List Token) : (c.upTo more).Sees t := by
  rcases h with hhead | ⟨-, hfinished, -⟩
  · refine .inl ?_
    show (c.tokens ++ more).head? = some t
    rw [List.head?_append, hhead]
    rfl
  · rw [hopen] at hfinished
    cases hfinished

theorem Cursor.tokens_upTo (h : c.tokens = t :: rest) (more : List Token) :
    (c.upTo more).tokens = t :: (rest ++ more) :=
  congrArg (· ++ more) h

theorem Cursor.tokens_upTo_nil (h : c.tokens = []) (more : List Token) : (c.upTo more).tokens = more :=
  congrArg (· ++ more) h

theorem Finishes.upTo (h : Finishes children c node c' shape) (more : List Token) :
    Finishes children (c.upTo more) node (c'.upTo more) shape := by
  cases shape <;> exact ⟨h.1, congrArg (Cursor.upTo · more) h.2⟩

/-- What the piece reads where it is not known what follows, it reads in every longer text. -/
def Prolongs {α : Type} (piece : Cursor → α → Cursor → Prop) : Prop :=
  ∀ ⦃c a c'⦄, piece c a c' → c.finished = false →
    c'.finished = false ∧ ∀ more, piece (c.upTo more) a (c'.upTo more)

section

variable {ι : Type} {starts : ι → Token → Bool} {recur : ι → Piece}

theorem prolongs_repeats (hone : Prolongs one) : Prolongs (Repeats goes one) := by
  intro c nodes c' h hopen
  induction h with
  | stop sees ends => exact ⟨hopen, fun more => .stop (sees.upTo hopen more) ends⟩
  | round sees goes first rest ih =>
    obtain ⟨hopen₁, hfirst⟩ := hone first hopen
    obtain ⟨hopen₂, hrest⟩ := ih hopen₁
    exact ⟨hopen₂, fun more => .round (sees.upTo hopen more) goes (hfirst more) (hrest more)⟩

theorem prolongs_climbs (hoperand : Prolongs operand) : Prolongs (Climbs operand operators shape takes left) := by
  intro c node c' h hopen
  induction h with
  | stop sees ends => exact ⟨hopen, fun more => .stop (sees.upTo hopen more) ends⟩
  | step next operator goes second inner built outer ihinner ihouter =>
    obtain ⟨hopen₁, hsecond⟩ := hoperand second hopen
    obtain ⟨hopen₂, hinner⟩ := ihinner hopen₁
    obtain ⟨hopen₃, houter⟩ := ihouter hopen₂
    exact ⟨hopen₃, fun more => .step (Cursor.tokens_upTo next more) operator goes (hsecond more) (hinner more) built
      (houter more)⟩

theorem prolongs_takes (hrecur : ∀ r, Prolongs (recur r)) (element : Element ι) :
    Prolongs (Takes starts recur element) := by
  intro c nodes c' h hopen
  cases h with
  | phrase reads =>
    obtain ⟨hopen₁, hreads⟩ := hrecur _ reads hopen
    exact ⟨hopen₁, fun more => .phrase (hreads more)⟩
  | choice sees chosen reads =>
    obtain ⟨hopen₁, hreads⟩ := hrecur _ reads hopen
    exact ⟨hopen₁, fun more => .choice (sees.upTo hopen more) chosen (hreads more)⟩
  | repeated rounds =>
    obtain ⟨hopen₁, hrounds⟩ := prolongs_repeats (hrecur _) rounds hopen
    exact ⟨hopen₁, fun more => .repeated (hrounds more)⟩
  | absent sees ends => exact ⟨hopen, fun more => .absent (sees.upTo hopen more) ends⟩
  | present sees goes reads =>
    obtain ⟨hopen₁, hreads⟩ := hrecur _ reads hopen
    exact ⟨hopen₁, fun more => .present (sees.upTo hopen more) goes (hreads more)⟩
  | token next accepts made => exact ⟨hopen, fun more => .token (Cursor.tokens_upTo next more) accepts made⟩
  | spelling next spelled => exact ⟨hopen, fun more => .spelling (Cursor.tokens_upTo next more) spelled⟩
  | expression first rest =>
    obtain ⟨hopen₁, hfirst⟩ := hrecur _ first hopen
    obtain ⟨hopen₂, hrest⟩ := prolongs_climbs (hrecur _) rest hopen₁
    exact ⟨hopen₂, fun more => .expression (hfirst more) (hrest more)⟩

theorem prolongs_takesAll (hrecur : ∀ r, Prolongs (recur r)) (elements : List (Element ι)) :
    Prolongs (TakesAll starts recur elements) := by
  intro c nodes c' h hopen
  induction h with
  | nil => exact ⟨hopen, fun more => .nil⟩
  | cons first others ih =>
    obtain ⟨hopen₁, hfirst⟩ := prolongs_takes hrecur _ first hopen
    obtain ⟨hopen₂, hothers⟩ := ih hopen₁
    exact ⟨hopen₂, fun more => .cons (hfirst more) (hothers more)⟩

end

theorem Language.prolongs_reads (l : Layers) (levels : Nat) (p : Language.Phrase) : Prolongs (Language.Reads l levels p) := by
  induction levels generalizing p with
  | zero => exact fun c node c' h _ => h.elim
  | succ levels ih =>
    intro c node c' h hopen
    obtain ⟨children, c₁, htakes, hfinishes⟩ := h
    obtain ⟨hopen₁, hlonger⟩ := prolongs_takesAll ih _ htakes hopen
    refine ⟨?_, fun more => ⟨children, _, hlonger more, hfinishes.upTo more⟩⟩
    rcases hfinishes.place with rfl | rfl <;> exact hopen₁

/-! ## Closing words -/

def closingMarks : List Text := [text "\x7b", text "\x7d", text ")", text "]"]

/-- What may come after a piece that is closed: a word that closes, or the end of a line. -/
def stops : List Text := Token.endOfLineText :: closingMarks

def Token.IsWord (words : List Text) (t : Token) : Prop := t.kind = .identifier ∧ t.text ∈ words

/-- Closing words complete the piece before every token of which `next` holds. -/
def Closable {α : Type} (next : Token → Prop) (piece : Cursor → α → Cursor → Prop) (c : Cursor) : Prop :=
  ∃ words : List Text, (∀ word ∈ words, word ∈ closingMarks) ∧
    ∀ (line : Int) (t : Token) (more : List Token), next t →
      ∃ a c', piece (c.upTo (words.map (Token.mark line) ++ t :: more)) a c' ∧ c'.tokens = t :: more

theorem Closable.imp (h : Closable next piece d) (hnext : ∀ {t}, next' t → next t)
    (hpiece : ∀ {tokens t more a c'}, next' t → piece (d.upTo tokens) a c' → c'.tokens = t :: more →
      ∃ b c'', piece' (c.upTo tokens) b c'' ∧ c''.tokens = t :: more) : Closable next' piece' c := by
  obtain ⟨words, hwords, hcloses⟩ := h
  refine ⟨words, hwords, fun line t more ht => ?_⟩
  obtain ⟨a, c', ha, htokens⟩ := hcloses line t more (hnext ht)
  exact hpiece ht ha htokens

theorem Token.lead_of_isWord (h : t.IsWord words) : ∃ word ∈ words, (Token.mark 0 word).lead = t.lead := by
  obtain ⟨kind, spelling, number, line⟩ := t
  obtain ⟨rfl, hmem⟩ := h
  exact ⟨spelling, hmem, rfl⟩

namespace Language

open Parse

def closingWords : List (Element Phrase) → List Text
  | [] => []
  | .spelling (word :: _) _ :: rest => word :: closingWords rest
  | .phrase _ :: rest => text "\x7b" :: text "\x7d" :: closingWords rest
  | _ :: rest => closingWords rest

/-- The words one of which comes where the rest of a rule is to be read. -/
def nexts (rest : List (Element Phrase)) : List Text :=
  match closingWords rest with
  | [] => stops
  | word :: _ => [word]

def passes (l : Layers) (words : List Text) (q : Phrase) : Bool :=
  words.all fun word => !(grammar l).starts q (.mark 0 word)

def isPhrase : Element Phrase → Bool
  | .phrase _ => true
  | _ => false

def closesRow (l : Layers) : List (Element Phrase) → Bool
  | [] => true
  | element :: rest =>
    closesRow l rest &&
      match element with
      | .spelling (word :: _) _ => closingMarks.contains word
      | .phrase q => q == .block
      | .optional q | .repeated q => passes l (nexts rest) q
      | _ => false

variable {t : Token} {line : Int} {rest : List (Element Phrase)}

theorem passes_eq (h : passes l words q = true) (ht : t.IsWord words) : (grammar l).starts q t = false := by
  obtain ⟨word, hword, hlead⟩ := Token.lead_of_isWord ht
  have hone := List.all_eq_true.mp h word hword
  rw [← starts_lead, hlead, starts_lead] at hone
  simpa using hone

theorem starts_brace : ∀ l p,
    (!(p == .statement || p == .statementTail) || passes l [text "\x7d"] p) = true := checked (by decide)

variable {l : Layers} {levels : Nat} {c c' : Cursor}

theorem reads_braces
    (h : c.tokens = Token.mark line (text "\x7b") :: Token.mark line (text "\x7d") :: tokens) (hlevels : 0 < levels) :
    ∃ node c', Reads l levels .block c node c' ∧ c'.tokens = tokens := by
  obtain ⟨levels, rfl⟩ : ∃ n, levels = n + 1 := ⟨levels - 1, by omega⟩
  let c₁ := c.withTokens (Token.mark line (text "\x7d") :: tokens)
  have hbrace : (Token.mark line (text "\x7d")).IsWord [text "\x7d"] := ⟨rfl, List.mem_singleton.mpr rfl⟩
  have hsees : c₁.Sees (Token.mark line (text "\x7d")) := .inl rfl
  have hopens : Takes (grammar l).starts (Reads l levels) (drop "\x7b") c [] c₁ := .spelling h rfl
  have hstatement : (grammar l).starts .statement (Token.mark line (text "\x7d")) = false :=
    passes_eq (by simpa using starts_brace l .statement) hbrace
  have htail : (grammar l).starts .statementTail (Token.mark line (text "\x7d")) = false :=
    passes_eq (by simpa using starts_brace l .statementTail) hbrace
  have hcloses : Takes (grammar l).starts (Reads l levels) (drop "\x7d") c₁ [] (c₁.withTokens tokens) :=
    .spelling rfl (t := Token.mark line (text "\x7d")) rfl
  have hrow : ReadsRow l levels ((grammar l).rule .block).elements c [] (c₁.withTokens tokens) :=
    .cons hopens (.cons (.absent hsees hstatement) (.cons (.repeated (.stop hsees htail)) (.cons hcloses .nil)))
  obtain ⟨node, c', hreads, htokens⟩ := reads_of_takesAll hrow
  exact ⟨node, c', hreads, htokens⟩

theorem marks_of_closesRow (h : closesRow l rest = true) : ∀ word ∈ closingWords rest, word ∈ closingMarks := by
  induction rest with
  | nil => simp [closingWords]
  | cons element rest ih =>
    simp only [closesRow, Bool.and_eq_true] at h
    cases element with
    | spelling spellings keep =>
      cases spellings with
      | nil => cases h.2
      | cons word others =>
        exact List.forall_mem_cons.mpr ⟨by simpa using h.2, ih h.1⟩
    | phrase q =>
      intro other hother
      simp only [closingWords, List.mem_cons] at hother
      rcases hother with rfl | rfl | hother
      · simp [closingMarks]
      · simp [closingMarks]
      · exact ih h.1 other hother
    | choice rules | token accepted maker | expression q table shape => cases h.2
    | optional q | repeated q => exact ih h.1

/-- Where the rest of a rule is to be completed, the cursor sees the first of the words. -/
theorem sees_nexts (ht : t.IsWord stops) (h : c.tokens = (closingWords rest).map (Token.mark line) ++ t :: more) :
    ∃ u others, c.tokens = u :: others ∧ u.IsWord (nexts rest) := by
  unfold nexts
  generalize closingWords rest = res at h ⊢
  cases res with
  | nil => exact ⟨t, more, h, ht⟩
  | cons word words => exact ⟨_, _, h, rfl, List.mem_singleton.mpr rfl⟩

theorem takesAll_closing (hrow : closesRow l rest = true) (hlevels : rest.any isPhrase = true → 0 < levels)
    (ht : t.IsWord stops) (h : c.tokens = (closingWords rest).map (Token.mark line) ++ t :: more) :
    ∃ nodes c', ReadsRow l levels rest c nodes c' ∧ c'.tokens = t :: more := by
  induction rest generalizing c with
  | nil => exact ⟨[], c, .nil, h⟩
  | cons element rest ih =>
    simp only [closesRow, Bool.and_eq_true] at hrow
    have hlevels' : rest.any isPhrase = true → 0 < levels := fun h => hlevels (by rw [List.any_cons, h, Bool.or_true])
    cases element with
    | spelling spellings keep =>
      cases spellings with
      | nil => cases hrow.2
      | cons word others =>
        have hspelled : isSpelled (word :: others) (Token.mark line word) = true := by
          simp [isSpelled, Token.mark]
        obtain ⟨nodes, c', htakes, hends⟩ := ih (c := c.withTokens _) hrow.1 hlevels' rfl
        exact ⟨_, c', .cons (.spelling h hspelled) htakes, hends⟩
    | phrase q =>
      obtain rfl : q = .block := beq_iff_eq.mp hrow.2
      obtain ⟨node, c₁, hreads, htokens⟩ := reads_braces h (hlevels rfl)
      obtain ⟨nodes, c', htakes, hends⟩ := ih hrow.1 hlevels' htokens
      exact ⟨_, c', .cons (.phrase hreads) htakes, hends⟩
    | choice rules | token accepted maker | expression q table shape => cases hrow.2
    | optional q =>
      obtain ⟨u, others, hnext, hu⟩ := sees_nexts ht h
      obtain ⟨nodes, c', htakes, hends⟩ := ih hrow.1 hlevels' h
      exact ⟨_, c', .cons (.absent (.of_tokens hnext) (passes_eq hrow.2 hu)) htakes, hends⟩
    | repeated q =>
      obtain ⟨u, others, hnext, hu⟩ := sees_nexts ht h
      obtain ⟨nodes, c', htakes, hends⟩ := ih hrow.1 hlevels' h
      exact ⟨_, c', .cons (.repeated (.stop (.of_tokens hnext) (passes_eq hrow.2 hu))) htakes, hends⟩

/-! ## Rules that can be closed -/

def Phrase.opens : Phrase → Bool
  | .nothing | .numberOperand | .nameOperand | .stringOperand | .parameter | .parameterTail | .noParameters
  | .noArguments | .superclass | .dot | .memberName | .newName | .noElements => false
  | _ => true

def isLoop : Element Phrase → Bool
  | .repeated _ | .expression .. => true
  | _ => false

/-- An element within which a text breaks off can be completed, together with the rest of its rule. -/
def mayClose (l : Layers) (element : Element Phrase) (rest : List (Element Phrase)) : Bool :=
  closesRow l rest &&
    match element with
    | .phrase _ | .choice _ => true
    | .optional q | .repeated q => passes l (nexts rest) q && !rest.any isPhrase
    | .expression _ table shape =>
      shape == .binary && !rest.any isPhrase && (nexts rest).all fun word => (table.find? word).isNone
    | .spelling (word :: _) _ => closingMarks.contains word && !rest.any isPhrase
    | .spelling [] _ | .token .. => false

/-- A text does not break off in the element; `poised` says that the next token is there. -/
def isSafe (poised : Bool) (element : Element Phrase) : Bool :=
  poised && !isLoop element && !(element.references.any Phrase.opens)

/-- Whatever part of the row a text breaks off in, it can be completed. -/
def closesFrom (l : Layers) : Bool → List (Element Phrase) → Bool
  | _, [] => true
  | poised, element :: rest =>
    (isSafe poised element || mayClose l element rest) && closesFrom l (staysAfter poised element) rest

def isShut : Bool → List (Element Phrase) → Bool
  | _, [] => true
  | poised, element :: rest => isSafe poised element && isShut (staysAfter poised element) rest

theorem closesRule : ∀ l p, (p == .program || closesFrom l true ((grammar l).rule p).elements &&
    (p.opens || isShut true ((grammar l).rule p).elements)) = true := checked (by decide)

end Language

/-! ## Where a text breaks off -/

theorem Stream.tokens_of_starved (h : Stream.fill 0 s = .error (.plain reason) s') : s.tokens = [] := by
  have hfills := s.fills
  rw [h] at hfills
  cases hfills with
  | starved queue pending => simp [tokens, queue, pending, tokensOf]

/-- The reading is in a text that breaks off; the next token is in the queue, if `poised` says so. -/
structure Reading.Fed (poised : Bool) (r : Reading) : Prop where
  broken : r.stream.broken ≠ none
  stands : r.stream.Stands poised

theorem Reading.Fed.unfinished (h : r.Fed poised) : r.cursor.finished = false := by
  obtain ⟨reason, hreason⟩ := Option.ne_none_iff_exists'.mp h.broken
  simp [Reading.cursor, hreason]

theorem Reading.Fed.tokens_ne (h : r.Fed true) : r.cursor.tokens ≠ [] :=
  fun hnil => h.stands.2 rfl (List.append_eq_nil_iff.mp hnil).1

namespace Parse

variable {α : Type} {r r' : Reading} {poised : Bool}

def BreaksOff (x : Parse α) (r : Reading) : Prop := ∃ reason r', x r = .error (.plain reason) r'

variable {x : Parse α} {a : α} {answer : Token → α}

theorem BreaksOff.bind (h : BreaksOff (x >>= f) r) : BreaksOff x r ∨ ∃ a r', x r = .ok a r' ∧ BreaksOff (f a) r' := by
  obtain ⟨reason, r', h⟩ := h
  rcases bind_eq_error.mp h with hx | ⟨a, t, hx, hf⟩
  · exact .inl ⟨reason, r', hx⟩
  · exact .inr ⟨a, t, hx, reason, r', hf⟩

theorem BreaksOff.after (h : BreaksOff (x >>= f) r) (hx : x r = .ok a r') : BreaksOff (f a) r' := by
  unfold BreaksOff at h ⊢
  rwa [bind_of_ok hx] at h

theorem not_breaksOff_pure : ¬ BreaksOff (Pure.pure a) r := by
  rintro ⟨reason, r', h⟩
  cases h

theorem BreaksOff.of_pure {β : Type} {f : α → β} (h : BreaksOff (x >>= fun a => Pure.pure (f a)) r) : BreaksOff x r :=
  h.bind.resolve_right fun ⟨_, _, _, hpure⟩ => not_breaksOff_pure hpure

theorem not_breaksOff_throw : ¬ BreaksOff (MonadExcept.throw (.diagnostic d) : Parse α) r := by
  rintro ⟨reason, r', h⟩
  cases h

theorem Follows.fed
    (h : ∀ reason, Follows reason [] x x pre post ended) (hbroken : r.stream.broken ≠ none) (hpre : pre r.stream)
    (hok : x r = .ok a r') : post a r'.stream ∧ r'.stream.broken ≠ none := by
  obtain ⟨reason, hreason⟩ := Option.ne_none_iff_exists'.mp hbroken
  have hbegins : r.Begins reason [] { r with stream := { r.stream with broken := none } } :=
    ⟨⟨hreason, rfl, rfl, rfl, (List.append_nil _).symm⟩, rfl, Nat.le_refl _⟩
  have hran := h reason r _ hbegins hpre
  rw [hok] at hran
  generalize x { r with stream := { r.stream with broken := none } } = right at hran
  cases hran with
  | both begins holds => exact ⟨holds.1, by rw [begins.stream.opens]; simp⟩

theorem tokens_of_breaksOff (hasks : Asks x answer) (h : BreaksOff x r) : r.cursor.tokens = [] := by
  obtain ⟨reason, r', h⟩ := h
  rw [asks_apply hasks] at h
  cases hpeek : peek r with
  | ok t r₁ => rw [hpeek] at h; cases h
  | error e r₁ =>
    rw [hpeek] at h
    cases h
    unfold peek onStream at hpeek
    rw [Stream.peek_eq] at hpeek
    cases hfill : Stream.fill 0 r.stream with
    | ok _ s => rw [hfill] at hpeek; cases hpeek
    | error e s =>
      rw [hfill] at hpeek
      cases hpeek
      exact Stream.tokens_of_starved hfill

theorem not_breaksOff_asks (hasks : Asks x answer) (h : r.Fed true) : ¬ BreaksOff x r :=
  fun hbreaks => h.tokens_ne (tokens_of_breaksOff hasks hbreaks)

theorem fed_asks (hasks : Asks x answer) (h : r.Fed poised) (hok : x r = .ok a r') :
    ∃ t, a = answer t ∧ peek r = .ok t r' ∧ Fronts Stream.Stands t r'.stream ∧ r'.Fed true := by
  obtain ⟨t, hpeek, rfl⟩ := asks_eq_ok hasks hok
  obtain ⟨hfronts, hbroken⟩ := Follows.fed (fun _ => follows_peek poised) h.broken h.stands hpeek
  exact ⟨t, rfl, hpeek, hfronts, hbroken, hfronts.1⟩

theorem asks_peek : Asks peek id := by
  unfold Asks
  simp

theorem not_breaksOff_mismatch (h : r.Fed true) : ¬ BreaksOff (mismatch expected : Parse α) r := by
  intro hbreaks
  rcases hbreaks.bind with hpeek | ⟨t, r₁, -, hthrow⟩
  · exact not_breaksOff_asks asks_peek h hpeek
  · exact not_breaksOff_throw hthrow

theorem not_breaksOff_build : ¬ BreaksOff (build shape children) r := by
  intro hbreaks
  rcases hbreaks.bind with ⟨reason, r', hsite⟩ | ⟨site, r₁, -, hbuilt⟩
  · cases hsite
  · cases hshape : shape.build site children with
    | ok node => rw [hshape] at hbuilt; exact not_breaksOff_pure hbuilt
    | error d => rw [hshape] at hbuilt; exact not_breaksOff_throw hbuilt

theorem rounds_bind (h : BreaksOff (rounds >>= f) r) : BreaksOff (f r.bound) r := h

/-! ## Loops -/

section

variable {one : Piece} {parse : Parse Node} {keeps : Bool} (hpro : Prolongs one)
  (hone : ∀ r node r', parse r = .ok node r' → one r.cursor node r'.cursor)
  (hfed : ∀ r node r', r.Fed true → parse r = .ok node r' → r'.Fed keeps)
  (hhalf : ∀ r, r.Fed true → BreaksOff parse r → Closable (Token.IsWord stops) one r.cursor)

include hpro hone hfed hhalf

variable {bound : Nat} {shape : Shape} {takes : Precedence → Bool} {left : Node}

theorem closable_repeatWhile (hfits : Asks fits starts)
    (hr : r.Fed poised) (h : BreaksOff (repeatWhile fits parse bound before) r) :
    Closable (fun t => t.IsWord stops ∧ starts t = false) (Repeats starts one) r.cursor := by
  induction bound generalizing before r poised with
  | zero =>
    obtain ⟨reason, r', h⟩ := h
    cases h
  | succ bound ih =>
    unfold repeatWhile at h
    rcases h.bind with hfit | ⟨fit, r₁, hfit, h⟩
    · have htokens := Cursor.tokens_upTo_nil (tokens_of_breaksOff hfits hfit)
      exact ⟨[], by simp, fun line t more ht => ⟨[], _, .stop (.of_tokens (htokens _)) ht.2, htokens _⟩⟩
    · obtain ⟨t, rfl, hpeek, hfronts, hr₁⟩ := fed_asks hfits hr hfit
      obtain ⟨hsees, hsame⟩ := cursor_peek hpeek
      have hopen := hr.unfinished
      cases hstarts : starts t with
      | false =>
        rw [hstarts] at h
        exact absurd h not_breaksOff_pure
      | true =>
        rw [hstarts] at h
        rcases BreaksOff.bind h with hparse | ⟨node, r₂, hparse, h⟩
        · have hcloses := hhalf r₁ hr₁ hparse
          rw [hsame] at hcloses
          exact hcloses.imp And.left fun hu hreads htokens =>
            ⟨_, _, .round (hsees.upTo hopen _) hstarts hreads (.stop (.of_tokens htokens) hu.2), htokens⟩
        · have hfirst := hone _ _ _ hparse
          rw [hsame] at hfirst
          exact (ih (hfed _ _ _ hr₁ hparse) h).imp id fun _ hrest htokens =>
            ⟨_, _, .round (hsees.upTo hopen _) hstarts ((hpro hfirst hopen).2 _) hrest, htokens⟩

omit hpro hone hfed hhalf in
theorem climbs_stop (htokens : c.tokens = t :: more) (hnone : operatorOf operators t = none) :
    Climbs one operators shape takes left c left c := .stop (.of_tokens htokens) (by simp [hnone])

variable {operators : Operators}
  (hbuild : ∀ site left label right, ∃ node, shape.build site [left, .leaf label, right] = .ok node)
  (hfollows : ∀ reason, Follows reason [] parse parse (Stream.Stands true) (fun _ => Stream.Stands true) fun _ => False)
  (hline : operators.find? Token.endOfLineText = none)

include hbuild hfollows hline

omit hfed in
theorem closable_joined {precedence : Precedence} {label : Word} (hr : r.Fed true)
    (hloop : ∀ {r : Reading} (takes : Precedence → Bool) (left : Node), r.Fed true →
      BreaksOff (climb parse operators shape bound takes left) r →
      Closable (fun t => t.IsWord stops ∧ operatorOf operators t = none) (Climbs one operators shape takes left) r.cursor)
    (h : BreaksOff (do
      let right ← parse
      let right ← climb parse operators shape bound (bindsTighter precedence.level) right
      let joined ← build shape [left, .leaf label, right]
      climb parse operators shape bound takes joined) r) :
    Closable (fun t => t.IsWord stops ∧ operatorOf operators t = none)
      (fun c node c' => ∃ right right' joined c₁ c₂, one c right c₁ ∧
        Climbs one operators shape (bindsTighter precedence.level) right c₁ right' c₂ ∧
        shape.build c₂.site [left, .leaf label, right'] = .ok joined ∧
        Climbs one operators shape takes joined c₂.spend node c') r.cursor := by
  have hopen := hr.unfinished
  rcases h.bind with hbreaks | ⟨right, r₁, hright, h⟩
  · refine (hhalf r hr hbreaks).imp And.left fun {_ _ _ right c₁} hu hsecond hends => ?_
    obtain ⟨joined, hbuilt⟩ := hbuild c₁.site left label right
    exact ⟨joined, c₁.spend, ⟨right, right, joined, c₁, c₁, hsecond, climbs_stop hends hu.2, hbuilt,
      climbs_stop hends hu.2⟩, hends⟩
  · obtain ⟨hstands, hbroken⟩ := Follows.fed hfollows hr.broken hr.stands hright
    obtain ⟨hopen₁, hsecond⟩ := hpro (hone _ _ _ hright) hopen
    rcases BreaksOff.bind h with hbreaks | ⟨right', r₂, hinner, h⟩
    · refine (hloop _ _ ⟨hbroken, hstands⟩ hbreaks).imp id fun {_ _ _ right' c₂} hu hinner hends => ?_
      obtain ⟨joined, hbuilt⟩ := hbuild c₂.site left label right'
      exact ⟨joined, c₂.spend, ⟨right, right', joined, _, c₂, hsecond _, hinner, hbuilt, climbs_stop hends hu.2⟩, hends⟩
    · obtain ⟨hstands₂, hbroken₂⟩ := Follows.fed
        (fun reason => Language.follows_abreast.climb shape hline (hfollows reason) (Nat.le_refl bound) _ right) hbroken hstands hinner
      obtain ⟨-, hclimbs⟩ := prolongs_climbs hpro (climbs_of_climb hone hinner) hopen₁
      rcases BreaksOff.bind h with hbreaks | ⟨joined, r₃, hjoined, h⟩
      · exact absurd hbreaks not_breaksOff_build
      · obtain ⟨hbuilt, rfl⟩ := build_eq_ok.mp hjoined
        have hcloses := hloop (r := { r₂ with nextSite := r₂.nextSite + 1 }) _ _ ⟨hbroken₂, hstands₂⟩ h
        exact hcloses.imp id fun _ houter hends =>
          ⟨_, _, ⟨right, right', joined, _, _, hsecond _, hclimbs _, hbuilt, houter⟩, hends⟩

omit hfed in
theorem closable_climb (hr : r.Fed true) (h : BreaksOff (climb parse operators shape bound takes left) r) :
    Closable (fun t => t.IsWord stops ∧ operatorOf operators t = none) (Climbs one operators shape takes left)
      r.cursor := by
  have hasks : Asks (nextOperator operators) (operatorOf operators) := rfl
  induction bound generalizing takes left r with
  | zero =>
    obtain ⟨reason, r', h⟩ := h
    cases h
  | succ bound ih =>
    unfold climb at h
    rcases h.bind with hnext | ⟨found, r₁, hnext, h⟩
    · exact absurd hnext (not_breaksOff_asks hasks hr)
    · obtain ⟨t, rfl, hpeek, hfronts, hr₁⟩ := fed_asks hasks hr hnext
      cases hop : operatorOf operators t with
      | none =>
        rw [hop] at h
        exact absurd h not_breaksOff_pure
      | some precedence =>
        rw [hop] at h
        dsimp only at h
        cases htakes : takes precedence with
        | false =>
          rw [htakes] at h
          exact absurd h not_breaksOff_pure
        | true =>
          rw [htakes] at h
          obtain ⟨hkind, hinline⟩ := inline_of_operator hline hop
          obtain ⟨r₂, rest, hread, htokens, hcursor, -⟩ := read_seen hpeek hkind
          obtain ⟨⟨-, hstands⟩, hbroken⟩ := Follows.fed (fun _ => follows_read t) hr₁.broken hfronts hread
          rw [hinline] at hstands
          rw [if_pos rfl] at h
          have hcloses := closable_joined hpro hone hhalf hbuild hfollows hline ⟨hbroken, hstands⟩
            (fun _ _ hr h => ih hr h) (h.after hread)
          rw [hcursor] at hcloses
          refine hcloses.imp id fun _ hjoined hends => ?_
          obtain ⟨right, right', joined, c₁, c₂, hsecond, hinner, hbuilt, houter⟩ := hjoined
          exact ⟨_, _, .step (Cursor.tokens_upTo htokens _) hop htakes hsecond hinner hbuilt houter, hends⟩

end

end Parse

namespace Language

open Parse

variable {l : Layers} {levels : Nat} {recur : Phrase → Parse Node} {piece : Phrase → Piece} {r r' : Reading}
  {poised : Bool}

/-! ## Elements and rules -/

theorem stops_of_nexts (h : closesRow l rest = true) (ht : t.IsWord (nexts rest)) : t.IsWord stops := by
  refine ⟨ht.1, ?_⟩
  have hmem := ht.2
  have hmarks := marks_of_closesRow h
  unfold nexts at hmem
  cases hwords : closingWords rest with
  | nil =>
    rw [hwords] at hmem
    exact hmem
  | cons word words =>
    rw [hwords] at hmem hmarks
    obtain rfl := List.mem_singleton.mp hmem
    exact List.mem_cons_of_mem _ (hmarks _ List.mem_cons_self)

/-- What is known about the phrases inside: what they read, where they leave the text, and that one in which the
text breaks off can be completed. -/
structure Entering (recur : Phrase → Parse Node) (piece : Phrase → Piece) (levels : Nat) : Prop where
  prolongs : ∀ q, Prolongs (piece q)
  reads : ∀ q r node r', recur q r = .ok node r' → piece q r.cursor node r'.cursor
  follows : ∀ q reason, FollowsPhrase reason [] recur recur q
  closes : ∀ q r, q ≠ .program → r.Fed true → BreaksOff (recur q) r →
    Closable (Token.IsWord stops) (piece q) r.cursor ∧ q.opens = true
  levels : ∀ q r, BreaksOff (recur q) r → 0 < levels

theorem ne_program_of_staysInLine {q : Phrase} (h : q.staysInLine = true) : q ≠ .program := by
  rintro rfl
  cases h

theorem ne_program_of_staysWithin (h : staysWithin element = true) : ∀ q ∈ element.references, q ≠ .program := by
  intro q hq
  cases element with
  | phrase p | optional p =>
    obtain rfl := List.mem_singleton.mp hq
    exact ne_program_of_staysInLine h
  | repeated p =>
    obtain rfl := List.mem_singleton.mp hq
    exact bne_iff_ne.mp h
  | expression p table shape =>
    obtain rfl := List.mem_singleton.mp hq
    exact ne_program_of_staysInLine (Bool.and_eq_true_iff.mp h).1
  | choice rules => exact ne_program_of_staysInLine (List.all_eq_true.mp h q hq)
  | token accepted maker | spelling spellings keep => cases hq

theorem tokens_of_breaksOff_spelling (hr : r.Fed poised)
    (h : BreaksOff ((grammar l).parseElement recur children (.spelling spellings keep)) r) : r.cursor.tokens = [] := by
  rcases h.bind with hbreaks | ⟨t, r₁, hpeek, h⟩
  · exact tokens_of_breaksOff asks_peek hbreaks
  · obtain ⟨_, rfl, -, -, hr₁⟩ := fed_asks asks_peek hr hpeek
    split at h
    · rename_i hspelled
      obtain ⟨r₂, rest, hread, -⟩ := read_seen hpeek (by simp [isSpelled_iff.mp hspelled])
      exact absurd (h.after hread) not_breaksOff_pure
    · exact absurd h (not_breaksOff_mismatch hr₁)

namespace Entering

variable (henter : Entering recur piece levels)

include henter

theorem fed (hr : r.Fed true) (h : recur q r = .ok node r') : r'.Fed q.staysInLine := by
  obtain ⟨hstands, hbroken⟩ := Follows.fed (henter.follows q) hr.broken hr.stands h
  exact ⟨hbroken, hstands⟩

variable {element : Element Phrase} {children : List Node} {elements : List (Element Phrase)}

theorem fed_element (hregular : Regular element) (hpoised : poised = true ∨ entersAtOnce element = false)
    (hwithin : staysWithin element = true) (hr : r.Fed poised)
    (h : (grammar l).parseElement recur children element r = .ok nodes r') : r'.Fed (staysAfter poised element) := by
  obtain ⟨hstands, hbroken⟩ := Follows.fed (fun reason => abreast_parseElement follows_abreast
    (fun q => henter.follows q reason) hregular hpoised hwithin children) hr.broken hr.stands h
  exact ⟨hbroken, hstands⟩

omit henter in
variable (piece) in
/-- A text breaks off in an element that is no loop because no token is left, or in a phrase inside; what completes the
phrase then completes the element. -/
theorem inside_of_breaksOff (hregular : Regular element) (hloop : isLoop element = false)
    (hpoised : poised = true ∨ entersAtOnce element = false) (hr : r.Fed poised)
    (h : BreaksOff ((grammar l).parseElement recur children element) r) :
    r.cursor.tokens = [] ∨ ∃ q ∈ element.references, ∃ r₁ : Reading, r₁.Fed true ∧ BreaksOff (recur q) r₁ ∧
      ∀ {tokens node c'}, piece q (r₁.cursor.upTo tokens) node c' →
        ∃ nodes, Takes (grammar l).starts piece element (r.cursor.upTo tokens) nodes c' := by
  cases element with
  | phrase q =>
    obtain rfl : poised = true := hpoised.resolve_right (by simp [entersAtOnce])
    exact .inr ⟨q, List.mem_singleton.mpr rfl, r, hr, h.of_pure, fun hreads => ⟨_, .phrase hreads⟩⟩
  | choice rules =>
    rcases h.bind with hbreaks | ⟨chosen, r₁, hchosen, h⟩
    · exact .inl (tokens_of_breaksOff (asks_choice hregular) hbreaks)
    · obtain ⟨t, rfl, hpeek, -, hr₁⟩ := fed_asks (asks_choice hregular) hr hchosen
      obtain ⟨hsees, hsame⟩ := cursor_peek hpeek
      cases hfound : rules.find? ((grammar l).starts · t) with
      | none =>
        rw [hfound] at h
        exact absurd h (not_breaksOff_mismatch hr₁)
      | some q =>
        rw [hfound] at h
        refine .inr ⟨q, List.mem_of_find?_eq_some hfound, r₁, hr₁, BreaksOff.of_pure h, fun hreads => ?_⟩
        rw [hsame] at hreads
        exact ⟨_, .choice (hsees.upTo hr.unfinished _) hfound hreads⟩
  | optional q =>
    rcases h.bind with hbreaks | ⟨fit, r₁, hfit, h⟩
    · exact .inl (tokens_of_breaksOff (asks_fits l hregular.optional) hbreaks)
    · obtain ⟨t, rfl, hpeek, -, hr₁⟩ := fed_asks (asks_fits l hregular.optional) hr hfit
      obtain ⟨hsees, hsame⟩ := cursor_peek hpeek
      cases hstarts : (grammar l).starts q t with
      | false =>
        rw [hstarts] at h
        exact absurd h not_breaksOff_pure
      | true =>
        rw [hstarts] at h
        refine .inr ⟨q, List.mem_singleton.mpr rfl, r₁, hr₁, BreaksOff.of_pure h, fun hreads => ?_⟩
        rw [hsame] at hreads
        exact ⟨_, .present (hsees.upTo hr.unfinished _) hstarts hreads⟩
  | token accepted maker =>
    rcases h.bind with hbreaks | ⟨t, r₁, hpeek, h⟩
    · exact .inl (tokens_of_breaksOff asks_peek hbreaks)
    · obtain ⟨_, rfl, -, -, hr₁⟩ := fed_asks asks_peek hr hpeek
      split at h
      · rename_i haccepts
        obtain ⟨r₂, rest, hread, -⟩ := read_seen hpeek (kind_of_accepts haccepts)
        rcases (h.after hread).bind with ⟨reason, r₃, hsite⟩ | ⟨site, r₃, -, hmade⟩
        · cases hsite
        · cases maker with
          | refuse reason => cases hregular.makes
          | _ => exact absurd hmade not_breaksOff_pure
      · exact absurd h (not_breaksOff_mismatch hr₁)
  | spelling spellings keep => exact .inl (tokens_of_breaksOff_spelling hr h)
  | repeated q | expression q table shape => cases hloop

/-- A text does not break off in an element that has its token, unless it does in a phrase inside. -/
theorem not_safe_of_breaksOff (hregular : Regular element) (hwithin : staysWithin element = true) (hr : r.Fed poised)
    (h : BreaksOff ((grammar l).parseElement recur children element) r) : isSafe poised element = false := by
  refine Bool.eq_false_iff.mpr fun hsafe => ?_
  simp only [isSafe, Bool.and_eq_true, Bool.not_eq_true'] at hsafe
  obtain ⟨⟨rfl, hloop⟩, hshut⟩ := hsafe
  rcases inside_of_breaksOff piece hregular hloop (.inl rfl) hr h with hnil | ⟨q, hq, r₁, hr₁, hbreaks, -⟩
  · exact hr.tokens_ne hnil
  · exact List.any_eq_false.mp hshut q hq (henter.closes q r₁ (ne_program_of_staysWithin hwithin q hq) hr₁ hbreaks).2

/-- An element within which a text breaks off can be completed before what completes the rest of its rule. -/
theorem closable_element (hregular : Regular element)
    (hwithin : staysWithin element = true) (hpoised : poised = true ∨ entersAtOnce element = false)
    (hmay : mayClose l element rest = true) (hr : r.Fed poised)
    (h : BreaksOff ((grammar l).parseElement recur children element) r) :
    Closable (Token.IsWord (nexts rest)) (Takes (grammar l).starts piece element) r.cursor ∧
      (rest.any isPhrase = true → 0 < levels) := by
  simp only [mayClose, Bool.and_eq_true] at hmay
  obtain ⟨hrow, hmay⟩ := hmay
  have hstops : ∀ {t : Token}, t.IsWord (nexts rest) → t.IsWord stops := fun ht => stops_of_nexts hrow ht
  have hunit := ne_program_of_staysWithin hwithin
  -- in a phrase inside, what completes the phrase will do
  have hphrase : isLoop element = false → r.cursor.tokens = [] ∨
      Closable (Token.IsWord (nexts rest)) (Takes (grammar l).starts piece element) r.cursor ∧ 0 < levels := by
    intro hloop
    rcases inside_of_breaksOff piece hregular hloop hpoised hr h with hnil | ⟨q, hq, r₁, hr₁, hbreaks, hinside⟩
    · exact .inl hnil
    · refine .inr ⟨(henter.closes q r₁ (hunit q hq) hr₁ hbreaks).1.imp hstops fun _ hreads htokens => ?_,
        henter.levels q r₁ hbreaks⟩
      obtain ⟨nodes, htakes⟩ := hinside hreads
      exact ⟨nodes, _, htakes, htokens⟩
  cases element with
  | phrase q | choice rules =>
    obtain rfl : poised = true := hpoised.resolve_right (by simp [entersAtOnce])
    obtain ⟨hcloses, hlevels⟩ := (hphrase rfl).resolve_left hr.tokens_ne
    exact ⟨hcloses, fun _ => hlevels⟩
  | repeated q =>
    simp only [Bool.and_eq_true, Bool.not_eq_true'] at hmay
    refine ⟨?_, fun hblock => by rw [hmay.2] at hblock; cases hblock⟩
    have hcloses := closable_repeatWhile (henter.prolongs q) (henter.reads q) (fun r node r' hr h => henter.fed hr h)
      (fun r hr h => (henter.closes q r (hunit q (List.mem_singleton.mpr rfl)) hr h).1) (asks_fits l hregular.repeated)
      hr (rounds_bind h).of_pure
    exact hcloses.imp (fun ht => ⟨hstops ht, passes_eq hmay.1 ht⟩) fun _ hrounds htokens => ⟨_, _, .repeated hrounds, htokens⟩
  | optional q =>
    simp only [Bool.and_eq_true, Bool.not_eq_true'] at hmay
    refine ⟨?_, fun hblock => by rw [hmay.2] at hblock; cases hblock⟩
    rcases hphrase rfl with hnil | ⟨hcloses, -⟩
    · have htokens := Cursor.tokens_upTo_nil hnil
      exact ⟨[], by simp, fun line t more ht =>
        ⟨[], _, .absent (.of_tokens (htokens _)) (passes_eq hmay.1 ht), htokens _⟩⟩
    · exact hcloses
  | token accepted maker => cases hmay
  | spelling spellings keep =>
    cases spellings with
    | nil => cases hmay
    | cons word others =>
      simp only [Bool.and_eq_true, Bool.not_eq_true', List.contains_iff_mem] at hmay
      refine ⟨?_, fun hblock => by rw [hmay.2] at hblock; cases hblock⟩
      have htokens := Cursor.tokens_upTo_nil (tokens_of_breaksOff_spelling hr h)
      refine ⟨[word], by simpa using hmay.1, fun line t more _ => ?_⟩
      have hspelled : isSpelled (word :: others) (Token.mark line word) = true := by simp [isSpelled, Token.mark]
      exact ⟨_, _, .spelling (htokens _) hspelled, rfl⟩
  | expression q table shape =>
    obtain rfl : poised = true := hpoised.resolve_right (by simp [entersAtOnce])
    simp only [staysWithin, Bool.and_eq_true, Option.isNone_iff_eq_none] at hwithin
    simp only [Bool.and_eq_true, beq_iff_eq, Bool.not_eq_true', List.all_eq_true, Option.isNone_iff_eq_none] at hmay
    obtain ⟨⟨rfl, hblock⟩, hnone⟩ := hmay
    refine ⟨?_, fun h => by rw [hblock] at h; cases h⟩
    have hnot : ∀ {t : Token}, t.IsWord (nexts rest) → operatorOf table t = none := by
      intro t ht
      rw [operatorOf, if_pos ht.1]
      exact hnone _ ht.2
    have hoperand := fun reason => Enters.stays follows_abreast (henter.follows q reason) hwithin.1
    rcases (rounds_bind h).bind with hbreaks | ⟨left, r₁, hleft, h⟩
    · obtain ⟨hcloses, -⟩ := henter.closes q r (hunit q (List.mem_singleton.mpr rfl)) hr hbreaks
      refine hcloses.imp hstops fun ht hreads htokens => ?_
      exact ⟨_, _, .expression hreads (climbs_stop htokens (hnot ht)), htokens⟩
    · obtain ⟨hstands, hbroken⟩ := Follows.fed hoperand hr.broken hr.stands hleft
      obtain ⟨-, hfirst⟩ := henter.prolongs q (henter.reads q _ _ _ hleft) hr.unfinished
      have hcloses := closable_climb (henter.prolongs q) (henter.reads q)
        (fun r hr h => (henter.closes q r (hunit q (List.mem_singleton.mpr rfl)) hr h).1) (fun _ _ _ _ => ⟨_, rfl⟩)
        hoperand hwithin.2 ⟨hbroken, hstands⟩ (BreaksOff.of_pure h)
      exact hcloses.imp (fun ht => ⟨hstops ht, hnot ht⟩) fun _ hclimbs htokens =>
        ⟨_, _, .expression (hfirst _) hclimbs, htokens⟩

omit henter in
theorem closable_elements (henter : Entering recur (Reads l levels) levels)
    (hregular : ∀ element ∈ elements, Regular element) (hsteady : steady poised elements = true)
    (hcloses : closesFrom l poised elements = true) (hr : r.Fed poised)
    (h : BreaksOff ((grammar l).parseElements recur elements children) r) :
    Closable (Token.IsWord stops) (ReadsRow l levels elements) r.cursor ∧
      isShut poised elements = false := by
  induction elements generalizing poised r children with
  | nil => exact absurd h not_breaksOff_pure
  | cons element rest ih =>
    simp only [steady, Bool.and_eq_true, Bool.or_eq_true, Bool.not_eq_true'] at hsteady
    obtain ⟨⟨⟨hpoised, hwithin⟩, -⟩, hsteady⟩ := hsteady
    simp only [closesFrom, isShut, Bool.and_eq_true, Bool.or_eq_true, Bool.and_eq_false_iff] at hcloses ⊢
    obtain ⟨hfirst, hcloses⟩ := hcloses
    obtain ⟨hregular, hothers⟩ := List.forall_mem_cons.mp hregular
    rcases h.bind with hbreaks | ⟨nodes, r₁, helement, h⟩
    · -- the element is completed, and then the rest of its row
      have hunsafe := henter.not_safe_of_breaksOff hregular hwithin hr hbreaks
      have hmay := hfirst.resolve_left (Bool.eq_false_iff.mp hunsafe)
      obtain ⟨⟨words, hwords, hcompletes⟩, hlevels⟩ := henter.closable_element hregular hwithin hpoised hmay hr hbreaks
      have hrow : closesRow l rest = true := (Bool.and_eq_true_iff.mp hmay).1
      refine ⟨⟨words ++ closingWords rest, List.forall_mem_append.mpr ⟨hwords, marks_of_closesRow hrow⟩,
        fun line t more ht => ?_⟩, .inl hunsafe⟩
      · let after : Cursor := ⟨(closingWords rest).map (Token.mark line) ++ t :: more, 0, true⟩
        obtain ⟨u, others, hnext, hu⟩ := sees_nexts (c := after) ht rfl
        obtain ⟨nodes, c₁, htakes, htokens⟩ := hcompletes line u others hu
        obtain ⟨more', c₂, hrest, hends⟩ := takesAll_closing hrow hlevels ht (htokens.trans hnext.symm)
        refine ⟨nodes ++ more', c₂, .cons ?_ hrest, hends⟩
        rw [List.map_append, List.append_assoc, show _ ++ t :: more = u :: others from hnext]
        exact htakes
    · obtain ⟨new, -, htakes⟩ := takes_of_parseElement henter.reads hregular helement
      have hr₁ := henter.fed_element hregular hpoised hwithin hr helement
      obtain ⟨-, hlonger⟩ := prolongs_takes henter.prolongs element htakes hr.unfinished
      obtain ⟨hcloses, hshut⟩ := ih hothers hsteady hcloses hr₁ h
      exact ⟨hcloses.imp id fun _ hrest hends => ⟨_, _, .cons (hlonger _) hrest, hends⟩, .inr hshut⟩

end Entering

/-! ## Phrases and units -/

variable {settings : ParseSettings}

theorem breaksOff_row (hr : r.Fed true) (h : BreaksOff ((grammar l).parseWithin settings (levels + 1) p) r) :
    ∃ r₁, r₁.Fed true ∧ r₁.cursor = r.cursor ∧
      BreaksOff ((grammar l).parseElements ((grammar l).parseWithin settings levels) ((grammar l).rule p).elements []) r₁ := by
  obtain ⟨trace, hnoted⟩ :=
    noteEntry_of_ready settings ((grammar l).rule p).title (settings.maxDepth - levels) hr.stands.ready
  refine ⟨{ r with trace }, ⟨hr.broken, hr.stands⟩, rfl, ?_⟩
  rcases (h.after hnoted).bind with hbreaks | ⟨children, r₂, -, h⟩
  · exact hbreaks
  · generalize ((grammar l).rule p).shape = res at h ⊢
    cases res with
    | none => exact absurd h not_breaksOff_pure
    | some shape => exact absurd h not_breaksOff_build

theorem not_breaksOff_tooDeep : ¬ BreaksOff ((grammar l).parseWithin settings 0 p) r := by
  intro h
  rcases h.bind with ⟨reason, r', hanyway⟩ | ⟨t, r₁, -, hthrow⟩
  · unfold peekAnyway at hanyway
    cases hpeek : peek r <;> rw [hpeek] at hanyway <;> cases hanyway
  · exact not_breaksOff_throw hthrow

theorem entering_parseWithin (l : Layers) (settings : ParseSettings) (levels : Nat) :
    Entering ((grammar l).parseWithin settings levels) (Reads l levels) levels := by
  induction levels with
  | zero =>
    refine ⟨prolongs_reads l 0, fun _ _ _ _ => reads_of_parseWithin, fun q _ => follows_parseWithin rfl 0 q, ?_, ?_⟩
    · exact fun q r _ _ h => absurd h not_breaksOff_tooDeep
    · exact fun q r h => absurd h not_breaksOff_tooDeep
  | succ levels ih =>
    refine ⟨prolongs_reads l _, fun _ _ _ _ => reads_of_parseWithin, fun q _ => follows_parseWithin rfl _ q, ?_,
      fun _ _ _ => Nat.succ_pos _⟩
    intro p r hp hr h
    have hsteady := steadyRule_eq_true l p
    simp only [steadyRule, Bool.and_eq_true] at hsteady
    have htable := closesRule l p
    simp only [Bool.or_eq_true, beq_iff_eq, hp, Bool.and_eq_true, false_or] at htable
    obtain ⟨r₁, hr₁, hsame, hrow⟩ := breaksOff_row hr h
    obtain ⟨hcloses, hshut⟩ := ih.closable_elements (regular_elements l p) hsteady.1.1 htable.1 hr₁ hrow
    rw [hsame] at hcloses
    refine ⟨hcloses.imp id fun _ htakes htokens => ?_, htable.2.resolve_right (Bool.eq_false_iff.mp hshut)⟩
    obtain ⟨node, c', hreads, hsame'⟩ := reads_of_takesAll htakes
    exact ⟨node, c', hreads, hsame'.trans htokens⟩

/-- A unit within which a text breaks off is completed by closing words and the end of a line. -/
theorem closable_unit (hr : r.Fed true) (h : BreaksOff (parseUnit l settings) r) :
    ∃ words : List Text, (∀ word ∈ words, word ∈ closingMarks) ∧ ∀ line : Nat, ∃ node c',
      Reads l settings.maxDepth .program
        (r.cursor.upTo (words.map (Token.mark line) ++ [Token.endOfLine line])) node c' ∧ c'.tokens = [] := by
  unfold parseUnit Grammar.parse at h
  generalize settings.maxDepth = res at h ⊢
  cases res with
  | zero => exact absurd h not_breaksOff_tooDeep
  | succ levels =>
    have henter := entering_parseWithin l settings levels
    obtain ⟨rules, hrule⟩ : ∃ rules, ((grammar l).rule .program).elements = [.choice rules, separator] := ⟨_, rfl⟩
    obtain ⟨r₁, hr₁, hsame, hrow⟩ := breaksOff_row hr h
    have hregular := regular_elements l .program
    have hwithin : staysWithin (.choice rules) = true := by
      have htable := steadyRule_eq_true l .program
      simp only [steadyRule, Bool.and_eq_true] at htable
      exact steady_within htable.1.1 _ (by rw [hrule]; exact List.mem_cons_self)
    rw [hrule] at hregular hrow
    rcases hrow.bind with hbreaks | ⟨nodes, r₂, hchoice, hrest⟩
    · have hlast : mayClose l (.choice rules) [] = true := rfl
      obtain ⟨⟨words, hwords, hcloses⟩, -⟩ :=
        henter.closable_element (hregular _ List.mem_cons_self) hwithin (.inl rfl) hlast hr₁ hbreaks
      rw [hsame] at hcloses
      refine ⟨words, hwords, fun line => ?_⟩
      obtain ⟨nodes, c₁, htakes, htokens⟩ :=
        hcloses line (Token.endOfLine line) [] ⟨rfl, List.mem_cons_self⟩
      have hends : Takes (grammar l).starts (Reads l levels) separator c₁ [] (c₁.withTokens []) := .spelling htokens rfl
      have hunit : ReadsRow l levels ((grammar l).rule .program).elements
          (r.cursor.upTo (words.map (Token.mark line) ++ [Token.endOfLine line])) (nodes ++ ([] ++ []))
          (c₁.withTokens []) := by
        rw [hrule]
        exact .cons htakes (.cons hends .nil)
      obtain ⟨node, c', hreads, hends'⟩ := reads_of_takesAll hunit
      exact ⟨node, c', hreads, hends'⟩
    · -- after the choice the next token is there, so its end is
      have hfed : r₂.Fed true := henter.fed_element (hregular _ List.mem_cons_self) (.inl rfl) hwithin hr₁ hchoice
      exact absurd (tokens_of_breaksOff_spelling hfed (BreaksOff.of_pure hrest)) hfed.tokens_ne

end Language

end StoneLang
