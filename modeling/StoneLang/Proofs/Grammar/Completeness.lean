/-
  Whatever can be read is read.

  `Language.Reads` says what a phrase reads, and `reads_of_parseWithin` that the parser reads nothing else.  Here
  is the other half.  On a text without faults (`Stream.Clean`) the parser reads what the relation says, or
  fails because it is too deep, and with as many levels as the relation uses it does not fail
  (`Language.gives_parseWithin`).

  The parser's loops are bounded by the tokens that the stream had at the start.  Every round takes a token
  (`Language.Reads.shrinks`), and so no loop is cut short.
-/
import StoneLang.Proofs.Grammar.Derivation
import StoneLang.Proofs.Token.Beginnings

namespace StoneLang

/-! ## Texts without faults -/

namespace Stream

theorem peek_clean (h : s.Clean) : ∃ t s', peek 0 s = .ok t s' ∧ s'.Clean := by
  obtain ⟨hbroken, hscans⟩ := h
  obtain ⟨s', hfill, hclean, -⟩ := fillFrom_clean 0 s.queue hscans
  have hfill' : fill 0 s = .ok () s' := by
    unfold fill
    rw [hbroken]
    exact hfill
  exact ⟨_, s', by rw [peek_eq, hfill'], hclean⟩

end Stream

/-! ## Readings at a cursor -/

/-- The reading stands at the cursor, in a text without faults, and its loops are bounded by `limit`, which is
more than the tokens that are left. -/
structure Reading.Shows (r : Reading) (c : Cursor) (limit : Nat) : Prop where
  clean : r.stream.Clean
  cursor : r.cursor = c
  bound : r.bound = limit
  room : c.tokens.length < limit

namespace Cursor

variable {c : Cursor} {t t' : Token}

theorem Sees.unique (h : c.Sees t) (h' : c.Sees t') :
    t = t' ∨ ∃ line line', t = .endOfInput line ∧ t' = .endOfInput line' := by
  rcases h with hhead | ⟨hnil, -, line, rfl⟩
  · rcases h' with hhead' | ⟨hnil, -⟩
    · rw [hhead] at hhead'
      exact .inl (Option.some.inj hhead')
    · rw [hnil] at hhead
      cases hhead
  · rcases h' with hhead' | ⟨-, -, line', rfl⟩
    · rw [hnil] at hhead'
      cases hhead'
    · exact .inr ⟨line, line', rfl, rfl⟩

theorem Sees.lead_eq (h : c.Sees t) (h' : c.Sees t') : t.lead = t'.lead := by
  rcases h.unique h' with rfl | ⟨line, line', rfl, rfl⟩ <;> rfl

theorem Sees.starts_eq (h : c.Sees t) (h' : c.Sees t') (l : Layers) (p : Language.Phrase) :
    (Language.grammar l).starts p t = (Language.grammar l).starts p t' := by
  rw [← Language.starts_lead l p t, h.lead_eq h', Language.starts_lead]

theorem Sees.find?_eq (h : c.Sees t) (h' : c.Sees t') (l : Layers) (rules : List Language.Phrase) :
    rules.find? ((Language.grammar l).starts · t) = rules.find? ((Language.grammar l).starts · t') := by
  simp only [h.starts_eq h' l]

theorem Sees.operatorOf_eq (h : c.Sees t) (h' : c.Sees t') (operators : Operators) :
    operatorOf operators t = operatorOf operators t' := by
  rcases h.unique h' with rfl | ⟨line, line', rfl, rfl⟩ <;> rfl

end Cursor

def Failure.IsTooDeep (e : Failure) : Prop :=
  ∃ (pass : Text) (limit : Nat) (line : Int), e = .atLine (.tooDeep pass limit) line

theorem Climbs.shrinks
    (hshrinks : ∀ c node c', operand c node c' → c'.tokens.length < c.tokens.length)
    (h : Climbs operand operators shape takes left c node c') :
    c'.tokens.length ≤ c.tokens.length := by
  induction h with
  | stop => exact Nat.le_refl _
  | @step _ _ _ _ _ _ c c₁ c₂ c₃ _ rest _ next _ _ second _ _ _ ihinner ihouter =>
    have hless : c₁.tokens.length < rest.length := hshrinks _ _ _ second
    have hlength : c.tokens.length = rest.length + 1 := by rw [next]; rfl
    change c₃.tokens.length ≤ c₂.tokens.length at ihouter
    omega

namespace Parse

variable {α β : Type} {c c₁ c₂ : Cursor} {bound : Nat} {r : Reading} {short : Prop}

/-- The action gives `a` and goes on at the cursor; or, where levels are short, it fails as too deep. -/
def Gives (x : Parse α) (r : Reading) (a : α) (c : Cursor) (bound : Nat) (short : Prop) : Prop :=
  (∃ r', x r = .ok a r' ∧ r'.Shows c bound) ∨ short ∧ ∃ e r', x r = .error e r' ∧ e.IsTooDeep

theorem Gives.pure (a : α) (h : r.Shows c bound) : Gives (Pure.pure a) r a c bound short := .inl ⟨r, rfl, h⟩

variable {x : Parse α} {t : Token} {rest : List Token} {shape : Shape} {node : Node} {c' : Cursor} {rounds : Nat}

theorem Gives.bind (hx : Gives x r a c₁ bound short)
    (hf : ∀ r₁, r₁.Shows c₁ bound → Gives (f a) r₁ b c₂ bound short) : Gives (x >>= f) r b c₂ bound short := by
  rcases hx with ⟨r₁, hok, hshows⟩ | ⟨hshort, e, r₁, herror, hdeep⟩
  · rcases hf r₁ hshows with ⟨r₂, hok', hshows'⟩ | ⟨hshort, e, r₂, herror, hdeep⟩
    · exact .inl ⟨r₂, bind_eq_ok.mpr ⟨a, r₁, hok, hok'⟩, hshows'⟩
    · exact .inr ⟨hshort, e, r₂, bind_eq_error.mpr (.inr ⟨a, r₁, hok, herror⟩), hdeep⟩
  · exact .inr ⟨hshort, e, r₁, bind_eq_error.mpr (.inl herror), hdeep⟩

theorem peek_shows (h : r.Shows c bound) : ∃ t r', peek r = .ok t r' ∧ c.Sees t ∧ r'.Shows c bound := by
  obtain ⟨t, s, hpeek, hclean⟩ := Stream.peek_clean h.clean
  have hok : peek r = .ok t { r with stream := s } := peek_eq_ok.mpr ⟨s, hpeek, rfl⟩
  obtain ⟨hsees, hcursor⟩ := cursor_peek hok
  rw [h.cursor] at hsees hcursor
  exact ⟨t, _, hok, hsees, ⟨hclean, hcursor, h.bound, h.room⟩⟩

theorem asks_shows (hasks : Asks x answer) (h : r.Shows c bound) :
    ∃ t r', x r = .ok (answer t) r' ∧ c.Sees t ∧ r'.Shows c bound := by
  obtain ⟨t, r', hpeek, hsees, hshows⟩ := peek_shows h
  exact ⟨t, r', by rw [asks_apply hasks, hpeek], hsees, hshows⟩

theorem peek_token (h : r.Shows c bound) (htokens : c.tokens = t :: rest) :
    ∃ r', peek r = .ok t r' ∧ r'.Shows c bound := by
  obtain ⟨t', r', hpeek, hsees, hshows⟩ := peek_shows h
  obtain rfl := hsees.head_eq htokens
  exact ⟨r', hpeek, hshows⟩

theorem read_token (h : r.Shows c bound) (htokens : c.tokens = t :: rest) :
    ∃ r', read r = .ok t r' ∧ r'.Shows (c.withTokens rest) bound := by
  obtain ⟨r₁, hpeek, hshows⟩ := peek_token h htokens
  obtain ⟨s, hs, rfl⟩ := peek_eq_ok.mp hpeek
  have hready := (Stream.peek_eq_ok hs).1
  have hsame : s.tokens = c.tokens := congrArg Cursor.tokens hshows.cursor
  have hhead : s.tokens.head? = some t := by
    rw [hsame, htokens]
    rfl
  obtain ⟨s', hread, hrest, hbroken, hpending, hline⟩ := Stream.read_of_ready hready hhead
  rw [← Stream.read_of_peek hs] at hread
  have hroom : rest.length < bound := by
    have := h.room
    rw [htokens, List.length_cons] at this
    omega
  refine ⟨{ r with stream := s' }, by simp only [read, onStream, hread], ?_, ?_, hshows.bound, hroom⟩
  · obtain ⟨hends, hscans⟩ := hshows.clean
    exact ⟨hbroken.trans hends, by rw [hpending, hline]; exact hscans⟩
  · have htail : s'.tokens = rest := by
      rw [hrest, htokens] at hsame
      exact (List.cons.inj hsame).2
    rw [← hshows.cursor]
    simp only [Reading.cursor, Cursor.withTokens, htail, hbroken]

theorem freshSite_shows (h : r.Shows c bound) :
    ∃ r', freshSite r = .ok c.site r' ∧ r'.Shows c.spend bound := by
  refine ⟨{ r with nextSite := r.nextSite + 1 }, ?_, h.clean, ?_, h.bound, h.room⟩
  · rw [← h.cursor]
    rfl
  · rw [← h.cursor]
    rfl

theorem build_gives (h : r.Shows c bound) (hbuilt : shape.build c.site children = .ok node) :
    Gives (build shape children) r node c.spend bound short := by
  obtain ⟨r', hsite, hshows⟩ := freshSite_shows h
  refine .inl ⟨r', bind_eq_ok.mpr ⟨c.site, r', hsite, ?_⟩, hshows⟩
  simp only [hbuilt]
  rfl

theorem repeatWhile_gives
    (hfits : Asks fits ((Language.grammar l).starts p))
    (hone : ∀ r c node c', one c node c' → r.Shows c bound → Gives parse r node c' bound short)
    (hshrinks : ∀ c node c', one c node c' → c'.tokens.length < c.tokens.length)
    (h : Repeats ((Language.grammar l).starts p) one c nodes c') (hrounds : c.tokens.length < rounds)
    (before : List Node) (hshows : r.Shows c bound) :
    Gives (repeatWhile fits parse rounds before) r (before.reverse ++ nodes) c' bound short := by
  induction h generalizing r rounds before with
  | @stop c t sees ends =>
    obtain ⟨rounds, rfl⟩ : ∃ n, rounds = n + 1 := ⟨rounds - 1, by omega⟩
    obtain ⟨t', r₁, hfit, hsees, hshows₁⟩ := asks_shows hfits hshows
    rw [hsees.starts_eq sees, ends] at hfit
    refine .inl ⟨r₁, ?_, hshows₁⟩
    unfold repeatWhile
    rw [bind_of_ok hfit, List.append_nil]
    rfl
  | @round c c₁ c₂ t node nodes sees goes first rest ih =>
    obtain ⟨rounds, rfl⟩ : ∃ n, rounds = n + 1 := ⟨rounds - 1, by omega⟩
    obtain ⟨t', r₁, hfit, hsees, hshows₁⟩ := asks_shows hfits hshows
    rw [hsees.starts_eq sees, goes] at hfit
    have hless := hshrinks _ _ _ first
    unfold repeatWhile
    refine Gives.bind (.inl ⟨r₁, hfit, hshows₁⟩) fun r₂ hshows₂ => ?_
    refine (hone _ _ _ _ first hshows₂).bind fun r₃ hshows₃ => ?_
    have hroom : c₁.tokens.length < rounds := by omega
    have hrest := ih hroom (if isBlankGroup node then before else node :: before) hshows₃
    have hnodes : (if isBlankGroup node then before else node :: before).reverse ++ nodes
        = before.reverse ++ (added node ++ nodes) := by
      unfold added
      split <;> simp
    rw [← hnodes]
    exact hrest

theorem climb_gives
    (hoperand : ∀ r c node c', piece c node c' → r.Shows c bound → Gives operand r node c' bound short)
    (hshrinks : ∀ c node c', piece c node c' → c'.tokens.length < c.tokens.length)
    (h : Climbs piece operators shape takes left c node c') (hrounds : c.tokens.length < rounds)
    (hshows : r.Shows c bound) :
    Gives (climb operand operators shape rounds takes left) r node c' bound short := by
  have hasks : Asks (nextOperator operators) (operatorOf operators) := rfl
  induction h generalizing r rounds with
  | @stop takes left c t sees ends =>
    obtain ⟨rounds, rfl⟩ : ∃ n, rounds = n + 1 := ⟨rounds - 1, by omega⟩
    obtain ⟨t', r₁, hnext, hsees, hshows₁⟩ := asks_shows hasks hshows
    rw [hsees.operatorOf_eq sees] at hnext
    refine .inl ⟨r₁, ?_, hshows₁⟩
    unfold climb
    rw [bind_of_ok hnext]
    cases hop : operatorOf operators t with
    | none => rfl
    | some precedence =>
      dsimp only
      rw [ends precedence hop]
      rfl
  | @step takes left right right' joined node c c₁ c₂ c₃ t rest precedence next operator goes second inner built
      outer ihinner ihouter =>
    have hless : c₁.tokens.length < rest.length := hshrinks _ _ _ second
    have hinner := inner.shrinks hshrinks
    have hlength : c.tokens.length = rest.length + 1 := by rw [next]; rfl
    obtain ⟨rounds, rfl⟩ : ∃ n, rounds = n + 1 := ⟨rounds - 1, by omega⟩
    obtain ⟨r₁, hpeek, hshows₁⟩ := peek_token hshows next
    have hnext : nextOperator operators r = .ok (some precedence) r₁ := by
      rw [asks_apply hasks, hpeek, ← operator]
    unfold climb
    refine Gives.bind (.inl ⟨r₁, hnext, hshows₁⟩) fun r₂ hshows₂ => ?_
    dsimp only
    rw [goes]
    refine Gives.bind (.inl (read_token hshows₂ next)) fun r₃ hshows₃ => ?_
    refine (hoperand _ _ _ _ second hshows₃).bind fun r₄ hshows₄ => ?_
    have hroom : c₁.tokens.length < rounds := by omega
    refine (ihinner hroom hshows₄).bind fun r₅ hshows₅ => ?_
    refine (build_gives hshows₅ built).bind fun r₆ hshows₆ => ?_
    have hroom' : c₂.spend.tokens.length < rounds := by
      show c₂.tokens.length < rounds
      omega
    exact ihouter hroom' hshows₆

end Parse

namespace Language

open Parse

/-! ## Every phrase takes a token -/

def consumes : Element Phrase → Bool
  | .phrase q | .expression q _ _ => !q.isBlank
  | .choice rules => rules.all fun q => !q.isBlank
  | .token .. | .spelling .. => true
  | .repeated _ | .optional _ => false

theorem consumes_rule : ∀ l p, (p.isBlank || ((grammar l).rule p).elements.any consumes) = true :=
  checked (by decide)

variable {l : Layers} {levels : Nat} {c c' : Cursor} {nodes : List Node}

variable {element : Element Phrase} {p : Phrase} {node : Node}

theorem takes_shrinks (hregular : Regular element)
    (hrec : ∀ q c node c', recur q c node c' →
      c'.tokens.length ≤ c.tokens.length ∧ (q.isBlank = false → c'.tokens.length < c.tokens.length))
    (h : Takes (grammar l).starts recur element c nodes c') :
    c'.tokens.length ≤ c.tokens.length ∧ (consumes element = true → c'.tokens.length < c.tokens.length) := by
  cases h with
  | phrase reads =>
    obtain ⟨hle, hlt⟩ := hrec _ _ _ _ reads
    exact ⟨hle, fun hq => hlt (by simpa [consumes] using hq)⟩
  | choice sees chosen reads =>
    obtain ⟨hle, hlt⟩ := hrec _ _ _ _ reads
    refine ⟨hle, fun hall => hlt ?_⟩
    simpa using List.all_eq_true.mp hall _ (List.mem_of_find?_eq_some chosen)
  | repeated rounds =>
    refine ⟨?_, nofun⟩
    induction rounds with
    | stop => exact Nat.le_refl _
    | round _ _ first _ ih => exact Nat.le_trans ih (hrec _ _ _ _ first).1
  | absent => exact ⟨Nat.le_refl _, nofun⟩
  | present _ _ reads => exact ⟨(hrec _ _ _ _ reads).1, nofun⟩
  | @token _ _ _ t rest _ next =>
    have hlength : c.tokens.length = rest.length + 1 := by rw [next]; rfl
    have hrest : ((c.withTokens rest).spend).tokens.length = rest.length := rfl
    exact ⟨by omega, fun _ => by omega⟩
  | @spelling _ _ _ t rest next =>
    have hlength : c.tokens.length = rest.length + 1 := by rw [next]; rfl
    have hrest : (c.withTokens rest).tokens.length = rest.length := rfl
    exact ⟨by omega, fun _ => by omega⟩
  | @expression q _ _ _ c₁ _ _ _ first rest =>
    have hless := (hrec _ _ _ _ first).2 hregular.expression
    have hclimbs := rest.shrinks fun _ _ _ hreads => (hrec _ _ _ _ hreads).2 hregular.expression
    exact ⟨by omega, fun _ => by omega⟩

/-- What a phrase reads, it takes from the front; and it takes a token, unless it is blank. -/
theorem Reads.shrinks (h : Reads l levels p c node c') :
    c'.tokens.length ≤ c.tokens.length ∧ (p.isBlank = false → c'.tokens.length < c.tokens.length) := by
  induction levels generalizing p c node c' with
  | zero => exact h.elim
  | succ levels ih =>
    obtain ⟨children, c₁, htakes, hfinishes⟩ := h
    have hrest : c'.tokens = c₁.tokens := by rcases hfinishes.place with rfl | rfl <;> rfl
    have htable := consumes_rule l p
    have hregular := regular_elements l p
    generalize ((grammar l).rule p).elements = elements at htakes htable hregular
    have hall : c₁.tokens.length ≤ c.tokens.length ∧
        (elements.any consumes = true → c₁.tokens.length < c.tokens.length) := by
      clear hrest hfinishes htable
      induction htakes with
      | nil => exact ⟨Nat.le_refl _, nofun⟩
      | @cons element rest c c₁ c₂ nodes more first others ihrest =>
        obtain ⟨hle, hlt⟩ := takes_shrinks (hregular element List.mem_cons_self) (fun _ _ _ _ hq => ih hq) first
        obtain ⟨hle', hlt'⟩ := ihrest (List.forall_mem_cons.mp hregular).2
        refine ⟨Nat.le_trans hle' hle, fun hany => ?_⟩
        rw [List.any_cons, Bool.or_eq_true] at hany
        rcases hany with hfirst | hrest
        · have := hlt hfirst
          omega
        · have := hlt' hrest
          omega
    rw [hrest]
    refine ⟨hall.1, fun hblank => hall.2 ?_⟩
    simpa [hblank] using htable

/-! ## The parser reads what can be read -/

variable {r : Reading} {bound : Nat} {short : Prop}

section

variable {recur : Phrase → Parse Node} {piece : Phrase → Piece}
  (hrecur : ∀ q r c node c', piece q c node c' → r.Shows c bound → Gives (recur q) r node c' bound short)
  (hshrinks : ∀ q c node c', piece q c node c' → q.isBlank = false → c'.tokens.length < c.tokens.length)

include hrecur hshrinks

theorem gives_parseElement (hregular : Regular element) (children : List Node)
    (h : Takes (grammar l).starts piece element c nodes c') (hshows : r.Shows c bound) :
    Gives ((grammar l).parseElement recur children element) r (children ++ nodes) c' bound short := by
  cases h with
  | phrase reads => exact (hrecur _ _ _ _ _ reads hshows).bind fun _ hshows' => .pure _ hshows'
  | @choice rules q _ _ t node sees chosen reads =>
    obtain ⟨t', r₁, hfound, hsees, hshows₁⟩ := asks_shows (asks_choice hregular) hshows
    rw [hsees.find?_eq sees, chosen] at hfound
    refine Gives.bind (.inl ⟨r₁, hfound, hshows₁⟩) fun r₂ hshows₂ => ?_
    exact (hrecur _ _ _ _ _ reads hshows₂).bind fun _ hshows₃ => .pure _ hshows₃
  | @repeated q _ _ _ rounds =>
    refine Gives.bind (.inl ⟨r, rfl, hshows⟩) fun r₁ hshows₁ => ?_
    have hloop := repeatWhile_gives (asks_fits l hregular.repeated) (hrecur q) (fun c node c' hq => hshrinks q c node c' hq hregular.repeated)
      rounds (hshows.bound ▸ hshows.room) [] hshows₁
    exact hloop.bind fun _ hshows₂ => .pure _ hshows₂
  | @absent q _ t sees ends =>
    obtain ⟨t', r₁, hfit, hsees, hshows₁⟩ := asks_shows (asks_fits l hregular.optional) hshows
    rw [hsees.starts_eq sees, ends] at hfit
    refine Gives.bind (.inl ⟨r₁, hfit, hshows₁⟩) fun r₂ hshows₂ => ?_
    rw [List.append_nil]
    exact .pure _ hshows₂
  | @present q _ _ t node sees goes reads =>
    obtain ⟨t', r₁, hfit, hsees, hshows₁⟩ := asks_shows (asks_fits l hregular.optional) hshows
    rw [hsees.starts_eq sees, goes] at hfit
    refine Gives.bind (.inl ⟨r₁, hfit, hshows₁⟩) fun r₂ hshows₂ => ?_
    refine (hrecur _ _ _ _ _ reads hshows₂).bind fun r₃ hshows₃ => ?_
    have hadded : (if isBlankGroup node then children else children ++ [node]) = children ++ added node := by
      unfold added
      split <;> simp
    rw [hadded]
    exact .pure _ hshows₃
  | @token accepted maker _ t rest node next accepts made =>
    refine Gives.bind (.inl (peek_token hshows next)) fun r₁ hshows₁ => ?_
    rw [accepts]
    refine Gives.bind (.inl (read_token hshows₁ next)) fun r₂ hshows₂ => ?_
    refine Gives.bind (.inl (freshSite_shows hshows₂)) fun r₃ hshows₃ => ?_
    have hmade : maker.make (c.withTokens rest).site t = .ok node := made
    rw [hmade]
    exact .pure _ hshows₃
  | @spelling spellings keep _ t rest next spelled =>
    refine Gives.bind (.inl (peek_token hshows next)) fun r₁ hshows₁ => ?_
    rw [spelled]
    refine Gives.bind (.inl (read_token hshows₁ next)) fun r₂ hshows₂ => ?_
    have hkept : (if keep then children ++ [.leaf ⟨t.text, t.line⟩] else children)
        = children ++ if keep then [.leaf ⟨t.text, t.line⟩] else [] := by
      cases keep <;> simp
    rw [hkept]
    exact .pure _ hshows₂
  | @expression q table shape _ c₁ _ left node first rest =>
    refine Gives.bind (.inl ⟨r, rfl, hshows⟩) fun r₁ hshows₁ => ?_
    refine (hrecur _ _ _ _ _ first hshows₁).bind fun r₂ hshows₂ => ?_
    have hloop := climb_gives (hrecur q) (fun c node c' hq => hshrinks q c node c' hq hregular.expression) rest
      (hshows.bound ▸ hshows₂.room) hshows₂
    exact hloop.bind fun _ hshows₃ => .pure _ hshows₃

theorem gives_parseElements (hregular : ∀ element ∈ elements, Regular element) (children : List Node) (h : TakesAll (grammar l).starts piece elements c nodes c') (hshows : r.Shows c bound) :
    Gives ((grammar l).parseElements recur elements children) r (children ++ nodes) c' bound short := by
  induction h generalizing r children with
  | nil =>
    rw [List.append_nil]
    exact .pure _ hshows
  | @cons element rest _ _ _ nodes more first others ih =>
    refine (gives_parseElement hrecur hshrinks (hregular element List.mem_cons_self) children first hshows).bind
      fun r₁ hshows₁ => ?_
    rw [← List.append_assoc]
    exact ih (List.forall_mem_cons.mp hregular).2 _ hshows₁

end

theorem Reads.exists_levels (h : Reads l levels p c node c') : ∃ n, levels = n + 1 := by
  cases levels with
  | zero => exact h.elim
  | succ n => exact ⟨n, rfl⟩

theorem gives_noteEntry (settings : ParseSettings) (title : Text) (depth : Nat) (hshows : r.Shows c bound) :
    Gives (Grammar.noteEntry settings title depth) r () c bound short := by
  unfold Grammar.noteEntry
  split
  · obtain ⟨t, r₁, hpeek, -, hshows₁⟩ := peek_shows hshows
    have hanyway : peekAnyway r = .ok t r₁ := by
      unfold peekAnyway
      rw [hpeek]
    refine Gives.bind (.inl ⟨r₁, hanyway, hshows₁⟩) fun r₂ hshows₂ => ?_
    exact .inl ⟨_, rfl, hshows₂.clean, hshows₂.cursor, hshows₂.bound, hshows₂.room⟩
  · exact .pure _ hshows

/-- What a phrase reads, the parser reads, unless it has fewer levels than that takes and runs out of them. -/
theorem gives_parseWithin (settings : ParseSettings) (available : Nat) (h : Reads l levels p c node c')
    (hshows : r.Shows c bound) :
    Gives ((grammar l).parseWithin settings available p) r node c' bound (available < levels) := by
  obtain ⟨levels, rfl⟩ := h.exists_levels
  induction available generalizing levels p c node c' r with
  | zero =>
    obtain ⟨t, r₁, hpeek, -, -⟩ := peek_shows hshows
    have hanyway : peekAnyway r = .ok t r₁ := by
      unfold peekAnyway
      rw [hpeek]
    have hdeep : (grammar l).parseWithin settings 0 p r
        = .error (.atLine (.tooDeep (text "parser") settings.maxDepth) t.line) r₁ := by
      unfold Grammar.parseWithin
      rw [bind_of_ok hanyway]
      rfl
    exact .inr ⟨Nat.succ_pos _, _, r₁, hdeep, _, _, _, rfl⟩
  | succ available ih =>
    obtain ⟨children, c₁, htakes, hfinishes⟩ := h
    have hrecur : ∀ q r c node c', Reads l levels q c node c' → r.Shows c bound →
        Gives ((grammar l).parseWithin settings available q) r node c' bound (available + 1 < levels + 1) := by
      intro q r c node c' hq hr
      obtain ⟨levels, rfl⟩ := hq.exists_levels
      rcases ih hr levels hq with hok | ⟨hshort, herror⟩
      · exact .inl hok
      · exact .inr ⟨Nat.succ_lt_succ hshort, herror⟩
    refine (gives_noteEntry settings _ _ hshows).bind fun r₁ hshows₁ => ?_
    refine (gives_parseElements hrecur (fun _ _ _ _ hq => hq.shrinks.2) (regular_elements l p) [] htakes hshows₁).bind
      fun r₂ hshows₂ => ?_
    unfold Finishes at hfinishes
    generalize ((grammar l).rule p).shape = res at hfinishes ⊢
    cases res with
    | none =>
      obtain ⟨rfl, rfl⟩ := hfinishes
      exact .pure _ hshows₂
    | some shape =>
      obtain ⟨hbuilt, rfl⟩ := hfinishes
      exact build_gives hshows₂ hbuilt

end Language

end StoneLang
