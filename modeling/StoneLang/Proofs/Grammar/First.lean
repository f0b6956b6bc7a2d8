/-
  What a phrase can start with.

  A rule fits when its first element does, and every decision looks at one token.  So a rule that fits is
  one that can start with the next token (`Grammar.starts`), which is no matter of the stream: the parser
  looks ahead once and then knows (`Language.asks_fits`).  The rules without elements fit any token, and the
  parser does not look for them (`Language.fits_blank`).

  In the grammar of the language every chain of rules, each first in the one before, ends after at most
  seven steps (`Language.rank`), so that the bound on such chains is never met.  What a phrase can start with
  depends on the kind of the token and, for an identifier, on which of the reserved words it is: of tokens
  that differ in nothing else one stands for all (`Token.lead`), and facts about starts are checked on these.
-/
import StoneLang.Grammar.Language
import StoneLang.Proofs.Token.Ahead

namespace StoneLang

/-! ## Starts -/

def Element.references {ι : Type} : Element ι → List ι
  | .phrase p | .repeated p | .optional p | .expression p _ _ => [p]
  | .choice rules => rules
  | .token .. | .spelling .. => []

/-- An element can start with the token, `starts` telling it for a rule. -/
def Element.startsWith {ι : Type} (starts : ι → Token → Bool) (t : Token) : Element ι → Bool
  | .phrase r | .repeated r | .optional r | .expression r _ _ => starts r t
  | .choice rules => rules.any (starts · t)
  | .token accepted _ => accepted.accepts t
  | .spelling spellings _ => isSpelled spellings t

/-- A rule can start with the token, following at most `bound` rules. -/
def Grammar.startsWithin {ι : Type} (g : Grammar ι) : Nat → ι → Token → Bool
  | 0, _, _ => false
  | bound + 1, r, t =>
    match (g.rule r).elements with
    | [] => true
    | element :: _ => element.startsWith (g.startsWithin bound) t

def Grammar.starts {ι : Type} (g : Grammar ι) : ι → Token → Bool := g.startsWithin g.count

/-! ## Looking ahead -/

namespace Parse

variable {r : Reading} {t : Token}

variable {r' : Reading} {α : Type} {x : Parse α} {answer : Token → α}

theorem peek_eq_ok : peek r = .ok t r' ↔ ∃ s, Stream.peek 0 r.stream = .ok t s ∧ r' = { r with stream := s } := by
  unfold peek onStream
  cases hres : Stream.peek 0 r.stream with
  | error e s => simp
  | ok t' s =>
    constructor
    · intro h
      cases h
      exact ⟨s, rfl, rfl⟩
    · rintro ⟨s', hs, rfl⟩
      cases hs
      rfl

theorem peek_again (h : peek r = .ok t r') : peek r' = .ok t r' := by
  obtain ⟨s, hs, rfl⟩ := peek_eq_ok.mp h
  exact peek_eq_ok.mpr ⟨s, Stream.peek_again hs, rfl⟩

/-- The action looks at the next token and does nothing else. -/
def Asks {α : Type} (x : Parse α) (answer : Token → α) : Prop :=
  x = do
    let t ← peek
    return answer t

theorem asks_apply (h : Asks x answer) (r : Reading) : x r = match peek r with
      | .ok t r' => .ok (answer t) r'
      | .error e r' => .error e r' := by
  rw [h, bind_apply]
  cases peek r <;> rfl

theorem asks_eq_ok (h : Asks x answer) (hok : x r = .ok a r') : ∃ t, peek r = .ok t r' ∧ answer t = a := by
  rw [h] at hok
  obtain ⟨t, r₁, hpeek, hok⟩ := bind_eq_ok.mp hok
  cases hok
  exact ⟨t, hpeek, rfl⟩

theorem asks_again (h : Asks x answer) (ht : peek r = .ok t r) : x r = .ok (answer t) r := by
  rw [asks_apply h, ht]

variable {ι : Type} {fits : ι → Parse Bool} {starts : ι → Token → Bool}

theorem firstFitting_again (h : ∀ p ∈ rules, fits p r = .ok (starts p t) r) :
    firstFitting fits rules r = .ok (rules.find? (starts · t)) r := by
  induction rules with
  | nil => rfl
  | cons p rest ih =>
    have hp : fits p r = .ok (starts p t) r := h p List.mem_cons_self
    have hrest := ih fun q hq => h q (List.mem_cons_of_mem _ hq)
    unfold firstFitting
    rw [bind_of_ok hp]
    cases hstarts : starts p t with
    | true => simp [hstarts]; rfl
    | false => simpa [List.find?_cons, hstarts] using hrest

theorem asks_firstFitting (hfirst : Asks (fits first) (starts first))
    (hrest : ∀ p ∈ rest, Asks (fits p) (starts p) ∨ (∀ r, fits p r = .ok true r) ∧ ∀ t, starts p t = true) :
    Asks (firstFitting fits (first :: rest)) fun t => (first :: rest).find? (starts · t) := by
  funext r
  unfold firstFitting
  rw [bind_apply, bind_apply, asks_apply hfirst]
  cases hpeek : peek r with
  | error e r' => rfl
  | ok t r' =>
    have hagain := peek_again hpeek
    have hknown : ∀ p ∈ rest, fits p r' = .ok (starts p t) r' := by
      intro p hp
      rcases hrest p hp with hasks | ⟨hfits, hstarts⟩
      · exact asks_again hasks hagain
      · rw [hfits, hstarts]
    cases hstarts : starts first t with
    | true => simp [hstarts]
    | false =>
      have hfound := firstFitting_again hknown
      simp only [List.find?_cons, hstarts]
      exact hfound

end Parse

/-! ## Starts of the language's phrases -/

namespace Language

def Phrase.isBlank : Phrase → Bool
  | .nothing | .noParameters | .noArguments | .noElements => true
  | _ => false

/-- How many rules follow one another, each first in the one before, until one starts with a token. -/
def rank : Phrase → Nat
  | .program => 6
  | .statement | .member => 5
  | .simple | .arguments | .elements => 4
  | .expr => 3
  | .factor => 2
  | .primary | .parameters | .suffix => 1
  | _ => 0

def layersAll : List Layers :=
  [true, false].flatMap fun functions => [true, false].flatMap fun closures => [true, false].flatMap fun classes =>
    [true, false].map fun arrays => ⟨functions, closures, classes, arrays⟩

def phrasesAll : List Phrase :=
  [.program, .nothing, .statement, .ifStatement, .elsePart, .whileStatement, .block, .statementTail, .simple, .expr,
    .factor, .negation, .primary, .parenthesized, .numberOperand, .nameOperand, .stringOperand, .definition, .parameter,
    .parameters, .parameterTail, .noParameters, .parameterList, .arguments, .argumentTail, .noArguments, .suffix, .call,
    .closure, .classDefinition, .superclass, .classBody, .memberTail, .member, .dot, .memberName, .newName,
    .arrayOperand, .elements, .elementTail, .noElements, .subscript]

theorem mem_layersAll (l : Layers) : l ∈ layersAll := by
  obtain ⟨functions, closures, classes, arrays⟩ := l
  cases functions <;> cases closures <;> cases classes <;> cases arrays <;> decide

theorem mem_phrasesAll (p : Phrase) : p ∈ phrasesAll := by cases p <;> decide

theorem checked {check : Layers → Phrase → Bool}
    (h : (layersAll.all fun l => phrasesAll.all fun p => check l p) = true) (l : Layers) (p : Phrase) :
    check l p = true :=
  List.all_eq_true.mp (List.all_eq_true.mp h l (mem_layersAll l)) p (mem_phrasesAll p)

/-- The element starts with a token, or with phrases of which `admits` holds, the first of them not blank. -/
def leadsTo (admits : Phrase → Bool) : Element Phrase → Bool
  | .phrase p | .repeated p | .optional p | .expression p _ _ => admits p && !p.isBlank
  | .choice [] => false
  | .choice (p :: rest) => !p.isBlank && (p :: rest).all admits
  | .token .. | .spelling .. => true

/-- What is checked of the first element of a rule: it leads to phrases of lower rank. -/
def leadsRule (l : Layers) (p : Phrase) : Bool :=
  match (rule l p).elements with
  | [] => p.isBlank
  | element :: _ => !p.isBlank && leadsTo (fun q => rank q < rank p) element

theorem leadsRule_eq_true : ∀ l p, leadsRule l p = true := checked (by decide)

variable {l : Layers} {p : Phrase}

theorem rank_lt_count (p : Phrase) : rank p < phraseCount := by
  cases p <;> decide

theorem elements_blank (h : p.isBlank = true) : ((grammar l).rule p).elements = [] := by
  have htable := leadsRule_eq_true l.withNeeds p
  show (rule l.withNeeds p).elements = []
  cases hel : (rule l.withNeeds p).elements with
  | nil => rfl
  | cons element rest => simp [leadsRule, hel, h] at htable

theorem elements_leads (l : Layers) (h : p.isBlank = false) :
    ∃ element rest, ((grammar l).rule p).elements = element :: rest ∧
      leadsTo (fun q => rank q < rank p) element = true := by
  have htable := leadsRule_eq_true l.withNeeds p
  show ∃ element rest, (rule l.withNeeds p).elements = element :: rest ∧ _
  cases hel : (rule l.withNeeds p).elements with
  | nil => simp [leadsRule, hel, h] at htable
  | cons element rest =>
    simp only [leadsRule, hel, Bool.and_eq_true] at htable
    exact ⟨element, rest, rfl, htable.2⟩

variable {element : Element Phrase}

variable {admits : Phrase → Bool} {starts : Phrase → Token → Bool}

theorem leadsTo_references (h : leadsTo admits element = true) : ∀ q ∈ element.references, admits q = true := by
  cases element with
  | phrase q | repeated q | optional q | expression q _ _ =>
    simp only [leadsTo, Bool.and_eq_true] at h
    simpa [Element.references] using h.1
  | choice rules =>
    cases rules with
    | nil => simp [Element.references]
    | cons first others =>
      simp only [leadsTo, Bool.and_eq_true, List.all_eq_true] at h
      exact h.2
  | token accepted maker => simp [Element.references]
  | spelling spellings keep => simp [Element.references]

theorem startsWith_congr (h : ∀ q ∈ element.references, starts q t = starts' q t) :
    element.startsWith starts t = element.startsWith starts' t := by
  cases element with
  | phrase q | repeated q | optional q | expression q _ _ =>
    simp only [Element.startsWith, h q (by simp [Element.references])]
  | choice rules =>
    simp only [Element.references] at h
    simp only [Element.startsWith]
    rw [Bool.eq_iff_iff, List.any_eq_true, List.any_eq_true]
    exact exists_congr fun q => and_congr_right fun hq => by rw [h q hq]
  | token accepted maker => rfl
  | spelling spellings keep => rfl

/-- What a phrase can start with does not depend on the bound, as long as that is above the rank. -/
theorem startsWithin_stable (p : Phrase) (h : rank p < bound) (h' : rank p < bound') :
    (grammar l).startsWithin bound p = (grammar l).startsWithin bound' p := by
  induction bound generalizing p bound' with
  | zero => omega
  | succ bound ih =>
    obtain ⟨bound', rfl⟩ : ∃ b, bound' = b + 1 := ⟨bound' - 1, by omega⟩
    funext t
    unfold Grammar.startsWithin
    cases hblank : p.isBlank with
    | true => rw [elements_blank hblank]
    | false =>
      obtain ⟨element, rest, hel, hleads⟩ := elements_leads l hblank
      rw [hel]
      refine startsWith_congr fun q hq => ?_
      have hlower := leadsTo_references hleads q hq
      simp only [decide_eq_true_eq] at hlower
      exact congrFun (ih q (by omega) (by omega)) t

theorem starts_eq (l : Layers) (p : Phrase) (t : Token) :
    (grammar l).starts p t = match ((grammar l).rule p).elements with
      | [] => true
      | element :: _ => element.startsWith (grammar l).starts t := by
  show (grammar l).startsWithin (41 + 1) p t = _
  unfold Grammar.startsWithin
  cases hblank : p.isBlank with
  | true => rw [elements_blank hblank]
  | false =>
    obtain ⟨element, rest, hel, hleads⟩ := elements_leads l hblank
    rw [hel]
    refine startsWith_congr fun q hq => ?_
    have hlower := leadsTo_references hleads q hq
    have hcount := rank_lt_count p
    simp only [decide_eq_true_eq, phraseCount] at hlower hcount
    have hbelow : rank q < 41 := by omega
    exact congrFun (startsWithin_stable q hbelow (rank_lt_count q)) t

theorem starts_blank (h : p.isBlank = true) (t : Token) : (grammar l).starts p t = true := by
  rw [starts_eq, elements_blank h]

/-! ## Fitting is looking at one token -/

open Parse

theorem fits_blank (h : p.isBlank = true) (r : Reading) : (grammar l).fits p r = .ok true r := by
  show (grammar l).fitsWithin (41 + 1) p r = _
  unfold Grammar.fitsWithin
  rw [elements_blank h]
  rfl

theorem asks_fitsWith (hleads : leadsTo admits element = true)
    (hasks : ∀ q, admits q = true → q.isBlank = false → Asks (fits q) (starts q))
    (hblank : ∀ q, admits q = true → q.isBlank = true → (∀ r, fits q r = .ok true r) ∧ ∀ t, starts q t = true) :
    Asks (element.fitsWith fits) (element.startsWith starts) := by
  cases element with
  | phrase q | repeated q | optional q | expression q _ _ =>
    simp only [leadsTo, Bool.and_eq_true, Bool.not_eq_true'] at hleads
    exact hasks q hleads.1 hleads.2
  | token accepted maker => rfl
  | spelling spellings keep => rfl
  | choice rules =>
    cases rules with
    | nil => cases hleads
    | cons first others =>
      simp only [leadsTo, Bool.and_eq_true, Bool.not_eq_true', List.all_cons, List.all_eq_true] at hleads
      obtain ⟨hfirst, hadmits, hothers⟩ := hleads
      have hchoice : Asks (firstFitting fits (first :: others)) fun t => (first :: others).find? (starts · t) := by
        refine asks_firstFitting (hasks first hadmits hfirst) fun q hq => ?_
        cases hq' : q.isBlank with
        | false => exact .inl (hasks q (hothers q hq) hq')
        | true => exact .inr (hblank q (hothers q hq) hq')
      funext r
      refine bind_apply.trans ?_
      rw [asks_apply hchoice, bind_apply]
      cases peek r with
      | error e r' => rfl
      | ok t r' =>
        have hsome : ((first :: others).find? (starts · t)).isSome = (first :: others).any (starts · t) := by
          rw [Bool.eq_iff_iff, List.find?_isSome, List.any_eq_true]
        exact congrArg (EStateM.Result.ok · r') hsome

theorem asks_fits (l : Layers) (h : p.isBlank = false) : Asks ((grammar l).fits p) ((grammar l).starts p) := by
  suffices hwithin : ∀ bound q, rank q < bound → q.isBlank = false →
      Asks ((grammar l).fitsWithin bound q) ((grammar l).startsWithin bound q) from
    hwithin _ p (rank_lt_count p) h
  intro bound
  induction bound with
  | zero => intro q hrank; omega
  | succ bound ih =>
    intro q hrank hq
    obtain ⟨element, rest, hel, hleads⟩ := elements_leads l hq
    have hstep : Asks (element.fitsWith ((grammar l).fitsWithin bound))
        (element.startsWith ((grammar l).startsWithin bound)) := by
      refine asks_fitsWith hleads (fun p hp hblank => ?_) fun p hp hblank => ?_
      · simp only [decide_eq_true_eq] at hp
        exact ih p (by omega) hblank
      · simp only [decide_eq_true_eq] at hp
        obtain ⟨bound, rfl⟩ : ∃ b, bound = b + 1 := ⟨bound - 1, by omega⟩
        unfold Grammar.fitsWithin Grammar.startsWithin
        rw [elements_blank hblank]
        exact ⟨fun _ => rfl, fun _ => rfl⟩
    unfold Asks Grammar.fitsWithin Grammar.startsWithin
    rw [hel]
    exact hstep

/-! ## Tokens that start the same phrases -/

/-- The element tells tokens apart by their kind and by reserved words only. -/
def tellsReserved : Element Phrase → Bool
  | .token (.identifier words) _ => words == reserved
  | .spelling spellings _ => spellings.all isReserved
  | _ => true

theorem tellsReserved_rule : ∀ l p, (rule l p).elements.all tellsReserved = true := checked (by decide)

theorem tellsReserved_element (l : Layers) (p : Phrase) :
    ∀ element ∈ ((grammar l).rule p).elements, tellsReserved element = true :=
  List.all_eq_true.mp (tellsReserved_rule l.withNeeds p)

end Language

/-- Of the tokens that start the same phrases, the one that stands for all. -/
def Token.lead (t : Token) : Token :=
  match t.kind with
  | .number => ⟨.number, [], 0, 0⟩
  | .string => ⟨.string, [], 0, 0⟩
  | .identifier => ⟨.identifier, if Language.isReserved t.text then t.text else [], 0, 0⟩
  | _ => .endOfInput 0

namespace Language

theorem isSpelled_lead (h : spellings.all isReserved = true) (t : Token) :
    isSpelled spellings t.lead = isSpelled spellings t := by
  have hword : ∀ spelling ∈ spellings, isReserved spelling = true := List.all_eq_true.mp h
  unfold isSpelled Token.lead
  cases t.kind with
  | identifier =>
    show (true && spellings.contains _) = (true && _)
    cases hreserved : isReserved t.text with
    | true => rfl
    | false =>
      have hother : ∀ {word : Text}, isReserved word = false → spellings.contains word = false := by
        intro word hfalse
        rw [Bool.eq_false_iff]
        intro hmem
        have htrue := hword word (by simpa using hmem)
        rw [hfalse] at htrue
        cases htrue
      have hblank : isReserved [] = false := by decide
      simp only [Bool.false_eq_true, if_false, hother hblank, hother hreserved]
  | _ => rfl

/-- A name is an identifier that is not reserved; the end of a line is reserved, too. -/
theorem accepts_name (t : Token) :
    (TokenClass.identifier reserved).accepts t = (t.kind == .identifier && !isReserved t.text) := by
  show (t.kind == .identifier && !(t.kind == .identifier && t.text == Token.endOfLineText)
    && !isReserved t.text) = _
  cases hkind : (t.kind == .identifier) with
  | false => rfl
  | true =>
    cases hend : (t.text == Token.endOfLineText) with
    | false => rfl
    | true =>
      have hreserved : isReserved t.text = true := by
        rw [beq_iff_eq.mp hend]
        decide
      rw [hreserved]
      rfl

theorem accepts_lead (h : tellsReserved (.token accepted maker) = true) (t : Token) :
    accepted.accepts t.lead = accepted.accepts t := by
  obtain ⟨kind, spelling, number, line⟩ := t
  cases accepted with
  | number => cases kind <;> rfl
  | string => cases kind <;> rfl
  | identifier words =>
    simp only [tellsReserved, beq_iff_eq] at h
    subst h
    rw [accepts_name, accepts_name]
    cases kind with
    | identifier =>
      show (true && !isReserved (if isReserved spelling then spelling else [])) = (true && !isReserved spelling)
      cases hreserved : isReserved spelling with
      | true => simp [hreserved]
      | false =>
        have hnil : isReserved [] = false := by decide
        simp [hnil]
    | _ => rfl

/-- What a phrase can start with is told by the token that stands for all of its sort. -/
theorem starts_lead (l : Layers) (p : Phrase) (t : Token) :
    (grammar l).starts p t.lead = (grammar l).starts p t := by
  suffices hwithin : ∀ bound q, (grammar l).startsWithin bound q t.lead = (grammar l).startsWithin bound q t from
    hwithin _ p
  intro bound
  induction bound with
  | zero => exact fun _ => rfl
  | succ bound ih =>
    intro q
    unfold Grammar.startsWithin
    have htable := tellsReserved_element l q
    cases hel : ((grammar l).rule q).elements with
    | nil => rfl
    | cons element rest =>
      have htells := htable element (by simp [hel])
      cases element with
      | phrase q | repeated q | optional q | expression q _ _ => exact ih q
      | choice rules => simp only [Element.startsWith, ih]
      | token accepted maker => exact accepts_lead htells t
      | spelling spellings keep => exact isSpelled_lead htells t

end Language

end StoneLang
