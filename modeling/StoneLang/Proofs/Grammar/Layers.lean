/-
  Layers are conservative.

  A layer puts alternatives in front of others, suffixes after every operand and arguments after every simple
  statement; and the parser never comes back from a choice.  Still a text that can be read without a layer is
  read in the same way with it: where the smaller grammar reads a text, no token stands where the larger one
  would take it for something else.

  SPEC:    if a text is read with some layers, then with more layers it has the same units, or is too deep.
  PROGRAM: `Language.parseAll` on the stream of a source, watched or not.

  Two things keep the new parts away.  A word that starts something new is foreign to the smaller grammar
  (`Language.foreign`), which never takes it.  And in a grammar without functions nothing that starts an operand
  follows an operand (`Language.fine`), so that no suffix and no arguments are seen.  Both are followed from the
  end of a rule to its beginning (`Language.follows`), and the table of rules is checked for them.
-/
import StoneLang.Proofs.Grammar.Programs

namespace StoneLang

/-- Every layer of the first is one of the second. -/
def Layers.Within (a b : Layers) : Prop :=
  (a.functions = true → b.functions = true) ∧ (a.closures = true → b.closures = true) ∧
    (a.classes = true → b.classes = true) ∧ (a.arrays = true → b.arrays = true)

theorem Layers.Within.hasArrays {a b : Layers} (h : a.Within b) (ha : a.hasArrays = true) : b.hasArrays = true := by
  simp only [Layers.hasArrays, Bool.and_eq_true] at ha ⊢
  exact ⟨h.1 ha.1, h.2.2.2 ha.2⟩

theorem Layers.Within.suffixes {a b : Layers} (h : a.Within b) (ha : (a.classes || a.hasArrays) = true) :
    (b.classes || b.hasArrays) = true := by
  simp only [Bool.or_eq_true] at ha ⊢
  exact ha.imp h.2.2.1 h.hasArrays

@[simp] theorem Layers.withNeeds_withNeeds (l : Layers) : l.withNeeds.withNeeds = l.withNeeds := by
  obtain ⟨functions, closures, classes, arrays⟩ := l
  cases functions <;> cases closures <;> cases classes <;> rfl

namespace Language

/-! ## Tokens that stand for all -/

def leads : List Token :=
  [⟨.number, [], 0, 0⟩, ⟨.string, [], 0, 0⟩, .endOfInput 0, ⟨.identifier, [], 0, 0⟩] ++
    reserved.map fun word => ⟨.identifier, word, 0, 0⟩

theorem lead_mem (t : Token) : t.lead ∈ leads := by
  obtain ⟨kind, spelling, number, line⟩ := t
  cases kind with
  | identifier =>
    show (⟨.identifier, if isReserved spelling then spelling else [], 0, 0⟩ : Token) ∈ leads
    cases hreserved : isReserved spelling with
    | false => simp [leads]
    | true =>
      have hmem : spelling ∈ reserved := by simpa [isReserved] using hreserved
      simp [leads, hmem]
  | number => simp [Token.lead, leads]
  | string => simp [Token.lead, leads]
  | endOfInput => simp [Token.lead, leads]
  | other code => simp [Token.lead, leads]

theorem of_leads (h : leads.all check = true) (hlead : ∀ t, check t.lead = check t) (t : Token) :
    check t = true := by
  rw [← hlead]
  exact List.all_eq_true.mp h _ (lead_mem t)

/-! ## Languages -/

theorem grammar_rule (hl : l.withNeeds = l) (p : Phrase) : (grammar l).rule p = rule l p := by
  unfold grammar
  rw [hl]

def languages : List Layers := layersAll.filter fun l => l.withNeeds == l

theorem checkedFor {check : Layers → Phrase → Bool}
    (h : (languages.all fun l => phrasesAll.all fun p => check l p) = true) (l : Layers) (hl : l.withNeeds = l)
    (p : Phrase) : check l p = true := by
  have hmem : l ∈ languages := List.mem_filter.mpr ⟨mem_layersAll l, beq_iff_eq.mpr hl⟩
  exact List.all_eq_true.mp (List.all_eq_true.mp h l hmem) p (mem_phrasesAll p)

/-! ## What is foreign, and what may follow -/

/-- The words that start something only with layers that are not there. -/
def foreignWords (l : Layers) : List Text :=
  layer (!l.classes) [text "class", text "."] ++ layer (!l.functions) [text "def"] ++
    layer (!l.closures) [text "fun"] ++ layer (!l.hasArrays) [text "["]

/-- The token starts something only with layers that are not there. -/
def foreign (l : Layers) (t : Token) : Bool := isSpelled (foreignWords l) t

def Phrase.isIn (l : Layers) : Phrase → Bool
  | .definition | .parameter | .parameters | .parameterTail | .noParameters | .parameterList
  | .arguments | .argumentTail | .noArguments | .suffix | .call => l.functions
  | .closure => l.closures
  | .classDefinition | .superclass | .classBody | .memberTail | .member | .dot | .memberName | .newName => l.classes
  | .arrayOperand | .elements | .elementTail | .noElements | .subscript => l.hasArrays
  | _ => true

/-- The token may follow the phrase: none of the larger grammars takes it for a part of the phrase. -/
def fine (l : Layers) (t : Token) : Phrase → Bool
  | .program => true
  | .expr | .factor | .negation | .primary | .arguments | .argumentTail | .elements | .elementTail =>
    !foreign l t && (l.functions || !(grammar .full).starts .suffix t)
  | .simple | .statement | .statementTail | .member | .memberTail =>
    !foreign l t && (l.functions || !(grammar .full).starts .suffix t && !(grammar .full).starts .arguments t)
  | _ => !foreign l t

/-- The token may come where the rest of a rule of `p` is to be read. -/
def follows (l : Layers) (p : Phrase) (t : Token) : List (Element Phrase) → Bool
  | [] => fine l t p
  | element :: rest => element.startsWith (grammar l).starts t || isOptional element && follows l p t rest

/-- What is checked of an element and the rest of its rule, for one token: what may follow the element is fine
for its phrases, and what starts one of them is not foreign. -/
def settles (l : Layers) (p : Phrase) (element : Element Phrase) (rest : List (Element Phrase)) (t : Token) : Bool :=
  -- what is quick to tell stands first
  (element.references.isEmpty || !foreign l t && element.references.all (fine l t) || !follows l p t rest) &&
    (element.references.all fun q =>
      q.isIn l && q != .program && (q.isBlank || !foreign l t || !(grammar l).starts q t)) &&
    match element with
    | .repeated q => fine l t q || !(grammar l).starts q t
    | .expression q table _ => table.all fun entry => fine l ⟨.identifier, entry.1, 0, 0⟩ q
    | _ => true

/-- The tokens that the check is made for.  With functions, all those that are not foreign are alike. -/
def probes (l : Layers) : List Token := if l.functions then .endOfInput 0 :: leads.filter (foreign l) else leads

def settlesRow (l : Layers) (p : Phrase) : List (Element Phrase) → Bool
  | [] => true
  | element :: rest => (probes l).all (settles l p element rest) && settlesRow l p rest

def Phrase.varies : Phrase → Bool
  | .program | .simple | .primary | .suffix => true
  | _ => false

theorem rule_eq (h : p.varies = false) (l l' : Layers) : rule l p = rule l' p := by
  cases p <;> first | rfl | cases h

/-- The first element of a rule can start with the token, where all phrases are those of the full language. -/
def opens (l : Layers) (p : Phrase) (t : Token) : Bool :=
  match (rule l p).elements with
  | [] => true
  | element :: _ => element.startsWith (grammar .full).starts t

/-- The phrase that a rule chooses first, if it starts with a choice. -/
def pick (l : Layers) (p : Phrase) (t : Token) : Option Phrase :=
  match (rule l p).elements with
  | .choice rules :: _ => rules.find? ((grammar .full).starts · t)
  | _ => none

/-- What is checked of the rule of a phrase.  Where a token is not foreign, the rules that depend on the layers start
and choose alike. -/
def settlesRule (l : Layers) (p : Phrase) : Bool :=
  (!p.isIn l || settlesRow l p ((grammar l).rule p).elements) &&
    (!p.varies || leads.all fun t => foreign l t || opens l p t == opens .full p t &&
      (p == .suffix && !(l.classes || l.hasArrays) || pick l p t == pick .full p t))

theorem settlesRule_eq_true : ∀ l : Layers, l.withNeeds = l → ∀ p, settlesRule l p = true :=
  checkedFor (by decide)

/-! ## What the sort of a token tells -/

variable {l l' : Layers} {p : Phrase} {t : Token}

theorem foreign_lead (l : Layers) (t : Token) : foreign l t.lead = foreign l t := by
  have hreserved : ∀ l ∈ layersAll, (foreignWords l).all isReserved = true := by decide
  exact isSpelled_lead (hreserved l (mem_layersAll l)) t

theorem fine_lead (l : Layers) (t : Token) (p : Phrase) : fine l t.lead p = fine l t p := by
  cases p <;> simp only [fine, foreign_lead, starts_lead]

theorem startsWith_lead (h : tellsReserved element = true) (t : Token) :
    element.startsWith (grammar l).starts t.lead = element.startsWith (grammar l).starts t := by
  cases element with
  | phrase q | repeated q | optional q | expression q _ _ => exact starts_lead l q t
  | choice rules => simp only [Element.startsWith, starts_lead]
  | token accepted maker => exact accepts_lead h t
  | spelling spellings keep => exact isSpelled_lead h t

theorem follows_lead (h : ∀ element ∈ rest, tellsReserved element = true) (t : Token) :
    follows l p t.lead rest = follows l p t rest := by
  induction rest with
  | nil => exact fine_lead l t p
  | cons element rest ih =>
    simp only [follows, startsWith_lead (h element List.mem_cons_self),
      ih fun other hother => h other (List.mem_cons_of_mem _ hother)]

theorem settles_lead
    (h : ∀ other ∈ rest, tellsReserved other = true) (t : Token) :
    settles l p element rest t.lead = settles l p element rest t := by
  have hfine : fine l t.lead = fine l t := by
    funext q
    exact fine_lead l t q
  simp only [settles, follows_lead h, foreign_lead, hfine, starts_lead]

theorem settles_of_probes
    (h : (probes l).all (settles l p element rest) = true)
    (hlead : ∀ t, settles l p element rest t.lead = settles l p element rest t) (t : Token) :
    settles l p element rest t = true := by
  rw [probes, List.all_eq_true] at h
  rw [← hlead]
  cases hfunctions : l.functions with
  | false =>
    rw [hfunctions] at h
    exact h _ (lead_mem t)
  | true =>
    simp only [hfunctions, if_true, List.forall_mem_cons, List.mem_filter] at h
    cases hforeign : foreign l t.lead with
    | true => exact h.2 _ ⟨lead_mem t, hforeign⟩
    | false =>
      have hend : foreign l (.endOfInput 0) = false := rfl
      have hfine : ∀ {other : Token}, foreign l other = false → fine l other = fun _ => true := by
        intro other hother
        funext q
        cases q <;> simp [fine, hfunctions, hother]
      have hlast := h.1
      have hall : (element.references.all fun _ => true) = true := by simp
      simp only [settles, hforeign, hend, hfine hforeign, hfine hend, hall, Bool.not_false, Bool.true_or, Bool.or_true,
        Bool.and_self] at hlast ⊢
      exact hlast

/-- The rest of a rule of `p` has passed the checks. -/
structure Settled (l : Layers) (p : Phrase) (rest : List (Element Phrase)) : Prop where
  regular : ∀ element ∈ rest, Regular element
  row : settlesRow l p rest = true

namespace Settled

variable {element : Element Phrase} {rest : List (Element Phrase)}

theorem ofRule (hl : l.withNeeds = l) (hin : p.isIn l = true) : Settled l p (rule l p).elements := by
  have htable := (Bool.and_eq_true_iff.mp (settlesRule_eq_true l hl p)).1
  have hregular := regular_elements l p
  unfold grammar at htable hregular
  simp only [hl, hin, Bool.not_true, Bool.false_or] at htable hregular
  exact ⟨hregular, htable⟩

theorem head (h : Settled l p (element :: rest)) (t : Token) : settles l p element rest t = true := by
  have hrow := h.row
  simp only [settlesRow, Bool.and_eq_true] at hrow
  exact settles_of_probes hrow.1 (settles_lead fun other hother => (h.regular other (List.mem_cons_of_mem _ hother)).tells) t

theorem tail (h : Settled l p (element :: rest)) : Settled l p rest := by
  have hrow := h.row
  simp only [settlesRow, Bool.and_eq_true] at hrow
  exact ⟨(List.forall_mem_cons.mp h.regular).2, hrow.2⟩

end Settled

/-! ## Larger grammars -/

/-- The second language has all the layers of the first; both have all that they need. -/
structure Larger (l l' : Layers) : Prop where
  own : l.withNeeds = l
  own' : l'.withNeeds = l'
  within : l.Within l'

theorem Larger.functions_added (h : Larger l l') (hne : ¬ l.functions = l'.functions) :
    l.functions = false ∧ l'.functions = true := by
  have := h.within.1
  cases hf : l.functions <;> cases hf' : l'.functions <;> simp_all

theorem foreign_mono (h : l.Within l') (ht : foreign l t = false) : foreign l' t = false := by
  have harrays := h.hasArrays
  obtain ⟨hfunctions, hclosures, hclasses, -⟩ := h
  have hlayer : ∀ (b b' : Bool) (words : List Text), (b = true → b' = true) →
      ∀ word ∈ layer (!b') words, word ∈ layer (!b) words := by
    intro b b' words hb word hword
    cases b <;> cases b' <;> simp_all [layer]
  simp only [foreign, isSpelled, foreignWords, Bool.and_eq_false_iff] at ht ⊢
  rcases ht with hkind | hword
  · exact .inl hkind
  · refine .inr ?_
    simp only [List.contains_eq_mem, decide_eq_false_iff_not, List.mem_append, not_or] at hword ⊢
    obtain ⟨⟨⟨hc, hf⟩, hu⟩, ha⟩ := hword
    exact ⟨⟨⟨fun hmem => hc (hlayer _ _ _ hclasses _ hmem), fun hmem => hf (hlayer _ _ _ hfunctions _ hmem)⟩,
      fun hmem => hu (hlayer _ _ _ hclosures _ hmem)⟩, fun hmem => ha (hlayer _ _ _ harrays _ hmem)⟩

theorem opens_lead (l : Layers) (p : Phrase) (t : Token) : opens l p t.lead = opens l p t := by
  have htells := List.all_eq_true.mp (tellsReserved_rule l p)
  unfold opens
  cases hel : (rule l p).elements with
  | nil => simp only
  | cons element rest =>
    have hmem : element ∈ (rule l p).elements := by rw [hel]; exact List.mem_cons_self
    exact startsWith_lead (htells element hmem) t

theorem pick_lead (l : Layers) (p : Phrase) (t : Token) : pick l p t.lead = pick l p t := by
  unfold pick
  simp only [starts_lead]

/-- Where the token is not foreign, a rule that depends on the layers starts and chooses as in the full language. -/
theorem varying_full (hl : l.withNeeds = l) (hvaries : p.varies = true) (ht : foreign l t = false) :
    opens l p t = opens .full p t ∧
      (p = .suffix ∧ (l.classes || l.hasArrays) = false ∨ pick l p t = pick .full p t) := by
  have htable := (Bool.and_eq_true_iff.mp (settlesRule_eq_true l hl p)).2
  rw [hvaries, Bool.not_true, Bool.false_or] at htable
  have hall := of_leads htable (fun t => by rw [foreign_lead, opens_lead, opens_lead, pick_lead, pick_lead]) t
  simp only [ht, Bool.false_or, Bool.and_eq_true, Bool.or_eq_true, beq_iff_eq, Bool.not_eq_true'] at hall
  exact hall

/-- What starts with a token that is not foreign is the same as in the full language. -/
theorem starts_full (hl : l.withNeeds = l) (ht : foreign l t = false) (p : Phrase) :
    (grammar l).starts p t = (grammar .full).starts p t := by
  induction hrank : rank p using Nat.strongRecOn generalizing p with
  | ind n ih =>
    subst hrank
    cases hblank : p.isBlank with
    | true => rw [starts_blank hblank, starts_blank hblank]
    | false =>
      obtain ⟨element, rest, hel, hleads⟩ := elements_leads l hblank
      obtain ⟨element', rest', hel', -⟩ := elements_leads .full hblank
      rw [starts_eq, starts_eq, hel, hel']
      -- the phrases to which the first element leads have a lower rank
      have hlower : element.startsWith (grammar l).starts t = element.startsWith (grammar .full).starts t :=
        startsWith_congr fun q hq => ih _ (by simpa using leadsTo_references hleads q hq) q rfl
      refine hlower.trans ?_
      have hrow : (rule l p).elements = element :: rest := by rw [← hl]; exact hel
      have hrow' : (rule .full p).elements = element' :: rest' := hel'
      cases hvaries : p.varies with
      | false =>
        rw [rule_eq hvaries l .full, hrow'] at hrow
        cases hrow
        rfl
      | true =>
        have hopens := (varying_full hl hvaries ht).1
        unfold opens at hopens
        rw [hrow, hrow'] at hopens
        exact hopens

theorem starts_larger (h : Larger l l') (ht : foreign l t = false) (p : Phrase) :
    (grammar l').starts p t = (grammar l).starts p t := by
  rw [starts_full h.own ht, starts_full h.own' (foreign_mono h.within ht)]

/-! ## What the cursor sees -/

variable {levels levels' : Nat} {c c' c₁ : Cursor} {node : Node} {element : Element Phrase}
  {rest : List (Element Phrase)}

/-- The cursor sees a token that may come where the rest of a rule of `p` is to be read. -/
def Awaits (l : Layers) (p : Phrase) (rest : List (Element Phrase)) (c : Cursor) : Prop :=
  ∃ t, c.Sees t ∧ follows l p t rest = true

theorem Reads.sees (h : Reads l levels p c node c') (hblank : p.isBlank = false) :
    ∃ t, c.Sees t ∧ (grammar l).starts p t = true := by
  have hless := h.shrinks.2 hblank
  cases htokens : c.tokens with
  | nil => simp [htokens] at hless
  | cons t others =>
    have hsees := Cursor.Sees.of_tokens htokens
    exact ⟨t, hsees, h.starts hsees⟩

theorem Reads.sees_blank (h : Reads l levels p c node c') (hblank : p.isBlank = true) (hsees : c.Sees t) :
    c'.Sees t := by
  cases levels with
  | zero => exact h.elim
  | succ levels =>
    obtain ⟨children, c₁, htakes, hfinishes⟩ := h
    rw [elements_blank hblank] at htakes
    cases htakes
    rcases hfinishes.place with rfl | rfl <;> exact hsees

theorem foreign_sees (h : c.Sees t) (h' : c.Sees t') (ht : foreign l t = false) : foreign l t' = false := by
  rw [← foreign_lead, ← h.lead_eq h', foreign_lead]
  exact ht

theorem awaits_of_takesAll (hregular : ∀ element ∈ rest, Regular element)
    (h : ReadsRow l levels rest c nodes c') (hends : Awaits l p [] c') :
    Awaits l p rest c := by
  induction h with
  | nil => exact hends
  | @cons element rest c c₁ c₂ nodes more first others ih =>
    obtain ⟨hfirst, hothers⟩ := List.forall_mem_cons.mp hregular
    have hafter := ih hothers hends
    have hstarted : ∀ t, c.Sees t → element.startsWith (grammar l).starts t = true → Awaits l p (element :: rest) c := by
      intro t hsees hstarts
      exact ⟨t, hsees, by simp [follows, hstarts]⟩
    have hskipped : isOptional element = true → c₁ = c → Awaits l p (element :: rest) c := by
      rintro hoptional rfl
      obtain ⟨t, hsees, hfollows⟩ := hafter
      exact ⟨t, hsees, by simp [follows, hoptional, hfollows]⟩
    cases first with
    | phrase reads =>
      obtain ⟨t, hsees, hstarts⟩ := reads.sees hfirst.phrase
      exact hstarted t hsees hstarts
    | choice sees chosen reads =>
      exact hstarted _ sees (List.any_eq_true.mpr ⟨_, List.mem_of_find?_eq_some chosen, reads.starts sees⟩)
    | repeated rounds =>
      cases rounds with
      | stop sees ends => exact hskipped rfl rfl
      | round sees goes first rest => exact hstarted _ sees goes
    | absent sees ends => exact hskipped rfl rfl
    | present sees goes reads => exact hstarted _ sees goes
    | token next accepts made => exact hstarted _ (.of_tokens next) accepts
    | spelling next spelled => exact hstarted _ (.of_tokens next) spelled
    | expression first rest =>
      obtain ⟨t, hsees, hstarts⟩ := first.sees hfirst.expression
      exact hstarted t hsees hstarts

/-! ## What is checked of an element -/

section

variable (hsettles : ∀ t, settles l p element rest t = true) {q : Phrase} (hq : q ∈ element.references)

include hsettles hq

theorem settles_after (hfollows : follows l p t rest = true) : foreign l t = false ∧ fine l t q = true := by
  have h := hsettles t
  have hsome : element.references.isEmpty = false := by
    cases hrefs : element.references with
    | nil => rw [hrefs] at hq; cases hq
    | cons => rfl
  simp only [settles, hsome, hfollows, Bool.and_eq_true, Bool.not_true, Bool.false_or, Bool.or_false,
    Bool.not_eq_true'] at h
  exact ⟨h.1.1.1, List.all_eq_true.mp h.1.1.2 q hq⟩

theorem settles_isIn : q.isIn l = true ∧ q ≠ .program := by
  have h := hsettles (.endOfInput 0)
  simp only [settles, Bool.and_eq_true] at h
  have hone := List.all_eq_true.mp h.1.2 q hq
  simp only [Bool.and_eq_true, bne_iff_ne, ne_eq] at hone
  exact hone.1

theorem settles_before (hblank : q.isBlank = false) (hstarts : (grammar l).starts q t = true) :
    foreign l t = false := by
  have h := hsettles t
  simp only [settles, Bool.and_eq_true] at h
  have hone := List.all_eq_true.mp h.1.2 q hq
  simpa [hblank, hstarts] using (Bool.and_eq_true_iff.mp hone).2

end

theorem settles_round (hsettles : settles l p (.repeated q) rest t = true)
    (hstarts : (grammar l).starts q t = true) : fine l t q = true := by
  simp only [settles, hstarts, Bool.and_eq_true, Bool.not_true, Bool.or_false] at hsettles
  exact hsettles.2

theorem settles_operator
    (hsettles : settles l p (.expression q table shape) rest t = true)
    (hoperator : operatorOf table t = some precedence) : fine l t q = true := by
  simp only [settles, Bool.and_eq_true] at hsettles
  unfold operatorOf at hoperator
  split at hoperator
  · rename_i hkind
    have hfine := List.all_eq_true.mp hsettles.2 _ (Operators.mem_of_find? hoperator)
    have hsort : (⟨.identifier, t.text, 0, 0⟩ : Token).lead = t.lead := by simp [Token.lead, hkind]
    rw [← fine_lead, ← hsort, fine_lead]
    exact hfine
  · cases hoperator

/-! ## Elements of a larger grammar -/

/-- The element of a larger grammar does what the other does where no token is foreign: it is the same, or it
chooses the same. -/
inductive Widens (l l' : Layers) : Element Phrase → Element Phrase → Prop where
  | same (element : Element Phrase) : Widens l l' element element
  | choice {rules rules' : List Phrase}
      (picks : ∀ t, foreign l t = false →
        rules'.find? ((grammar l').starts · t) = rules.find? ((grammar l).starts · t)) :
      Widens l l' (.choice rules) (.choice rules')

/-- What one language reads with so many levels, the other reads with its own. -/
def Carries (l : Layers) (levels : Nat) (l' : Layers) (levels' : Nat) : Prop :=
  ∀ q c node c', q.isIn l = true → q ≠ .program → Reads l levels q c node c' → Awaits l q [] c' →
    Reads l' levels' q c node c'

section

variable (hl : Larger l l')

include hl

theorem find?_larger (rules : List Phrase) (ht : foreign l t = false) :
    rules.find? ((grammar l').starts · t) = rules.find? ((grammar l).starts · t) := by
  simp only [starts_larger hl ht]

variable (hrec : Carries l levels l' levels')

include hrec

variable {nodes : List Node}

theorem repeats_larger (hblank : q.isBlank = false)
    (hsettles : ∀ t, settles l p (.repeated q) rest t = true)
    (h : Repeats ((grammar l).starts q) (Reads l levels q) c nodes c') (hends : Awaits l p rest c') :
    Repeats ((grammar l').starts q) (Reads l' levels' q) c nodes c' := by
  have hq : q ∈ (Element.repeated q).references := List.mem_singleton.mpr rfl
  induction h with
  | @stop c t sees ends =>
    obtain ⟨t', hsees, hfollows⟩ := hends
    have hhere := foreign_sees hsees sees (settles_after hsettles hq hfollows).1
    exact .stop sees ((starts_larger hl hhere q).trans ends)
  | @round c c₁ c₂ t node nodes sees goes first others ih =>
    obtain ⟨hin, hunit⟩ := settles_isIn hsettles hq
    have hhere := settles_before hsettles hq hblank goes
    -- after a round comes another one, or what follows the repetition
    have hafter : Awaits l q [] c₁ := by
      cases others with
      | stop sees₁ ends =>
        obtain ⟨t', hsees, hfollows⟩ := hends
        exact ⟨t', hsees, (settles_after hsettles hq hfollows).2⟩
      | round sees₁ goes₁ _ _ => exact ⟨_, sees₁, settles_round (hsettles _) goes₁⟩
    exact .round sees ((starts_larger hl hhere q).trans goes) (hrec _ _ _ _ hin hunit first hafter) (ih hends)

omit hl in
theorem climbs_larger
    (hsettles : ∀ t, settles l p (.expression q table shape) rest t = true)
    (h : Climbs (Reads l levels q) table shape takes left c node c') (hends : Awaits l q [] c') :
    Awaits l q [] c ∧ Climbs (Reads l' levels' q) table shape takes left c node c' := by
  obtain ⟨hin, hunit⟩ := settles_isIn hsettles (List.mem_singleton.mpr rfl)
  induction h with
  | stop sees ends => exact ⟨hends, .stop sees ends⟩
  | step next operator goes second inner built outer ihinner ihouter =>
    obtain ⟨hmiddle, houter⟩ := ihouter hends
    obtain ⟨hfirst, hinner⟩ := ihinner hmiddle
    exact ⟨⟨_, .of_tokens next, settles_operator (hsettles _) operator⟩,
      .step next operator goes (hrec _ _ _ _ hin hunit second hfirst) hinner built houter⟩

theorem takes_larger (hwidens : Widens l l' element element')
    (hregular : Regular element) (hsettles : ∀ t, settles l p element rest t = true)
    (h : Takes (grammar l).starts (Reads l levels) element c nodes c') (hends : Awaits l p rest c') :
    Takes (grammar l').starts (Reads l' levels') element' c nodes c' := by
  obtain ⟨t₁, hsees₁, hfollows⟩ := hends
  have hafter : ∀ q ∈ element.references, Awaits l q [] c' := fun q hq =>
    ⟨t₁, hsees₁, (settles_after hsettles hq hfollows).2⟩
  have hrec' : ∀ q ∈ element.references, ∀ c node c', Reads l levels q c node c' → Awaits l q [] c' →
      Reads l' levels' q c node c' := fun q hq c node c' hreads hawaits =>
    hrec q c node c' (settles_isIn hsettles hq).1 (settles_isIn hsettles hq).2 hreads hawaits
  cases h with
  | @choice rules q _ _ t _ sees chosen reads =>
    have hq : q ∈ (Element.choice rules).references := List.mem_of_find?_eq_some chosen
    have hhere : foreign l t = false := by
      cases hblank : q.isBlank with
      | false => exact settles_before hsettles hq hblank (reads.starts sees)
      | true => exact foreign_sees hsees₁ (reads.sees_blank hblank sees) (settles_after hsettles hq hfollows).1
    have hreads := hrec' q hq _ _ _ reads (hafter q hq)
    cases hwidens with
    | same => exact .choice sees ((find?_larger hl rules hhere).trans chosen) hreads
    | choice picks => exact .choice sees ((picks t hhere).trans chosen) hreads
  | @phrase q _ _ _ reads =>
    cases hwidens
    have hq : q ∈ (Element.phrase q).references := List.mem_singleton.mpr rfl
    exact .phrase (hrec' q hq _ _ _ reads (hafter q hq))
  | repeated rounds =>
    cases hwidens
    exact .repeated (repeats_larger hl hrec hregular.repeated hsettles rounds ⟨t₁, hsees₁, hfollows⟩)
  | @absent q _ t sees ends =>
    cases hwidens
    have hq : q ∈ (Element.optional q).references := List.mem_singleton.mpr rfl
    have hhere := foreign_sees hsees₁ sees (settles_after hsettles hq hfollows).1
    exact .absent sees ((starts_larger hl hhere q).trans ends)
  | @present q _ _ t _ sees goes reads =>
    cases hwidens
    have hq : q ∈ (Element.optional q).references := List.mem_singleton.mpr rfl
    have hhere := settles_before hsettles hq hregular.optional goes
    exact .present sees ((starts_larger hl hhere q).trans goes) (hrec' q hq _ _ _ reads (hafter q hq))
  | token next accepts made =>
    cases hwidens
    exact .token next accepts made
  | spelling next spelled =>
    cases hwidens
    exact .spelling next spelled
  | @expression q table shape _ _ _ _ _ first others =>
    cases hwidens
    have hq : q ∈ (Element.expression q table shape).references := List.mem_singleton.mpr rfl
    obtain ⟨hmiddle, hclimbs⟩ := climbs_larger hrec hsettles others (hafter q hq)
    exact .expression (hrec' q hq _ _ _ first hmiddle) hclimbs

theorem takesAll_larger (hsettled : Settled l p rest)
    (h : ReadsRow l levels rest c nodes c') (hends : Awaits l p [] c') :
    ReadsRow l' levels' rest c nodes c' := by
  induction h with
  | nil => exact .nil
  | cons first others ih =>
    have hmiddle := awaits_of_takesAll hsettled.tail.regular others hends
    have hfirst := takes_larger hl hrec (.same _) (hsettled.regular _ List.mem_cons_self) hsettled.head first hmiddle
    exact .cons hfirst (ih hsettled.tail hends)

theorem takesAll_wider (hsettled : Settled l p (.choice rules :: rest))
    (hwidens : Widens l l' (.choice rules) (.choice rules'))
    (h : ReadsRow l levels (.choice rules :: rest) c nodes c') (hends : Awaits l p [] c') :
    ReadsRow l' levels' (.choice rules' :: rest) c nodes c' := by
  cases h with
  | cons first others =>
    have hmiddle := awaits_of_takesAll hsettled.tail.regular others hends
    have hfirst := takes_larger hl hrec hwidens (hsettled.regular _ List.mem_cons_self) hsettled.head first hmiddle
    exact .cons hfirst (takesAll_larger hl hrec hsettled.tail others hends)

end

theorem takesAll_snoc
    (h : TakesAll starts recur rest c nodes c') (hlast : Takes starts recur element c' [] c') :
    TakesAll starts recur (rest ++ [element]) c nodes c' := by
  induction h with
  | nil => exact .cons hlast .nil
  | cons first others ih => exact .cons first (ih hlast)

theorem widens_choice (hl : Larger l l') (hvaries : p.varies = true)
    (hcalls : p = .suffix → (l.classes || l.hasArrays) = true ∧ (l'.classes || l'.hasArrays) = true)
    (hrow : (rule l p).elements = .choice rules :: rest)
    (hrow' : (rule l' p).elements = .choice rules' :: rest') : Widens l l' (.choice rules) (.choice rules') := by
  refine .choice fun t ht => ?_
  have ht' := foreign_mono hl.within ht
  have hpick : ∀ {o : Layers}, o.withNeeds = o → foreign o t = false → (p = .suffix → (o.classes || o.hasArrays) = true) →
      pick o p t = pick .full p t := by
    intro o ho hforeign hmore
    rcases (varying_full ho hvaries hforeign).2 with ⟨hsuffix, hnone⟩ | hpick
    · rw [hmore hsuffix] at hnone
      cases hnone
    · exact hpick
  have hsame := (hpick hl.own' ht' fun h => (hcalls h).2).trans (hpick hl.own ht fun h => (hcalls h).1).symm
  unfold pick at hsame
  rw [hrow, hrow'] at hsame
  simp only [starts_full hl.own ht, starts_full hl.own' ht']
  exact hsame

/-! ## Rules of a larger grammar -/

theorem shape_eq (l l' : Layers) (p : Phrase) : (rule l p).shape = (rule l' p).shape := by
  have hsuffix : ∀ l : Layers, (rule l .suffix).shape = none := by
    intro l
    cases h : (l.classes || l.hasArrays) <;> simp [rule, h, titled]
  cases p with
  | suffix => rw [hsuffix, hsuffix]
  | _ => rfl

theorem suffix_calls (h : (l.classes || l.hasArrays) = false) : (rule l .suffix).elements = callElements := by
  simp [rule, h, titled]

theorem suffix_chooses (h : (l.classes || l.hasArrays) = true) :
    (rule l .suffix).elements = [.choice (layer l.hasArrays [.subscript] ++ layer l.classes [.dot] ++ [.call])] := by
  simp [rule, h, titled]

section

variable (hl : Larger l l') (hrec : Carries l levels l' levels') {children : List Node}

include hl hrec

theorem takesAll_program (hin : Phrase.program.isIn l = true)
    (h : ReadsRow l levels (rule l .program).elements c children c')
    (hends : Awaits l .program [] c') :
    ReadsRow l' levels' (rule l' .program).elements c children c' :=
  takesAll_wider hl hrec (Settled.ofRule hl.own hin)
    (widens_choice (p := .program) hl rfl (fun h => by cases h) rfl rfl) h hends

theorem takesAll_simple (hin : Phrase.simple.isIn l = true)
    (h : ReadsRow l levels (rule l .simple).elements c children c')
    (hends : Awaits l .simple [] c') :
    ReadsRow l' levels' (rule l' .simple).elements c children c' := by
  have hsame := takesAll_larger hl hrec (Settled.ofRule hl.own hin) h hends
  by_cases hfunctions : l.functions = l'.functions
  · rw [show rule l' .simple = rule l .simple by simp only [rule, hfunctions]]
    exact hsame
  · have hnone := hl.functions_added hfunctions
    obtain ⟨t, hsees, hfine⟩ := hends
    simp only [follows, fine, hnone.1, Bool.false_or, Bool.and_eq_true, Bool.not_eq_true'] at hfine
    have habsent : Takes (grammar l').starts (Reads l' levels') (.optional .arguments) c' [] c' :=
      .absent hsees ((starts_full hl.own' (foreign_mono hl.within hfine.1) _).trans hfine.2.2)
    have hrow : (rule l' .simple).elements = (rule l .simple).elements ++ [.optional .arguments] := by
      simp [rule, full, layer, hnone]
    rw [hrow]
    exact takesAll_snoc hsame habsent

theorem takesAll_primary (hin : Phrase.primary.isIn l = true)
    (h : ReadsRow l levels (rule l .primary).elements c children c')
    (hends : Awaits l .primary [] c') :
    ReadsRow l' levels' (rule l' .primary).elements c children c' := by
  have hwider := takesAll_wider hl hrec (Settled.ofRule hl.own hin)
    (widens_choice (p := .primary) hl rfl (fun h => by cases h) rfl rfl) h hends
  by_cases hfunctions : l.functions = l'.functions
  · simpa only [rule, full, hfunctions] using hwider
  · have hnone := hl.functions_added hfunctions
    obtain ⟨t, hsees, hfine⟩ := hends
    simp only [follows, fine, hnone.1, Bool.false_or, Bool.and_eq_true, Bool.not_eq_true'] at hfine
    have hstop : Takes (grammar l').starts (Reads l' levels') (.repeated .suffix) c' [] c' :=
      .repeated (.stop hsees ((starts_full hl.own' (foreign_mono hl.within hfine.1) _).trans hfine.2))
    have hrow : layer l'.functions [Element.repeated Phrase.suffix] =
        layer l.functions [.repeated .suffix] ++ [.repeated .suffix] := by simp [layer, hnone]
    simp only [rule, full]
    rw [hrow]
    exact takesAll_snoc hwider hstop

theorem takesAll_rule (hin : p.isIn l = true)
    (hcalls : p = .suffix → (l.classes || l.hasArrays) = (l'.classes || l'.hasArrays))
    (h : ReadsRow l levels (rule l p).elements c children c') (hends : Awaits l p [] c') :
    ReadsRow l' levels' (rule l' p).elements c children c' := by
  cases hvaries : p.varies with
  | false =>
    rw [rule_eq hvaries l' l]
    exact takesAll_larger hl hrec (Settled.ofRule hl.own hin) h hends
  | true =>
    cases p with
    | program => exact takesAll_program hl hrec hin h hends
    | simple => exact takesAll_simple hl hrec hin h hends
    | primary => exact takesAll_primary hl hrec hin h hends
    | suffix =>
      have hsettled := Settled.ofRule hl.own hin
      have hboth := hcalls rfl
      cases hkind : (l.classes || l.hasArrays) with
      | false =>
        rw [suffix_calls hkind] at h hsettled
        rw [suffix_calls (hboth.symm.trans hkind)]
        exact takesAll_larger hl hrec hsettled h hends
      | true =>
        have hkind' := hboth.symm.trans hkind
        have hrow := suffix_chooses hkind
        have hrow' := suffix_chooses hkind'
        rw [hrow] at h hsettled
        rw [hrow']
        exact takesAll_wider hl hrec hsettled
          (widens_choice hl rfl (fun _ => ⟨hkind, hkind'⟩) hrow hrow') h hends
    | _ => cases hvaries

theorem reads_call (hin : Phrase.suffix.isIn l = true) (hkind : (l.classes || l.hasArrays) = false)
    (hkind' : (l'.classes || l'.hasArrays) = true)
    (h : ReadsRow l levels (rule l .suffix).elements c children c')
    (hends : Awaits l .suffix [] c') : Reads l' (levels' + 2) .suffix c (Shape.gather children) c' := by
  have hsettled := Settled.ofRule hl.own hin
  rw [suffix_calls hkind] at h hsettled
  have hcall : Reads l' (levels' + 1) .call c (Shape.gather children) c' :=
    ⟨children, c', takesAll_larger hl hrec hsettled h hends, rfl, rfl⟩
  obtain ⟨t, hsees, hlead⟩ : ∃ t, c.Sees t ∧ t.lead = ⟨.identifier, text "(", 0, 0⟩ := by
    cases h with
    | cons first others =>
      cases first with
      | @spelling _ _ _ t _ next spelled =>
        rw [Parse.isSpelled_iff, List.mem_singleton] at spelled
        have hreserved : isReserved (text "(") = true := by decide
        exact ⟨t, .of_tokens next, by simp [Token.lead, spelled, hreserved]⟩
  have ht : foreign l' t = false := by
    have hparen : ∀ l ∈ layersAll, foreign l ⟨.identifier, text "(", 0, 0⟩ = false := by decide
    rw [← foreign_lead, hlead, hparen l' (mem_layersAll l')]
  have hpick : pick l' .suffix t = some .call := by
    rcases (varying_full (p := .suffix) hl.own' rfl ht).2 with ⟨-, hnone⟩ | hpick
    · rw [hkind'] at hnone
      cases hnone
    · rw [hpick, ← pick_lead, hlead]
      decide
  have hrow := suffix_chooses hkind'
  unfold pick at hpick
  rw [hrow] at hpick
  have hchosen : (layer l'.hasArrays [Phrase.subscript] ++ layer l'.classes [Phrase.dot] ++ [Phrase.call]).find?
      ((grammar l').starts · t) = some .call := by
    simp only [starts_full hl.own' ht]
    exact hpick
  refine ⟨[Shape.gather children], c', ?_, ?_⟩
  · show TakesAll _ _ (rule l'.withNeeds .suffix).elements _ _ _
    rw [hl.own', hrow]
    exact .cons (.choice hsees hchosen hcall) .nil
  · show Finishes _ _ _ _ (rule l'.withNeeds .suffix).shape
    rw [shape_eq l'.withNeeds l, show (rule l .suffix).shape = none by simp [rule, hkind, titled]]
    exact ⟨rfl, rfl⟩

end

/-- Whatever a phrase reads, it reads in a larger grammar, if none of the new parts can follow it. -/
theorem reads_larger (hl : Larger l l') (hin : p.isIn l = true) (h : Reads l levels p c node c') (hends : Awaits l p [] c') : Reads l' (2 * levels) p c node c' := by
  induction levels generalizing p c node c' with
  | zero => exact h.elim
  | succ levels ih =>
    have hrec : Carries l levels l' (2 * levels) := fun q c node c' hq _ hreads hawaits => ih hq hreads hawaits
    obtain ⟨children, c₁, htakes, hfinishes⟩ := h
    rw [grammar_rule hl.own] at htakes hfinishes
    rw [shape_eq l l'] at hfinishes
    have hends₁ : Awaits l p [] c₁ := by rcases hfinishes.place with rfl | rfl <;> exact hends
    by_cases hcalls : p = .suffix → (l.classes || l.hasArrays) = (l'.classes || l'.hasArrays)
    · have htakes' := takesAll_rule hl hrec hin hcalls htakes hends₁
      rw [← grammar_rule hl.own'] at htakes' hfinishes
      have hreads : Reads l' (2 * levels + 1) p c node c' := ⟨children, c₁, htakes', hfinishes⟩
      exact hreads.succ
    · obtain ⟨rfl, hkinds⟩ := Classical.not_imp.mp hcalls
      obtain ⟨hkind, hkind'⟩ : (l.classes || l.hasArrays) = false ∧ (l'.classes || l'.hasArrays) = true := by
        have hmore := hl.within.suffixes
        cases hkind : (l.classes || l.hasArrays) with
        | false => exact ⟨rfl, eq_true_of_ne_false fun hnone => hkinds (hkind.trans hnone.symm)⟩
        | true => exact absurd (hkind.trans (hmore hkind).symm) hkinds
      rw [show (rule l' .suffix).shape = none by simp [rule, hkind', titled]] at hfinishes
      obtain ⟨rfl, rfl⟩ := hfinishes
      exact reads_call hl hrec hin hkind hkind' htakes hends₁

/-! ## Whole texts -/

theorem readsUnits_larger (hl : Larger l l') (h : ReadsUnits l levels c units c') (hends : ∃ t, c'.Sees t) : ReadsUnits l' (2 * levels) c units c' := by
  induction h with
  | nil => exact .nil
  | @cons c c₁ c₂ unit units first rest ih =>
    have hafter : ∃ t, c₁.Sees t := by
      cases rest with
      | nil => exact hends
      | cons second _ =>
        obtain ⟨t, hsees, -⟩ := second.sees rfl
        exact ⟨t, hsees⟩
    obtain ⟨t, hsees⟩ := hafter
    exact .cons (reads_larger hl rfl first ⟨t, hsees, rfl⟩) (ih hends)

theorem unitsOf_withNeeds (l : Layers) (settings : ParseSettings) (source : Text) (site : Site) :
    unitsOf l.withNeeds settings source site = unitsOf l settings source site := by
  have hunit : parseUnit l.withNeeds settings = parseUnit l settings := by
    unfold parseUnit grammar
    rw [Layers.withNeeds_withNeeds]
  have hunits : ∀ bound r, parseUnits l.withNeeds settings bound r = parseUnits l settings bound r := by
    intro bound
    induction bound with
    | zero => intro r; rfl
    | succ bound ih =>
      intro r
      unfold parseUnits
      simp only [hunit, ih]
  unfold unitsOf parseAll
  rw [hunits]

/-- A text that is read with some layers is read in the same way with more of them, or is too deep. -/
theorem layers_are_conservative {o o' : Layers} (hle : o.withNeeds.Within o'.withNeeds) (settings : ParseSettings)
    (source : Text) (site : Site) (hok : (unitsOf o settings source site).failure = none) :
    unitsOf o' settings source site = unitsOf o settings source site ∨
      ∃ e, (unitsOf o' settings source site).failure = some e ∧ e.kind = .stackExhausted := by
  rw [← unitsOf_withNeeds o] at hok ⊢
  rw [← unitsOf_withNeeds o']
  have hclean := clean_of_unitsOf hok
  let r := Reading.start (.ofSource source) site
  have hroom : r.cursor.tokens.length < r.bound := Reading.length_tokens_start _ _
  have hinside : ∀ t ∈ r.cursor.tokens, t.isEndOfInput = false := Stream.isEndOfInput_ofText source none
  obtain ⟨c, hreads, hwhole⟩ := @reads_of_parseUnits o.withNeeds settings r r.bound hinside
  obtain ⟨hnil, hends⟩ := hwhole hok
  have hlarger := readsUnits_larger ⟨by simp, by simp, hle⟩ hreads hends
  rcases parseUnits_of_reads hlarger hnil hinside hroom ⟨hclean, rfl, rfl, hroom⟩ with hsame | ⟨-, e, hfails, hdeep⟩
  · refine .inl (hsame.trans ?_)
    show _ = (parseUnits o.withNeeds settings r.bound r).1
    rw [← show (parseUnits o.withNeeds settings r.bound r).1.failure = none from hok]
  · obtain ⟨pass, limit, line, rfl⟩ := hdeep
    exact .inr ⟨_, hfails, rfl⟩

/-- A name before a line that starts like a call, read without functions and with all layers. -/
theorem layers_are_conservative_lines :
    (⟨false, false, false, false⟩ : Layers).withNeeds.Within Layers.full.withNeeds ∧
      (unitsOf ⟨false, false, false, false⟩ ⟨100, false⟩ (text "a = b\n(c) - 1; d\n") 0).failure = none ∧
      (unitsOf .full ⟨100, false⟩ (text "a = b\n(c) - 1; d\n") 0 =
          unitsOf ⟨false, false, false, false⟩ ⟨100, false⟩ (text "a = b\n(c) - 1; d\n") 0 ∨
        ∃ e, (unitsOf .full ⟨100, false⟩ (text "a = b\n(c) - 1; d\n") 0).failure = some e ∧
          e.kind = .stackExhausted) := by
  have hwithin : (⟨false, false, false, false⟩ : Layers).withNeeds.Within Layers.full.withNeeds := by
    unfold Layers.Within
    decide
  have hok : (unitsOf ⟨false, false, false, false⟩ ⟨100, false⟩ (text "a = b\n(c) - 1; d\n") 0).failure = none := by
    decide +kernel
  exact ⟨hwithin, hok, layers_are_conservative hwithin _ _ _ hok⟩

end Language

end StoneLang
