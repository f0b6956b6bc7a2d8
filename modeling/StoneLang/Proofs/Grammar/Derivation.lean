/-
  Reading as a relation.

  What the parser does with a row of tokens can be said without a stream and without a monad: a phrase takes
  tokens from the front of the row and makes a node of them (`Language.Reads`).  A cursor holds the tokens
  that are left and the next free site; every decision is about the token that the cursor sees.

  The relation is built like the parser.  `Repeats` and `Climbs` are its two loops, `Takes` says what one
  element does and `TakesAll` what a row of them does; they are told what a phrase reads, so that `Reads`
  recurses on the number of levels and on nothing else.

  Whenever the parser succeeds, the relation holds (`Language.reads_of_parseWithin`), for every stream and
  whether the parse is watched or not.
-/
import StoneLang.Proofs.Grammar.First
import StoneLang.Proofs.Grammar.Reading

namespace StoneLang

/-! ## Cursors -/

/-- A place in a row of tokens. -/
structure Cursor where
  /-- The tokens that are left. -/
  tokens : List Token
  /-- The next free site. -/
  site : Site
  /-- The input ends after the tokens; otherwise it is not known what follows them. -/
  finished : Bool

namespace Cursor

/-- The token comes next; at the end of the input that is an end of input. -/
def Sees (c : Cursor) (t : Token) : Prop :=
  c.tokens.head? = some t ∨ c.tokens = [] ∧ c.finished = true ∧ ∃ line, t = .endOfInput line

def withTokens (c : Cursor) (tokens : List Token) : Cursor := { c with tokens }

def spend (c : Cursor) : Cursor := { c with site := c.site + 1 }

theorem Sees.of_tokens {c : Cursor} (h : c.tokens = t :: rest) : c.Sees t := .inl (by rw [h]; rfl)

theorem Sees.head_eq {c : Cursor} (hsees : c.Sees t) (h : c.tokens = t' :: rest) : t = t' := by
  rcases hsees with hhead | ⟨hnil, -⟩
  · rw [h] at hhead
    exact (Option.some.inj hhead).symm
  · rw [h] at hnil
    cases hnil

end Cursor

/-- What a piece of the grammar reads: from a cursor it makes a node, and leaves another cursor. -/
abbrev Piece := Cursor → Node → Cursor → Prop

/-! ## Loops -/

/-- What a repetition adds for a node: nothing, if it is a blank group. -/
def added (node : Node) : List Node := if isBlankGroup node then [] else [node]

/-- A repetition goes on as long as its rule can start with the next token. -/
inductive Repeats (starts : Token → Bool) (one : Piece) : Cursor → List Node → Cursor → Prop where
  | stop {c : Cursor} {t : Token} (sees : c.Sees t) (ends : starts t = false) : Repeats starts one c [] c
  | round {c c₁ c₂ : Cursor} {t : Token} {node : Node} {nodes : List Node} (sees : c.Sees t)
      (goes : starts t = true) (first : one c node c₁) (rest : Repeats starts one c₁ nodes c₂) :
      Repeats starts one c (added node ++ nodes) c₂

def operatorOf (operators : Operators) (t : Token) : Option Precedence :=
  if t.kind = .identifier then operators.find? t.text else none

theorem Operators.mem_of_find? {operators : Operators} (h : operators.find? word = some precedence) :
    (word, precedence) ∈ operators := by
  obtain ⟨before, after, rfl, -⟩ := List.lookup_eq_some_iff.mp h
  simp

/-- Operators are joined with their operands as long as the next one takes the operand before it. -/
inductive Climbs (operand : Piece) (operators : Operators) (shape : Shape) :
    (Precedence → Bool) → Node → Cursor → Node → Cursor → Prop where
  | stop {takes : Precedence → Bool} {left : Node} {c : Cursor} {t : Token} (sees : c.Sees t)
      (ends : ∀ precedence, operatorOf operators t = some precedence → takes precedence = false) :
      Climbs operand operators shape takes left c left c
  | step {takes : Precedence → Bool} {left right right' joined node : Node} {c c₁ c₂ c₃ : Cursor} {t : Token}
      {rest : List Token} {precedence : Precedence} (next : c.tokens = t :: rest)
      (operator : operatorOf operators t = some precedence) (goes : takes precedence = true)
      (second : operand (c.withTokens rest) right c₁)
      (inner : Climbs operand operators shape (bindsTighter precedence.level) right c₁ right' c₂)
      (built : shape.build c₂.site [left, .leaf ⟨t.text, t.line⟩, right'] = .ok joined)
      (outer : Climbs operand operators shape takes joined c₂.spend node c₃) :
      Climbs operand operators shape takes left c node c₃

/-! ## Elements -/

section

variable {ι : Type} (starts : ι → Token → Bool) (recur : ι → Piece)

/-- What one element reads, `recur` telling it for a rule: the nodes that it adds. -/
inductive Takes : Element ι → Cursor → List Node → Cursor → Prop where
  | phrase {r : ι} {c c' : Cursor} {node : Node} (reads : recur r c node c') : Takes (.phrase r) c [node] c'
  | choice {rules : List ι} {r : ι} {c c' : Cursor} {t : Token} {node : Node} (sees : c.Sees t)
      (chosen : rules.find? (starts · t) = some r) (reads : recur r c node c') :
      Takes (.choice rules) c [node] c'
  | repeated {r : ι} {c c' : Cursor} {nodes : List Node} (rounds : Repeats (starts r) (recur r) c nodes c') :
      Takes (.repeated r) c nodes c'
  | absent {r : ι} {c : Cursor} {t : Token} (sees : c.Sees t) (ends : starts r t = false) :
      Takes (.optional r) c [] c
  | present {r : ι} {c c' : Cursor} {t : Token} {node : Node} (sees : c.Sees t) (goes : starts r t = true)
      (reads : recur r c node c') : Takes (.optional r) c (added node) c'
  | token {accepted : TokenClass} {maker : LeafMaker} {c : Cursor} {t : Token} {rest : List Token} {node : Node}
      (next : c.tokens = t :: rest) (accepts : accepted.accepts t = true)
      (made : maker.make c.site t = .ok node) :
      Takes (.token accepted maker) c [node] (c.withTokens rest).spend
  | spelling {spellings : List Text} {keep : Bool} {c : Cursor} {t : Token} {rest : List Token}
      (next : c.tokens = t :: rest) (spelled : isSpelled spellings t = true) :
      Takes (.spelling spellings keep) c (if keep then [.leaf ⟨t.text, t.line⟩] else []) (c.withTokens rest)
  | expression {operand : ι} {operators : Operators} {shape : Shape} {c c₁ c₂ : Cursor} {left node : Node}
      (first : recur operand c left c₁)
      (rest : Climbs (recur operand) operators shape (fun _ => true) left c₁ node c₂) :
      Takes (.expression operand operators shape) c [node] c₂

/-- What a row of elements reads. -/
inductive TakesAll : List (Element ι) → Cursor → List Node → Cursor → Prop where
  | nil {c : Cursor} : TakesAll [] c [] c
  | cons {element : Element ι} {rest : List (Element ι)} {c c₁ c₂ : Cursor} {nodes more : List Node}
      (first : Takes starts recur element c nodes c₁) (others : TakesAll rest c₁ more c₂) :
      TakesAll (element :: rest) c (nodes ++ more) c₂

end

def Finishes (children : List Node) (c : Cursor) (node : Node) (c' : Cursor) : Option Shape → Prop
  | some shape => shape.build c.site children = .ok node ∧ c' = c.spend
  | none => node = Shape.gather children ∧ c' = c

theorem Finishes.place (h : Finishes children c node c' shape) : c' = c.spend ∨ c' = c := by
  cases shape with
  | some shape => exact .inl h.2
  | none => exact .inr h.2

/-- What a phrase of the language reads within a number of levels. -/
def Language.Reads (l : Layers) : Nat → Language.Phrase → Piece
  | 0, _, _, _, _ => False
  | levels + 1, p, c, node, c' =>
    ∃ children c₁,
      TakesAll (grammar l).starts (Reads l levels) ((grammar l).rule p).elements c children c₁ ∧
        Finishes children c₁ node c' ((grammar l).rule p).shape

/-- What a row of elements reads, their phrases within a number of levels. -/
abbrev Language.ReadsRow (l : Layers) (levels : Nat) := TakesAll (grammar l).starts (Language.Reads l levels)

/-! ## What the pieces add up to -/

section

variable {ι : Type} {starts : ι → Token → Bool} {recur : ι → Piece} {R : Cursor → List Node → Cursor → Prop}

/-- A relation between a row of nodes and the places before and after it that is kept when rows are put together. -/
structure Additive (R : Cursor → List Node → Cursor → Prop) : Prop where
  nil : ∀ c, R c [] c
  append : ∀ {c c₁ c₂ nodes more}, R c nodes c₁ → R c₁ more c₂ → R c (nodes ++ more) c₂
  added : ∀ {c node c'}, R c [node] c' → R c (added node) c'

/-- What the element reads by itself is so related: a token, a word, or operands that it joins. -/
def Element.Adds (R : Cursor → List Node → Cursor → Prop) : Element ι → Prop
  | .token accepted maker => ∀ c t rest node, c.tokens = t :: rest → accepted.accepts t = true →
      maker.make c.site t = .ok node → R c [node] (c.withTokens rest).spend
  | .spelling spellings keep => ∀ c t rest, c.tokens = t :: rest → isSpelled spellings t = true →
      R c (if keep then [.leaf ⟨t.text, t.line⟩] else []) (c.withTokens rest)
  | .expression _ _ shape => ∀ c c₁ c₂ t rest left right joined, R c [left] c₁ → c₁.tokens = t :: rest →
      R (c₁.withTokens rest) [right] c₂ → shape.build c₂.site [left, .leaf ⟨t.text, t.line⟩, right] = .ok joined →
      R c [joined] c₂.spend
  | _ => True

variable (hR : Additive R)

include hR

variable {c c' : Cursor} {nodes : List Node}

theorem Repeats.adds (hone : ∀ c node c', one c node c' → R c [node] c')
    (h : Repeats goes one c nodes c') : R c nodes c' := by
  induction h with
  | stop sees ends => exact hR.nil _
  | round sees goes first rest ih => exact hR.append (hR.added (hone _ _ _ first)) ih

omit hR in
theorem Climbs.adds (hjoins : (Element.expression q operators shape).Adds R)
    (hoperand : ∀ c node c', recur q c node c' → R c [node] c')
    (hleft : R c₀ [left] c) (h : Climbs (recur q) operators shape takes left c node c') : R c₀ [node] c' := by
  induction h generalizing c₀ with
  | stop sees ends => exact hleft
  | step next operator goes second inner built outer ihinner ihouter =>
    exact ihouter (hjoins _ _ _ _ _ _ _ _ hleft next (ihinner (hoperand _ _ _ second)) built)

theorem Takes.adds (hadds : element.Adds R)
    (hrecur : ∀ q ∈ element.references, ∀ c node c', recur q c node c' → R c [node] c')
    (h : Takes starts recur element c nodes c') : R c nodes c' := by
  cases h with
  | phrase reads => exact hrecur _ (List.mem_singleton.mpr rfl) _ _ _ reads
  | choice sees chosen reads => exact hrecur _ (List.mem_of_find?_eq_some chosen) _ _ _ reads
  | repeated rounds => exact rounds.adds hR (hrecur _ (List.mem_singleton.mpr rfl))
  | absent sees ends => exact hR.nil _
  | present sees goes reads => exact hR.added (hrecur _ (List.mem_singleton.mpr rfl) _ _ _ reads)
  | token next accepts made => exact hadds _ _ _ _ next accepts made
  | spelling next spelled => exact hadds _ _ _ next spelled
  | expression first rest =>
    have hoperand := hrecur _ (List.mem_singleton.mpr rfl)
    exact rest.adds hadds hoperand (hoperand _ _ _ first)

theorem TakesAll.adds (hadds : ∀ element ∈ elements, element.Adds R)
    (hrecur : ∀ element ∈ elements, ∀ q ∈ element.references, ∀ c node c', recur q c node c' → R c [node] c')
    (h : TakesAll starts recur elements c nodes c') : R c nodes c' := by
  induction h with
  | nil => exact hR.nil _
  | cons first others ih =>
    refine hR.append (first.adds hR (hadds _ List.mem_cons_self) (hrecur _ List.mem_cons_self)) (ih ?_ ?_)
    · exact fun element helement => hadds element (List.mem_cons_of_mem _ helement)
    · exact fun element helement => hrecur element (List.mem_cons_of_mem _ helement)

end

/-! ## More levels read no less -/

section

variable {ι : Type} {starts : ι → Token → Bool} {recur recur' : ι → Piece}

variable {c c' : Cursor} {nodes : List Node}

theorem Repeats.mono {starts : Token → Bool} (h : ∀ c node c', one c node c' → one' c node c')
    (hreads : Repeats starts one c nodes c') : Repeats starts one' c nodes c' := by
  induction hreads with
  | stop sees ends => exact .stop sees ends
  | round sees goes first rest ih => exact .round sees goes (h _ _ _ first) ih

theorem Climbs.mono (h : ∀ c node c', operand c node c' → operand' c node c')
    (hreads : Climbs operand operators shape takes left c node c') :
    Climbs operand' operators shape takes left c node c' := by
  induction hreads with
  | stop sees ends => exact .stop sees ends
  | step next operator goes second inner built outer ihinner ihouter =>
    exact .step next operator goes (h _ _ _ second) ihinner built ihouter

theorem Takes.mono (h : ∀ r c node c', recur r c node c' → recur' r c node c')
    (htakes : Takes starts recur element c nodes c') : Takes starts recur' element c nodes c' := by
  cases htakes with
  | phrase reads => exact .phrase (h _ _ _ _ reads)
  | choice sees chosen reads => exact .choice sees chosen (h _ _ _ _ reads)
  | repeated rounds => exact .repeated (rounds.mono (h _))
  | absent sees ends => exact .absent sees ends
  | present sees goes reads => exact .present sees goes (h _ _ _ _ reads)
  | token next accepts made => exact .token next accepts made
  | spelling next spelled => exact .spelling next spelled
  | expression first rest => exact .expression (h _ _ _ _ first) (rest.mono (h _))

theorem TakesAll.mono (h : ∀ r c node c', recur r c node c' → recur' r c node c')
    (htakes : TakesAll starts recur elements c nodes c') : TakesAll starts recur' elements c nodes c' := by
  induction htakes with
  | nil => exact .nil
  | cons first others ih => exact .cons (first.mono h) ih

end

namespace Language

variable {l : Layers} {p : Phrase}

variable {levels : Nat} {c c' : Cursor} {node : Node}

theorem Reads.succ (h : Reads l levels p c node c') : Reads l (levels + 1) p c node c' := by
  induction levels generalizing p c node c' with
  | zero => exact h.elim
  | succ levels ih =>
    obtain ⟨children, c₁, htakes, hfinishes⟩ := h
    exact ⟨children, c₁, htakes.mono fun q _ _ _ hq => ih hq, hfinishes⟩

/-- The element takes a token or a phrase, whatever comes next. -/
def isMandatory : Element Phrase → Bool
  | .repeated _ | .optional _ => false
  | _ => true

theorem isMandatory_rule : ∀ l p, ((rule l p).elements.head?.all isMandatory) = true := checked (by decide)

theorem isMandatory_first (h : ((grammar l).rule p).elements = element :: rest) : isMandatory element = true := by
  have htable := isMandatory_rule l.withNeeds p
  rw [show (rule l.withNeeds p).elements = _ from h] at htable
  exact htable

theorem startsWith_of_takes (h : Takes starts recur element c nodes c')
    (hrecur : ∀ p c node c' t, recur p c node c' → c.Sees t → starts p t = true) (hsees : c.Sees t) :
    element.startsWith starts t = true ∨ isMandatory element = false ∧ c' = c := by
  cases h with
  | phrase reads => exact .inl (hrecur _ _ _ _ _ reads hsees)
  | choice sees chosen reads =>
    exact .inl (List.any_eq_true.mpr ⟨_, List.mem_of_find?_eq_some chosen, hrecur _ _ _ _ _ reads hsees⟩)
  | repeated rounds =>
    cases rounds with
    | stop sees ends => exact .inr ⟨rfl, rfl⟩
    | round sees goes first rest => exact .inl (hrecur _ _ _ _ _ first hsees)
  | absent sees ends => exact .inr ⟨rfl, rfl⟩
  | present sees goes reads => exact .inl (hrecur _ _ _ _ _ reads hsees)
  | token next accepts made => exact .inl (hsees.head_eq next ▸ accepts)
  | spelling next spelled => exact .inl (hsees.head_eq next ▸ spelled)
  | expression first rest => exact .inl (hrecur _ _ _ _ _ first hsees)

theorem Reads.starts (h : Reads l levels p c node c') (hsees : c.Sees t) : (grammar l).starts p t = true := by
  induction levels generalizing p c node c' t with
  | zero => exact h.elim
  | succ levels ih =>
    obtain ⟨children, c₁, htakes, -⟩ := h
    rw [starts_eq]
    cases hel : ((grammar l).rule p).elements with
    | nil => rfl
    | cons element rest =>
      rw [hel] at htakes
      cases htakes with
      | cons first others =>
        refine (startsWith_of_takes first (fun _ _ _ _ _ => ih) hsees).resolve_right fun h => ?_
        rw [isMandatory_first hel] at h
        cases h.1

end Language

theorem Climbs.ends (h : Climbs operand operators shape takes left c node c') :
    ∃ t, c'.Sees t ∧ ∀ precedence, operatorOf operators t = some precedence → takes precedence = false := by
  induction h with
  | stop sees ends => exact ⟨_, sees, ends⟩
  | step _ _ _ _ _ _ _ _ ihouter => exact ihouter

/-! ## What the parser reads -/

def Reading.cursor (r : Reading) : Cursor := ⟨r.stream.tokens, r.nextSite, r.stream.broken.isNone⟩

namespace Parse

variable {r r' r'' : Reading} {t : Token}

theorem cursor_finalState_peek (r : Reading) : (finalState (peek r)).cursor = r.cursor := by
  simp only [Reading.cursor, ← Stream.tokens_peek r.stream, ← Stream.broken_peek r.stream, peek, onStream]
  cases Stream.peek 0 r.stream <;> rfl

theorem cursor_peek (h : peek r = .ok t r') : r.cursor.Sees t ∧ r'.cursor = r.cursor := by
  have hsame := cursor_finalState_peek r
  rw [h] at hsame
  refine ⟨?_, hsame⟩
  obtain ⟨s, hs, rfl⟩ := peek_eq_ok.mp h
  rcases (Stream.peek_eq_ok hs).2 with hhead | ⟨hnil, hends, ht⟩
  · exact .inl hhead
  · exact .inr ⟨hnil, by simp [Reading.cursor, hends], _, ht⟩

theorem cursor_peekAnyway (h : peekAnyway r = .ok t r') : r'.cursor = r.cursor := by
  have hsame := cursor_finalState_peek r
  unfold peekAnyway at h
  cases hpeek : peek r <;> rw [hpeek] at h hsame <;> cases h <;> exact hsame

theorem read_seen (h : peek r = .ok t r') (hkind : t.kind ≠ .endOfInput) :
    ∃ r'' rest, read r' = .ok t r'' ∧ r.cursor.tokens = t :: rest ∧ r''.cursor = r.cursor.withTokens rest ∧
      r''.bound = r'.bound := by
  obtain ⟨hsees, hsame⟩ := cursor_peek h
  obtain ⟨s, hs, rfl⟩ := peek_eq_ok.mp h
  rw [← hsame] at hsees ⊢
  rcases hsees with hhead | ⟨-, -, line, rfl⟩
  · obtain ⟨s', hread, hrest, hbroken, -⟩ := Stream.read_of_ready (Stream.peek_eq_ok hs).1 hhead
    refine ⟨{ r with stream := s' }, s'.tokens, ?_, hrest, ?_, rfl⟩
    · simp only [read, onStream, hread]
    · simp only [Reading.cursor, Cursor.withTokens, hbroken]
  · exact absurd rfl hkind

theorem isSpelled_iff : isSpelled spellings t = true ↔ t.kind = .identifier ∧ t.text ∈ spellings := by
  simp only [isSpelled, Bool.and_eq_true, beq_iff_eq, List.contains_iff_mem]

theorem kind_of_accepts {accepted : TokenClass} (h : accepted.accepts t = true) : t.kind ≠ .endOfInput := by
  intro hkind
  cases accepted <;> simp [TokenClass.accepts, hkind] at h

theorem repeats_of_repeatWhile
    (hfits : Asks fits starts) (hparse : ∀ r node r', parse r = .ok node r' → one r.cursor node r'.cursor)
    (h : repeatWhile fits parse bound before r = .ok nodes r') :
    ∃ new, nodes = before.reverse ++ new ∧ Repeats starts one r.cursor new r'.cursor := by
  induction bound generalizing before r with
  | zero => exact absurd h throw_ne_ok
  | succ bound ih =>
    unfold repeatWhile at h
    obtain ⟨fit, r₁, hfit, h⟩ := bind_eq_ok.mp h
    obtain ⟨t, hpeek, rfl⟩ := asks_eq_ok hfits hfit
    obtain ⟨hsees, hsame⟩ := cursor_peek hpeek
    cases hstarts : starts t with
    | false =>
      simp only [hstarts, Bool.false_eq_true, if_false] at h
      obtain ⟨rfl, rfl⟩ := pure_eq_ok.mp h
      rw [hsame]
      exact ⟨[], by simp, .stop hsees hstarts⟩
    | true =>
      simp only [hstarts, if_true] at h
      obtain ⟨node, r₃, hnode, h⟩ := bind_eq_ok.mp h
      obtain ⟨new, rfl, hrest⟩ := ih h
      have hone := hparse _ _ _ hnode
      rw [hsame] at hone
      refine ⟨added node ++ new, ?_, .round hsees hstarts hone hrest⟩
      unfold added
      split <;> simp

theorem rounds_apply {f : Nat → Parse α} : (rounds >>= f) r = f r.bound r := rfl

theorem build_eq_ok : build shape children r = .ok node r' ↔
      shape.build r.nextSite children = .ok node ∧ r' = { r with nextSite := r.nextSite + 1 } := by
  have hsite : freshSite r = .ok r.nextSite { r with nextSite := r.nextSite + 1 } := rfl
  unfold build
  rw [bind_of_ok hsite]
  cases shape.build r.nextSite children with
  | error d =>
    constructor
    · exact fun h => absurd h throw_ne_ok
    · simp
  | ok built =>
    simp only [pure_eq_ok, Except.ok.injEq]
    exact and_congr_right fun _ => eq_comm

theorem climbs_of_climb (hoperand : ∀ r node r', operand r = .ok node r' → piece r.cursor node r'.cursor)
    (h : climb operand operators shape bound takes left r = .ok node r') :
    Climbs piece operators shape takes left r.cursor node r'.cursor := by
  induction bound generalizing takes left r node r' with
  | zero => exact absurd h throw_ne_ok
  | succ bound ih =>
    unfold climb at h
    obtain ⟨next, r₁, hnext, h⟩ := bind_eq_ok.mp h
    have hasks : Asks (nextOperator operators) (operatorOf operators) := rfl
    obtain ⟨t, hpeek, rfl⟩ := asks_eq_ok hasks hnext
    obtain ⟨hsees, hsame⟩ := cursor_peek hpeek
    cases hop : operatorOf operators t with
    | none =>
      simp only [hop] at h
      obtain ⟨rfl, rfl⟩ := pure_eq_ok.mp h
      rw [hsame]
      exact .stop hsees (by simp [hop])
    | some precedence =>
      simp only [hop] at h
      cases htakes : takes precedence with
      | false =>
        simp only [htakes, Bool.false_eq_true, if_false] at h
        obtain ⟨rfl, rfl⟩ := pure_eq_ok.mp h
        rw [hsame]
        exact .stop hsees (by simp [hop, htakes])
      | true =>
        simp only [htakes, if_true] at h
        have hkind : t.kind ≠ .endOfInput := by
          intro hkind
          simp [operatorOf, hkind] at hop
        obtain ⟨r₃, rest, hread, htokens, hcursor, -⟩ := read_seen hpeek hkind
        rw [bind_of_ok hread] at h
        obtain ⟨right, r₄, hright, h⟩ := bind_eq_ok.mp h
        obtain ⟨right', r₅, hinner, h⟩ := bind_eq_ok.mp h
        obtain ⟨joined, r₆, hjoined, h⟩ := bind_eq_ok.mp h
        obtain ⟨hbuilt, rfl⟩ := build_eq_ok.mp hjoined
        have hsecond := hoperand _ _ _ hright
        rw [hcursor] at hsecond
        exact .step htokens hop htakes hsecond (ih hinner) hbuilt (ih h)

end Parse

namespace Language

open Parse

theorem leadsTo_rule : ∀ l p, (rule l p).elements.all (leadsTo fun _ => true) = true := checked (by decide)

/-- What the table of rules is checked for, of one element: its decisions look at the next token, the names that it
takes are not reserved, and it makes a leaf of each token it takes. -/
structure Regular (element : Element Phrase) : Prop where
  leads : leadsTo (fun _ => true) element = true
  tells : tellsReserved element = true
  makes : element.makes = true

theorem regular_elements (l : Layers) (p : Phrase) : ∀ element ∈ ((grammar l).rule p).elements, Regular element :=
  fun element h => ⟨List.all_eq_true.mp (leadsTo_rule l.withNeeds p) element h, tellsReserved_element l p element h,
    makes_rule l.withNeeds p element h⟩

namespace Regular

variable {q : Phrase} {table : Operators} {shape : Shape}

theorem phrase (h : Regular (.phrase q)) : q.isBlank = false := by simpa [leadsTo] using h.leads

theorem repeated (h : Regular (.repeated q)) : q.isBlank = false := by simpa [leadsTo] using h.leads

theorem optional (h : Regular (.optional q)) : q.isBlank = false := by simpa [leadsTo] using h.leads

theorem expression (h : Regular (.expression q table shape)) : q.isBlank = false := by simpa [leadsTo] using h.leads

end Regular

variable {l : Layers} {r r' : Reading} {recur : Phrase → Parse Node} {piece : Phrase → Piece}

theorem asks_choice (h : Regular (.choice rules)) :
    Asks (firstFitting (grammar l).fits rules) fun t => rules.find? ((grammar l).starts · t) := by
  have hleads := h.leads
  cases rules with
  | nil => cases hleads
  | cons first others =>
    simp only [leadsTo, Bool.and_eq_true, Bool.not_eq_true'] at hleads
    refine asks_firstFitting (asks_fits l hleads.1) fun q _ => ?_
    cases hblank : q.isBlank with
    | false => exact .inl (asks_fits l hblank)
    | true => exact .inr ⟨fits_blank hblank, starts_blank hblank⟩

variable {children nodes : List Node} {settings : ParseSettings}

theorem takes_of_parseElement (hrecur : ∀ p r node r', recur p r = .ok node r' → piece p r.cursor node r'.cursor)
    (hregular : Regular element) (h : (grammar l).parseElement recur children element r = .ok nodes r') :
    ∃ new, nodes = children ++ new ∧ Takes (grammar l).starts piece element r.cursor new r'.cursor := by
  cases element with
  | phrase q =>
    obtain ⟨node, r₁, hnode, h⟩ := bind_eq_ok.mp h
    obtain ⟨rfl, rfl⟩ := pure_eq_ok.mp h
    exact ⟨[node], rfl, .phrase (hrecur _ _ _ _ hnode)⟩
  | choice rules =>
    obtain ⟨chosen, r₁, hchosen, h⟩ := bind_eq_ok.mp h
    obtain ⟨t, hpeek, rfl⟩ := asks_eq_ok (asks_choice hregular) hchosen
    obtain ⟨hsees, hsame⟩ := cursor_peek hpeek
    cases hfound : rules.find? ((grammar l).starts · t) with
    | none =>
      rw [hfound] at h
      obtain ⟨_, _, _, h⟩ := bind_eq_ok.mp h
      exact absurd h throw_ne_ok
    | some q =>
      rw [hfound] at h
      obtain ⟨node, r₃, hnode, h⟩ := bind_eq_ok.mp h
      obtain ⟨rfl, rfl⟩ := pure_eq_ok.mp h
      have hreads := hrecur _ _ _ _ hnode
      rw [hsame] at hreads
      exact ⟨[node], rfl, .choice hsees hfound hreads⟩
  | repeated q =>
    obtain ⟨new, r₂, hnew, h⟩ := bind_eq_ok.mp (rounds_apply.symm.trans h)
    obtain ⟨rfl, rfl⟩ := pure_eq_ok.mp h
    obtain ⟨_, rfl, hrepeats⟩ := repeats_of_repeatWhile (asks_fits l hregular.repeated) (hrecur q) hnew
    exact ⟨_, rfl, .repeated hrepeats⟩
  | optional q =>
    obtain ⟨fit, r₁, hfit, h⟩ := bind_eq_ok.mp h
    obtain ⟨t, hpeek, rfl⟩ := asks_eq_ok (asks_fits l hregular.optional) hfit
    obtain ⟨hsees, hsame⟩ := cursor_peek hpeek
    cases hstarts : (grammar l).starts q t with
    | false =>
      simp only [hstarts, Bool.false_eq_true, if_false] at h
      obtain ⟨rfl, rfl⟩ := pure_eq_ok.mp h
      rw [hsame]
      exact ⟨[], by simp, .absent hsees hstarts⟩
    | true =>
      simp only [hstarts, if_true] at h
      obtain ⟨node, r₃, hnode, h⟩ := bind_eq_ok.mp h
      obtain ⟨rfl, rfl⟩ := pure_eq_ok.mp h
      have hreads := hrecur _ _ _ _ hnode
      rw [hsame] at hreads
      refine ⟨added node, ?_, .present hsees hstarts hreads⟩
      unfold added
      split <;> simp
  | token accepted maker =>
    obtain ⟨t, r₁, hpeek, h⟩ := bind_eq_ok.mp h
    split at h
    · rename_i haccepts
      obtain ⟨r₂, rest, hread, htokens, hcursor, -⟩ := read_seen hpeek (kind_of_accepts haccepts)
      rw [bind_of_ok hread] at h
      obtain ⟨site, r₃, hsite, h⟩ := bind_eq_ok.mp h
      obtain ⟨rfl, rfl⟩ := modifyGet_eq_ok.mp hsite
      have hspent : Reading.cursor { r₂ with nextSite := r₂.nextSite + 1 } = (r.cursor.withTokens rest).spend := by
        rw [← hcursor]
        rfl
      have hnext : r₂.nextSite = r.cursor.site := by
        show r₂.cursor.site = _
        rw [hcursor]
        rfl
      cases hmade : maker.make r₂.nextSite t with
      | error e => rw [hmade] at h; exact absurd h throw_ne_ok
      | ok node =>
        rw [hmade] at h
        obtain ⟨rfl, rfl⟩ := pure_eq_ok.mp h
        rw [hspent]
        exact ⟨[node], rfl, .token htokens haccepts (hnext ▸ hmade)⟩
    · obtain ⟨_, _, _, h⟩ := bind_eq_ok.mp h
      exact absurd h throw_ne_ok
  | spelling spellings keep =>
    obtain ⟨t, r₁, hpeek, h⟩ := bind_eq_ok.mp h
    split at h
    · rename_i hspelled
      have hkind : t.kind ≠ .endOfInput := by simp [isSpelled_iff.mp hspelled]
      obtain ⟨r₂, rest, hread, htokens, hcursor, -⟩ := read_seen hpeek hkind
      rw [bind_of_ok hread] at h
      obtain ⟨rfl, rfl⟩ := pure_eq_ok.mp h
      rw [hcursor]
      refine ⟨_, ?_, .spelling htokens hspelled⟩
      cases keep <;> simp
    · obtain ⟨_, _, _, h⟩ := bind_eq_ok.mp h
      exact absurd h throw_ne_ok
  | expression operand operators shape =>
    obtain ⟨left, r₂, hleft, h⟩ := bind_eq_ok.mp (rounds_apply.symm.trans h)
    obtain ⟨node, r₃, hnode, h⟩ := bind_eq_ok.mp h
    obtain ⟨rfl, rfl⟩ := pure_eq_ok.mp h
    exact ⟨[node], rfl, .expression (hrecur _ _ _ _ hleft) (climbs_of_climb (hrecur operand) hnode)⟩

theorem takesAll_of_parseElements (hrecur : ∀ p r node r', recur p r = .ok node r' → piece p r.cursor node r'.cursor)
    (hregular : ∀ element ∈ elements, Regular element)
    (h : (grammar l).parseElements recur elements children r = .ok nodes r') :
    ∃ new, nodes = children ++ new ∧ TakesAll (grammar l).starts piece elements r.cursor new r'.cursor := by
  induction elements generalizing children r with
  | nil =>
    obtain ⟨rfl, rfl⟩ := pure_eq_ok.mp h
    exact ⟨[], by simp, .nil⟩
  | cons element rest ih =>
    obtain ⟨nodes₁, r₁, hfirst, h⟩ := bind_eq_ok.mp h
    obtain ⟨new, rfl, htakes⟩ := takes_of_parseElement hrecur (hregular element List.mem_cons_self) hfirst
    obtain ⟨more, rfl, hothers⟩ := ih (List.forall_mem_cons.mp hregular).2 h
    exact ⟨new ++ more, by simp, .cons htakes hothers⟩

theorem cursor_noteEntry (h : Grammar.noteEntry settings title depth r = .ok () r') : r'.cursor = r.cursor := by
  unfold Grammar.noteEntry at h
  split at h
  · obtain ⟨t, r₁, hpeek, h⟩ := bind_eq_ok.mp h
    rw [← cursor_peekAnyway hpeek, ← modify_eq_ok.mp h]
    rfl
  · obtain ⟨-, rfl⟩ := pure_eq_ok.mp h
    rfl

theorem reads_of_parseWithin (h : (grammar l).parseWithin settings levels p r = .ok node r') :
    Reads l levels p r.cursor node r'.cursor := by
  induction levels generalizing p r node r' with
  | zero =>
    obtain ⟨_, _, _, h⟩ := bind_eq_ok.mp h
    exact absurd h throw_ne_ok
  | succ levels ih =>
    obtain ⟨⟨⟩, r₁, hentry, h⟩ := bind_eq_ok.mp h
    obtain ⟨children, r₂, hchildren, h⟩ := bind_eq_ok.mp h
    obtain ⟨_, rfl, htakes⟩ := takesAll_of_parseElements (fun _ _ _ _ hq => ih hq) (regular_elements l p) hchildren
    rw [cursor_noteEntry hentry] at htakes
    refine ⟨_, r₂.cursor, htakes, ?_⟩
    unfold Finishes
    generalize ((grammar l).rule p).shape = res at h ⊢
    cases res with
    | none =>
      obtain ⟨rfl, rfl⟩ := pure_eq_ok.mp h
      exact ⟨rfl, rfl⟩
    | some shape =>
      obtain ⟨hbuilt, rfl⟩ := build_eq_ok.mp h
      exact ⟨hbuilt, rfl⟩

theorem atEnd_cases (h : atEnd r = .ok finished r') :
    r'.cursor = r.cursor ∧ ∃ t, r.cursor.Sees t ∧ t.isEndOfInput = finished := by
  have hasks : Asks atEnd Token.isEndOfInput := rfl
  obtain ⟨t, hpeek, rfl⟩ := asks_eq_ok hasks h
  obtain ⟨hsees, hsame⟩ := cursor_peek hpeek
  exact ⟨hsame, t, hsees, rfl⟩

theorem reads_of_turn (h : turn l settings r = .ok (some unit) r') :
    Reads l settings.maxDepth .program r.cursor unit r'.cursor := by
  obtain ⟨r₁, hend, hunit⟩ := turn_eq_some h
  rw [← (atEnd_cases hend).1]
  exact reads_of_parseWithin hunit

end Language

end StoneLang
