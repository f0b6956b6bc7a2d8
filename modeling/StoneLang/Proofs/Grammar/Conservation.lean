/-
  No token is lost.

  The words of a unit are those of the tokens that it was read from, in their order.  Some tokens leave no
  word: keywords and punctuation, and a minus sign that negates (`Token.isSilent`).  Which minus signs these are
  can be told from the tokens alone: a minus sign is binary if an operand ends right before it
  (`Token.endsOperand`), and negates otherwise.  `keptWords` goes through a row of tokens in this way.

  SPEC:    the leaves of a unit are the tokens it was read from, less keywords, punctuation and unary minus signs;
           the stream goes on right after the separator that ends the unit.
  PROGRAM: `Language.parseUnit`, for all layers, on any stream.

  The argument is about `Language.Reads`.  A phrase that starts where no operand has ended keeps its words
  (`Language.Conserves`); rows of elements are followed with one bit, whether an operand may have ended
  (`Language.guarded`), which the table of rules is checked for.  Only a simple statement needs more: its
  arguments come after an expression, and start with no minus sign because the expression would have taken it.
-/
import Mathlib.Tactic.ByContra
import StoneLang.Proofs.Grammar.Completeness
import StoneLang.Proofs.Tree.Construction

namespace StoneLang

/-! ## The words that tokens leave -/

namespace Language

/-- The keywords and the punctuation that leave no word in a tree. -/
def silent : List Text :=
  [text "if", text "else", text "while", text "def", text "class", text "extends", text "fun"] ++ punctuation

def closers : List Text := [text ")", text "]", text "\x7d", text "new"]

end Language

namespace Token

/-- The word of a token. -/
def word (t : Token) : Word := ⟨t.text, t.line⟩

def isMinus (t : Token) : Bool := isSpelled [StoneLang.text "-"] t

def endsOperand (t : Token) : Bool :=
  t.kind == .number || t.kind == .string ||
    t.kind == .identifier && (!Language.isReserved t.text || Language.closers.contains t.text)

/-- The token leaves no word, `ended` telling whether an operand ends right before it. -/
def isSilent (ended : Bool) (t : Token) : Bool := isSpelled Language.silent t || !ended && t.isMinus

end Token

/-- The words that tokens leave, `ended` telling whether an operand ends right before the first of them. -/
def keptWords : Bool → List Token → List Word
  | _, [] => []
  | ended, t :: rest => (if t.isSilent ended then [] else [t.word]) ++ keptWords t.endsOperand rest

/-- An operand ends with the last of the tokens; without tokens, `ended`. -/
def endedAfter : Bool → List Token → Bool
  | ended, [] => ended
  | _, t :: rest => endedAfter t.endsOperand rest

def StartsPlain (tokens : List Token) : Prop := ∀ t, tokens.head? = some t → t.isMinus = false

theorem StartsPlain.left (h : StartsPlain (tokens ++ more)) : StartsPlain tokens :=
  fun t ht => h t (by rw [List.head?_append, ht]; rfl)

@[simp] theorem keptWords_nil (ended : Bool) : keptWords ended [] = [] := rfl

@[simp] theorem endedAfter_nil (ended : Bool) : endedAfter ended [] = ended := rfl

theorem keptWords_append (ended : Bool) (ts us : List Token) :
    keptWords ended (ts ++ us) = keptWords ended ts ++ keptWords (endedAfter ended ts) us := by
  induction ts generalizing ended with
  | nil => rfl
  | cons t rest ih => simp [keptWords, endedAfter, ih]

theorem endedAfter_append (ended : Bool) (ts us : List Token) :
    endedAfter ended (ts ++ us) = endedAfter (endedAfter ended ts) us := by
  induction ts generalizing ended with
  | nil => rfl
  | cons t rest ih => exact ih _

namespace Token

variable {t : Token}

theorem isSilent_of_spelled (h : spellings.all Language.silent.contains = true)
    (ht : isSpelled spellings t = true) (ended : Bool) : t.isSilent ended = true := by
  rw [Parse.isSpelled_iff] at ht
  have hmem := List.all_eq_true.mp h t.text ht.2
  simp only [isSilent, isSpelled, ht.1, hmem, BEq.rfl, Bool.and_self, Bool.true_or]

theorem endsOperand_of_spelled (h : spellings.all Language.closers.contains = true)
    (ht : isSpelled spellings t = true) : t.endsOperand = true := by
  rw [Parse.isSpelled_iff] at ht
  have hmem := List.all_eq_true.mp h t.text ht.2
  have hcloses : t.text ∈ Language.closers := by simpa using hmem
  simp [endsOperand, ht.1, hcloses]

theorem endsOperand_eq_false (hreserved : spellings.all Language.isReserved = true)
    (h : spellings.any Language.closers.contains = false) (ht : isSpelled spellings t = true) :
    t.endsOperand = false := by
  rw [Parse.isSpelled_iff] at ht
  have hword := List.all_eq_true.mp hreserved t.text ht.2
  have hother : t.text ∉ Language.closers := by simpa using List.any_eq_false.mp h t.text ht.2
  simp [endsOperand, ht.1, hword, hother]

theorem isSilent_eq_false {word : Text} (hkind : t.kind = .identifier) (hword : t.text = word)
    (h : Language.silent.contains word = false) (hminus : word ≠ StoneLang.text "-") (ended : Bool) :
    t.isSilent ended = false := by
  subst hword
  simp only [isSilent, isSpelled, isMinus, h, Bool.and_false, Bool.false_or, hkind]
  have : ([StoneLang.text "-"] : List Text).contains t.text = false := by simpa using hminus
  simp only [this, Bool.and_false]

/-- A token that is kept as a leaf of its class leaves its word, and ends an operand. -/
theorem accepted_keeps
    (h : Language.tellsReserved (.token accepted maker) = true) (ht : accepted.accepts t = true) :
    (∀ ended, t.isSilent ended = false) ∧ t.endsOperand = true := by
  cases accepted with
  | number | string =>
    have hkind := beq_iff_eq.mp ht
    exact ⟨fun ended => by simp [isSilent, isSpelled, isMinus, hkind], by simp [endsOperand, hkind]⟩
  | identifier words =>
    simp only [Language.tellsReserved, beq_iff_eq] at h
    subst h
    rw [Language.accepts_name] at ht
    simp only [Bool.and_eq_true, beq_iff_eq, Bool.not_eq_true'] at ht
    obtain ⟨hkind, hname⟩ := ht
    refine ⟨fun ended => ?_, by simp [endsOperand, hkind, hname]⟩
    -- silent words and the minus sign are reserved
    have hsilent : Language.silent.contains t.text = false := by
      rw [Bool.eq_false_iff]
      intro hmem
      have hall : Language.silent.all Language.isReserved = true := by decide
      have := List.all_eq_true.mp hall t.text (by simpa using hmem)
      rw [hname] at this
      cases this
    have hminus : t.text ≠ StoneLang.text "-" := by
      intro heq
      rw [heq] at hname
      exact absurd hname (by decide)
    exact isSilent_eq_false hkind rfl hsilent hminus ended

end Token

/-! ## Elements and the operands that they end -/

namespace Language

def minusSign : Token := ⟨.identifier, text "-", 0, 0⟩

/-- The phrase ends with an operand, or with the brace of a block. -/
def Phrase.isOperand : Phrase → Bool
  | .expr | .factor | .negation | .primary | .parenthesized | .numberOperand | .nameOperand | .stringOperand
  | .block | .closure | .suffix | .call | .dot | .memberName | .newName | .subscript | .arrayOperand => true
  | _ => false

/-- After the element an operand has ended, `before` telling it for the elements before. -/
def endsIn (before : Bool) : Element Phrase → Bool
  | .phrase q | .expression q _ _ => q.isOperand
  | .choice rules => rules.all Phrase.isOperand
  | .repeated q | .optional q => before && q.isOperand
  | .token .. => true
  | .spelling spellings _ => spellings.all closers.contains

def mayEnd : Element Phrase → Bool
  | .spelling spellings _ => spellings.any closers.contains
  | _ => true

/-- Where an operand may have ended, no element starts with a minus sign. -/
def guarded (l : Layers) : Bool → List (Element Phrase) → Bool
  | _, [] => true
  | closed, element :: rest =>
    !(closed && element.startsWith (grammar l).starts minusSign) && guarded l (mayEnd element) rest

/-- The element keeps its tokens as it should: what it drops is silent, what it keeps is not. -/
def accounts (l : Layers) : Element Phrase → Bool
  | .repeated q => !(grammar l).starts q minusSign
  | .spelling spellings true =>
    spellings.all fun word => !silent.contains word && word != text "-" && closers.contains word
  | .spelling spellings false => spellings.all silent.contains || spellings == [text "-"]
  | .expression q table _ =>
    q.isOperand && table.all fun entry =>
      isReserved entry.1 && !silent.contains entry.1 && !closers.contains entry.1
  | _ => true

def accountsRule (l : Layers) (p : Phrase) : Bool :=
  let elements := ((grammar l).rule p).elements
  elements.all (accounts l) && (p == .simple || guarded l false elements) &&
    (!p.isOperand || elements.foldl endsIn false)

theorem accountsRule_eq_true : ∀ l p, accountsRule l p = true := checked (by decide)

variable {l : Layers} {levels : Nat} {c c' : Cursor} {nodes : List Node}

theorem lead_minus {t : Token} (h : t.isMinus = true) : t.lead = minusSign.lead := by
  rw [Token.isMinus, Parse.isSpelled_iff, List.mem_singleton] at h
  unfold Token.lead
  rw [h.1, h.2]
  rfl

theorem starts_minus (l : Layers) (q : Phrase) {t : Token} (h : t.isMinus = true) :
    (grammar l).starts q t = (grammar l).starts q minusSign := by
  rw [← starts_lead l q t, lead_minus h, starts_lead]

theorem startsWith_minus (htells : tellsReserved element = true)
    (ht : t.isMinus = true) :
    element.startsWith (grammar l).starts t = element.startsWith (grammar l).starts minusSign := by
  cases element with
  | phrase q | repeated q | optional q | expression q _ _ => exact starts_minus l q ht
  | choice rules => simp only [Element.startsWith, starts_minus l _ ht]
  | token accepted maker =>
    show accepted.accepts t = accepted.accepts minusSign
    rw [← accepts_lead htells t, lead_minus ht, accepts_lead htells]
  | spelling spellings keep =>
    show isSpelled spellings t = isSpelled spellings minusSign
    rw [← isSpelled_lead htells t, lead_minus ht, isSpelled_lead htells]

theorem sees_taken (h : c.tokens = taken ++ rest)
    (ht : taken.head? = some t) : c.Sees t := by
  refine .inl ?_
  rw [h, List.head?_append, ht]
  rfl

/-! ## Phrases keep their words -/

/-- The tokens that a phrase takes leave the words of its node.  An operand ends with an operand, and after an
expression no operator comes. -/
def Conserves (p : Phrase) (c : Cursor) (node : Node) (c' : Cursor) : Prop :=
  ∃ taken, c.tokens = taken ++ c'.tokens ∧
    (∀ ended, (ended = true → StartsPlain taken) → node.words = keptWords ended taken) ∧
    (p.isOperand = true → ∀ ended, endedAfter ended taken = true) ∧
    (p = .expr → ∀ t, c'.Sees t → operatorOf operators t = none)

theorem words_added (node : Node) : allWords (added node) = node.words := by
  unfold added
  split
  · rename_i hblank
    cases node with
    | list children =>
      cases children with
      | nil => rfl
      | cons n rest => cases hblank
    | _ => cases hblank
  · simp [allWords]

theorem conserves_repeats
    (hrec : ∀ c node c', Reads l levels q c node c' → Conserves q c node c')
    (hplain : (grammar l).starts q minusSign = false)
    (h : Repeats ((grammar l).starts q) (Reads l levels q) c nodes c') :
    ∃ taken, c.tokens = taken ++ c'.tokens ∧ (∀ ended, allWords nodes = keptWords ended taken) ∧
      (q.isOperand = true → endedAfter true taken = true) := by
  induction h with
  | stop sees ends => exact ⟨[], rfl, fun _ => rfl, fun _ => rfl⟩
  | @round c c₁ c₂ t node nodes sees goes first rest ih =>
    obtain ⟨taken, hsplit, hwords, hends, -⟩ := hrec _ _ _ first
    obtain ⟨more, hsplit', hwords', hends'⟩ := ih
    have hstart : StartsPlain taken := by
      intro t' ht'
      cases hminus : t'.isMinus with
      | false => rfl
      | true =>
        have hgoes := first.starts (sees_taken hsplit ht')
        rw [starts_minus l q hminus, hplain] at hgoes
        cases hgoes
    refine ⟨taken ++ more, by rw [hsplit, hsplit', List.append_assoc], fun ended => ?_, fun hq => ?_⟩
    · rw [allWords_append, words_added, hwords ended fun _ => hstart, keptWords_append, ← hwords']
    · rw [endedAfter_append, hends hq]
      exact hends' hq

/-- Operators and their operands: a minus sign among them is binary, because an operand ends before it. -/
theorem conserves_climbs (hoperand : q.isOperand = true)
    (hrec : ∀ c node c', Reads l levels q c node c' → Conserves q c node c')
    (htable : (table.all fun entry =>
      isReserved entry.1 && !silent.contains entry.1 && !closers.contains entry.1) = true)
    (h : Climbs (Reads l levels q) table shape takes left c node c') :
    ∃ taken, c.tokens = taken ++ c'.tokens ∧ node.words = left.words ++ keptWords true taken ∧
      endedAfter true taken = true := by
  induction h with
  | stop sees ends => exact ⟨[], rfl, by simp, rfl⟩
  | @step takes left right right' joined node c c₁ c₂ c₃ t rest precedence next operator goes second inner built
      outer ihinner ihouter =>
    obtain ⟨taken₁, hsplit₁, hwords₁, hends₁, -⟩ := hrec _ _ _ second
    obtain ⟨taken₂, hsplit₂, hwords₂, hends₂⟩ := ihinner
    obtain ⟨taken₃, hsplit₃, hwords₃, hends₃⟩ := ihouter
    change rest = taken₁ ++ c₁.tokens at hsplit₁
    change c₂.tokens = taken₃ ++ c₃.tokens at hsplit₃
    -- the operator leaves its word and ends no operand
    have hkind : t.kind = .identifier := by
      by_contra hkind
      simp [operatorOf, hkind] at operator
    rw [operatorOf, if_pos hkind] at operator
    have hword := List.all_eq_true.mp htable _ (Operators.mem_of_find? operator)
    simp only [Bool.and_eq_true, Bool.not_eq_true'] at hword
    obtain ⟨⟨hreserved, hsilent⟩, hcloser⟩ := hword
    have hkept : t.isSilent true = false := by
      simp only [Token.isSilent, isSpelled, hsilent, Bool.and_false, Bool.not_true, Bool.false_and, Bool.or_self]
    have hends : t.endsOperand = false := by
      simp only [Token.endsOperand, hkind, hreserved, hcloser, Bool.not_true, Bool.or_self, Bool.and_false,
        Bool.or_false]
      rfl
    refine ⟨t :: (taken₁ ++ taken₂ ++ taken₃), ?_, ?_, ?_⟩
    · rw [next, hsplit₁, hsplit₂, hsplit₃]
      simp
    · have hjoined := Shape.build_words built
      rw [hwords₃, hjoined]
      simp only [allWords, hwords₂, hwords₁ false (by simp), keptWords, hkept, hends, Node.words,
        keptWords_append, endedAfter_append, hends₁ hoperand, hends₂]
      simp [Token.word]
    · simp [endedAfter, endedAfter_append, hends, hends₁ hoperand, hends₂, hends₃]

section
variable (hrec : ∀ q c node c', Reads l levels q c node c' → Conserves q c node c')

include hrec

theorem conserves_takes (htells : tellsReserved element = true)
    (haccounts : accounts l element = true) (h : Takes (grammar l).starts (Reads l levels) element c nodes c') :
    ∃ taken, c.tokens = taken ++ c'.tokens ∧
      (∀ ended, (ended = true → StartsPlain taken) → allWords nodes = keptWords ended taken) ∧
      (mayEnd element = false → ∀ ended, endedAfter ended taken = false) ∧
      ∀ before ended, (before = true → ended = true) → endsIn before element = true →
        endedAfter ended taken = true := by
  cases h with
  | phrase reads =>
    obtain ⟨taken, hsplit, hwords, hends, -⟩ := hrec _ _ _ _ reads
    exact ⟨taken, hsplit, by simpa [allWords] using hwords, by simp [mayEnd], fun _ ended _ hq => hends hq ended⟩
  | choice sees chosen reads =>
    obtain ⟨taken, hsplit, hwords, hends, -⟩ := hrec _ _ _ _ reads
    refine ⟨taken, hsplit, by simpa [allWords] using hwords, by simp [mayEnd], fun _ ended _ hall => ?_⟩
    exact hends (List.all_eq_true.mp hall _ (List.mem_of_find?_eq_some chosen)) ended
  | @repeated q _ _ _ rounds =>
    simp only [accounts, Bool.not_eq_true'] at haccounts
    obtain ⟨taken, hsplit, hwords, hends⟩ := conserves_repeats (hrec q) haccounts rounds
    refine ⟨taken, hsplit, fun ended _ => hwords ended, by simp [mayEnd], fun before ended hbefore hq => ?_⟩
    simp only [endsIn, Bool.and_eq_true] at hq
    rw [hbefore hq.1]
    exact hends hq.2
  | absent sees ends =>
    refine ⟨[], rfl, fun _ _ => rfl, by simp [mayEnd], fun before ended hbefore hq => ?_⟩
    simp only [endsIn, Bool.and_eq_true] at hq
    exact hbefore hq.1
  | present sees goes reads =>
    obtain ⟨taken, hsplit, hwords, hends, -⟩ := hrec _ _ _ _ reads
    refine ⟨taken, hsplit, by simpa [words_added] using hwords, by simp [mayEnd], fun before ended _ hq => ?_⟩
    simp only [endsIn, Bool.and_eq_true] at hq
    exact hends hq.2 ended
  | @token accepted maker _ t rest node next accepts made =>
    obtain ⟨hkept, hends⟩ := Token.accepted_keeps htells accepts
    have hwords : node.words = [t.word] := by
      cases maker <;> cases made <;> rfl
    refine ⟨[t], next, fun ended _ => ?_, by simp [mayEnd], fun _ _ _ _ => hends⟩
    simp [allWords, keptWords, hkept, hwords]
  | @spelling spellings keep _ t rest next spelled =>
    refine ⟨[t], next, ?_, ?_, fun _ _ _ hall => Token.endsOperand_of_spelled hall spelled⟩
    · intro ended hstart
      cases keep with
      | true =>
        obtain ⟨hkind, hmem⟩ := Parse.isSpelled_iff.mp spelled
        have hword := List.all_eq_true.mp haccounts t.text hmem
        simp only [Bool.and_eq_true, Bool.not_eq_true', bne_iff_ne, ne_eq] at hword
        have hkept := Token.isSilent_eq_false hkind rfl hword.1.1 hword.1.2 ended
        simp [allWords, keptWords, hkept, Node.words, Token.word]
      | false =>
        have hsilent : t.isSilent ended = true := by
          simp only [accounts, Bool.or_eq_true, beq_iff_eq] at haccounts
          rcases haccounts with hall | rfl
          · exact Token.isSilent_of_spelled hall spelled ended
          · cases ended with
            | false => simp [Token.isSilent, Token.isMinus, spelled]
            | true =>
              have hplain := hstart rfl t rfl
              rw [Token.isMinus, spelled] at hplain
              cases hplain
        simp [allWords, keptWords, hsilent]
    · intro hmay _
      exact Token.endsOperand_eq_false htells hmay spelled
  | @expression q table shape _ c₁ _ left node first rest =>
    simp only [accounts, Bool.and_eq_true] at haccounts
    obtain ⟨taken₁, hsplit₁, hwords₁, hends₁, -⟩ := hrec _ _ _ _ first
    obtain ⟨taken₂, hsplit₂, hwords₂, hends₂⟩ := conserves_climbs haccounts.1 (hrec q) haccounts.2 rest
    refine ⟨taken₁ ++ taken₂, by rw [hsplit₁, hsplit₂, List.append_assoc], fun ended hstart => ?_, by simp [mayEnd],
      fun _ ended _ hq => ?_⟩
    · have hfirst : left.words = keptWords ended taken₁ := hwords₁ ended fun hended => (hstart hended).left
      simp [allWords, hwords₂, hfirst, keptWords_append, hends₁ haccounts.1]
    · rw [endedAfter_append, hends₁ hq, hends₂]

/-- What a row of elements takes, where an operand may have ended before only if `closed`. -/
theorem conserves_takesAll
    (htells : ∀ element ∈ elements, tellsReserved element = true)
    (haccounts : ∀ element ∈ elements, accounts l element = true)
    (hguarded : guarded l closed elements = true)
    (h : ReadsRow l levels elements c nodes c') :
    ∃ taken, c.tokens = taken ++ c'.tokens ∧
      (∀ ended, (ended = true → closed = true ∨ StartsPlain taken) → allWords nodes = keptWords ended taken) ∧
      ∀ before ended, (before = true → ended = true) → elements.foldl endsIn before = true →
        endedAfter ended taken = true := by
  induction h generalizing closed with
  | nil => exact ⟨[], rfl, fun _ _ => rfl, fun _ _ hbefore hends => hbefore hends⟩
  | @cons element rest c c₁ c₂ nodes more first others ih =>
    simp only [guarded, Bool.and_eq_true, Bool.not_eq_true', Bool.and_eq_false_iff] at hguarded
    have htells₁ := htells element List.mem_cons_self
    obtain ⟨taken₁, hsplit₁, hwords₁, hopen, hends₁⟩ :=
      conserves_takes hrec htells₁ (haccounts element List.mem_cons_self) first
    obtain ⟨taken₂, hsplit₂, hwords₂, hends₂⟩ := ih (fun other hother => htells other (List.mem_cons_of_mem _ hother))
      (fun other hother => haccounts other (List.mem_cons_of_mem _ hother)) hguarded.2
    refine ⟨taken₁ ++ taken₂, by rw [hsplit₁, hsplit₂, List.append_assoc], fun ended hended => ?_,
      fun before ended hbefore hends => ?_⟩
    · have hstart : ended = true → StartsPlain taken₁ := by
        intro htrue t ht
        rcases hended htrue with hclosed | hplain
        · -- the element cannot start with a minus sign here
          cases hminus : t.isMinus with
          | false => rfl
          | true =>
            rcases startsWith_of_takes first (fun _ _ _ _ _ => Reads.starts) (sees_taken hsplit₁ ht) with
              hstarts | ⟨-, rfl⟩
            · rw [startsWith_minus htells₁ hminus] at hstarts
              rcases hguarded.1 with hopen | hnot
              · rw [hclosed] at hopen
                cases hopen
              · rw [hnot] at hstarts
                cases hstarts
            · have hnil : taken₁ = [] := by
                have hlength := congrArg List.length hsplit₁
                rw [List.length_append] at hlength
                exact List.eq_nil_of_length_eq_zero (by omega)
              rw [hnil] at ht
              cases ht
        · exact hplain.left t ht
      rw [allWords_append, hwords₁ ended hstart, keptWords_append]
      congr 1
      refine hwords₂ _ fun hafter => .inl ?_
      cases hmay : mayEnd element with
      | true => rfl
      | false =>
        rw [hopen hmay ended] at hafter
        cases hafter
    · rw [endedAfter_append]
      exact hends₂ _ _ (fun hbetween => hends₁ before ended hbefore hbetween) hends

/-- A simple statement: an expression, and perhaps arguments right after it.  These start with no minus sign,
because the expression would have taken it. -/
theorem conserves_simple
    (h : ReadsRow l levels ((grammar l).rule .simple).elements c nodes c') :
    ∃ taken, c.tokens = taken ++ c'.tokens ∧
      ∀ ended, (ended = true → StartsPlain taken) → allWords nodes = keptWords ended taken := by
  have hrule : ((grammar l).rule .simple).elements
      = .phrase .expr :: layer l.withNeeds.functions [.optional .arguments] := rfl
  rw [hrule] at h
  cases h with
  | @cons _ _ _ c₁ _ nodes₁ more first others =>
    cases first with
    | @phrase _ _ _ node reads =>
      obtain ⟨taken₁, hsplit₁, hwords₁, hends₁, hnext⟩ := hrec _ _ _ _ reads
      generalize l.withNeeds.functions = res at others ⊢
      cases res with
      | false =>
        cases others
        exact ⟨taken₁, hsplit₁, by simpa [allWords] using hwords₁⟩
      | true =>
        obtain ⟨taken₂, hsplit₂, hwords₂, hplain⟩ : ∃ taken₂, c₁.tokens = taken₂ ++ c'.tokens ∧
            (∀ ended, (ended = true → StartsPlain taken₂) → allWords more = keptWords ended taken₂) ∧
            StartsPlain taken₂ := by
          cases others with
          | cons second last =>
            cases last
            obtain ⟨taken₂, hsplit₂, hwords₂, -, -⟩ := conserves_takes hrec rfl rfl second
            refine ⟨taken₂, hsplit₂, by simpa using hwords₂, fun t ht => ?_⟩
            -- a minus sign would be an operator
            have hoperator := hnext rfl t (sees_taken hsplit₂ ht)
            cases hminus : t.isMinus with
            | false => rfl
            | true =>
              rw [Token.isMinus, Parse.isSpelled_iff, List.mem_singleton] at hminus
              rw [operatorOf, if_pos hminus.1, hminus.2] at hoperator
              exact absurd hoperator (by decide)
        refine ⟨taken₁ ++ taken₂, by rw [hsplit₁, hsplit₂, List.append_assoc], fun ended hstart => ?_⟩
        rw [allWords_append, hwords₂ (endedAfter ended taken₁) fun _ => hplain, keptWords_append]
        simp [allWords, hwords₁ ended fun hended => (hstart hended).left]

end

theorem conserves_reads (h : Reads l levels p c node c') : Conserves p c node c' := by
  induction levels generalizing p c node c' with
  | zero => exact h.elim
  | succ levels ih =>
    have htable := accountsRule_eq_true l p
    simp only [accountsRule, Bool.and_eq_true, Bool.or_eq_true, Bool.not_eq_true', beq_iff_eq] at htable
    obtain ⟨⟨haccounts, hguarded⟩, hoperand⟩ := htable
    obtain ⟨children, c₁, htakes, hfinishes⟩ := h
    -- finishing a rule takes no token and keeps the words
    obtain ⟨hwords, hrest⟩ : node.words = allWords children ∧ c'.tokens = c₁.tokens := by
      unfold Finishes at hfinishes
      split at hfinishes
      · obtain ⟨hbuilt, rfl⟩ := hfinishes
        exact ⟨Shape.build_words hbuilt, rfl⟩
      · obtain ⟨rfl, rfl⟩ := hfinishes
        exact ⟨Shape.gather_words children, rfl⟩
    have hrec : ∀ q c node c', Reads l levels q c node c' → Conserves q c node c' := fun _ _ _ _ hq => ih hq
    rcases hguarded with rfl | hguarded
    · obtain ⟨taken, hsplit, hkept⟩ := conserves_simple hrec htakes
      exact ⟨taken, hrest ▸ hsplit, hwords ▸ hkept, nofun, nofun⟩
    · obtain ⟨taken, hsplit, hkept, hends⟩ := conserves_takesAll hrec (tellsReserved_element l p)
        (List.all_eq_true.mp haccounts) hguarded htakes
      refine ⟨taken, hrest ▸ hsplit, fun ended hstart => ?_, fun hp ended => ?_, ?_⟩
      · rw [hwords]
        exact hkept ended fun hended => .inr (hstart hended)
      · rcases hoperand with hnot | hoperand
        · rw [hp] at hnot
          cases hnot
        · exact hends false ended nofun hoperand
      · rintro rfl t hsees
        have hrule : ((grammar l).rule .expr).elements = [.expression .factor operators .binary] := rfl
        rw [hrule] at htakes
        cases htakes with
        | cons first others =>
          cases others
          cases first with
          | expression _ climbs =>
            obtain ⟨t', hsees', hends'⟩ := climbs.ends
            obtain ⟨-, rfl⟩ := hfinishes
            rw [hsees.operatorOf_eq hsees', Option.eq_none_iff_forall_ne_some]
            exact fun precedence hop => absurd (hends' precedence hop) (by simp)

/-! ## Units -/

theorem separator_of_reads (h : Reads l levels .program c unit c') :
    ∃ front separator, c.tokens = front ++ separator :: c'.tokens ∧
      isSpelled [text ";", Token.endOfLineText] separator = true := by
  cases levels with
  | zero => exact h.elim
  | succ levels =>
    obtain ⟨children, c₁, htakes, -, rfl⟩ := h
    cases htakes with
    | cons first others =>
      obtain ⟨front, hfront, -⟩ := conserves_takes (fun _ _ _ _ hq => conserves_reads hq) rfl rfl first
      cases others with
      | cons second last =>
        cases last
        cases second with
        | @spelling _ _ _ separator rest next spelled =>
          rw [next] at hfront
          exact ⟨front, separator, hfront, spelled⟩

/-- The tokens that a unit is read from are a row and the separator after it, and leave the words of the unit.
The reading goes on right after the separator. -/
theorem unit_keeps_tokens (l : Layers) (settings : ParseSettings) (r r' : Reading) (unit : Node)
    (h : parseUnit l settings r = .ok unit r') :
    ∃ taken separator, r.stream.tokens = taken ++ separator :: r'.stream.tokens ∧
      isSpelled [text ";", Token.endOfLineText] separator = true ∧
      unit.words = keptWords false (taken ++ [separator]) := by
  have hreads := reads_of_parseWithin h
  obtain ⟨taken, hsplit, hwords, -⟩ := conserves_reads hreads
  obtain ⟨front, separator, hfront, hseparator⟩ := separator_of_reads hreads
  have htaken : taken = front ++ [separator] := by
    refine List.append_cancel_right (hsplit.symm.trans (hfront.trans ?_))
    rw [List.append_assoc]
    rfl
  refine ⟨front, separator, hfront, hseparator, ?_⟩
  rw [← htaken]
  exact hwords false nofun

/-- Of the three minus signs here the second is binary. -/
theorem unit_keeps_tokens_signs :
    ∃ unit r', parseUnit .full ⟨20, false⟩ (.start (.ofSource (text "f(-a) = x - -y.new
z")) 0) = .ok unit r' ∧
      (unit.words.map Word.text
        = [text "f", text "a", text "=", text "x", text "-", text "y", text "new"]) ∧
      ∃ taken separator,
        (Stream.ofSource (text "f(-a) = x - -y.new
z")).tokens = taken ++ separator :: r'.stream.tokens ∧
        isSpelled [text ";", Token.endOfLineText] separator = true ∧
        unit.words = keptWords false (taken ++ [separator]) := by
  have hwords : (match parseUnit .full ⟨20, false⟩ (.start (.ofSource (text "f(-a) = x - -y.new
z")) 0) with
      | .ok unit _ => unit.words.map Word.text
      | .error .. => []) = [text "f", text "a", text "=", text "x", text "-", text "y", text "new"] := by
    decide +kernel
  cases hparse : parseUnit .full ⟨20, false⟩ (.start (.ofSource (text "f(-a) = x - -y.new
z")) 0) with
  | error e r' => rw [hparse] at hwords; cases hwords
  | ok unit r' =>
    rw [hparse] at hwords
    exact ⟨unit, r', rfl, hwords, unit_keeps_tokens _ _ _ _ _ hparse⟩

end Language

end StoneLang
