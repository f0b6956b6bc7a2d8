/-
  Operators group their operands by precedence.

  PROGRAM: `Grammar.parseElement` at an `expression` element, by any grammar and any table of operators.
  SPEC: a row `operand (operator operand)*` (`IsRow`) has one grouping that keeps its order and in which every
  operator binds as its precedence says (`Grouping.Grouped`).

  The parser climbs: after an operator it reads an operand and lets the operators that bind tighter take it, and
  so it decides by the level of one operator only.  What carries the proof is what it knows of the operator that
  comes next: it does not bind tighter than the one just joined (`Climbed.stops`).

  Two groupings of one row have the same root, since an operator to its right would have to bind tighter than the
  other root and the other way round (`Grouping.Grouped.unique`).
-/
import StoneLang.Proofs.Grammar.Derivation

namespace StoneLang

/-! ## Groupings -/

/-- The operator `q` may stand at the root of an operand of `p`, the left one or the right one. -/
def Precedence.Fits (toLeft : Bool) (p q : Precedence) : Prop :=
  p.level < q.level ∨ q.level = p.level ∧ q.leftAssociative = toLeft

/-- Operators of one level group to one side. -/
def Operators.SharesSides (operators : Operators) : Prop :=
  ∀ a b p q, operators.find? a = some p → operators.find? b = some q → p.level = q.level →
    p.leftAssociative = q.leftAssociative

variable {t : Token} {p q : Precedence}

theorem Operators.SharesSides.of_operatorOf (h : operators.SharesSides)
    (ht : operatorOf operators t = some p) (hu : operatorOf operators u = some q) (hlevel : p.level = q.level) :
    p.leftAssociative = q.leftAssociative := by
  unfold operatorOf at ht hu
  split at ht
  · split at hu
    · exact h _ _ _ _ ht hu hlevel
    · cases hu
  · cases ht

/-- A way to group operands that are joined by operators. -/
inductive Grouping where
  | operand (node : Node)
  | join (left : Grouping) (operator : Token) (right : Grouping)

namespace Grouping

/-- The leftmost operand. -/
def first : Grouping → Node
  | operand node => node
  | join left _ _ => left.first

/-- The operators from left to right, each with the operand after it. -/
def others : Grouping → List (Token × Node)
  | operand _ => []
  | join left operator right => left.others ++ (operator, right.first) :: right.others

/-- The tree of the grouping. -/
def node : Grouping → Node
  | operand node => node
  | join left operator right => .binary left.node (.plain ⟨operator.text, operator.line⟩) right.node

def root? (operators : Operators) : Grouping → Option Precedence
  | operand _ => none
  | join _ operator _ => operatorOf operators operator

/-- Every operator binds as its precedence says. -/
inductive Grouped (operators : Operators) : Grouping → Prop where
  | operand {node : Node} : Grouped operators (operand node)
  | join {left right : Grouping} {t : Token} {p : Precedence} (operator : operatorOf operators t = some p)
      (first : Grouped operators left) (second : Grouped operators right)
      (fitsLeft : ∀ q, left.root? operators = some q → p.Fits true q)
      (fitsRight : ∀ q, right.root? operators = some q → p.Fits false q) : Grouped operators (join left t right)

variable {operators : Operators} {left right tree tree' : Grouping} {t : Token} {p : Precedence}

variable {e : Token × Node}

theorem operator_of_root? (h : tree.root? operators = some q) : ∃ u, operatorOf operators u = some q := by
  cases tree with
  | operand => cases h
  | join _ u _ => exact ⟨u, h⟩

theorem Grouped.root_le (h : tree.Grouped operators) (he : e ∈ tree.others) :
    ∃ p q, tree.root? operators = some p ∧ operatorOf operators e.1 = some q ∧ p.level ≤ q.level := by
  induction h with
  | operand => cases he
  | @join left right t p operator _ _ fitsLeft fitsRight ihleft ihright =>
    rcases List.mem_append.mp he with hl | hr
    · obtain ⟨root, q, hroot, hq, hle⟩ := ihleft hl
      have hfits : p.level ≤ root.level := by rcases fitsLeft root hroot with h | h <;> omega
      exact ⟨p, q, operator, hq, by omega⟩
    · rcases List.mem_cons.mp hr with rfl | hr
      · exact ⟨p, p, operator, operator, Int.le_refl _⟩
      · obtain ⟨root, q, hroot, hq, hle⟩ := ihright hr
        have hfits : p.level ≤ root.level := by rcases fitsRight root hroot with h | h <;> omega
        exact ⟨p, q, operator, hq, by omega⟩

theorem Grouped.fits (hshared : operators.SharesSides) (h : tree.Grouped operators)
    (hfits : ∀ q, tree.root? operators = some q → p.Fits toLeft q) (he : e ∈ tree.others) :
    ∃ q, operatorOf operators e.1 = some q ∧ p.Fits toLeft q := by
  obtain ⟨root, q, hroot, hq, hle⟩ := h.root_le he
  refine ⟨q, hq, ?_⟩
  obtain ⟨u, hu⟩ := operator_of_root? hroot
  rcases hfits root hroot with hless | ⟨hlevel, hside⟩
  · exact .inl (by omega)
  · by_cases hlevels : root.level = q.level
    · exact .inr ⟨by omega, (hshared.of_operatorOf hu hq hlevels) ▸ hside⟩
    · exact .inl (by omega)

theorem not_fits_across (hshared : operators.SharesSides)
    (ht : operatorOf operators t = some p) (hu : operatorOf operators u = some q) (hright : p.Fits false q) :
    ¬ q.Fits true p := by
  rintro (hless | ⟨hlevel, hside⟩)
  · rcases hright with h | h <;> omega
  · rcases hright with h | ⟨-, hside'⟩
    · omega
    · rw [hshared.of_operatorOf ht hu hlevel, hside'] at hside
      cases hside

theorem split_cases (h : as ++ x :: bs = as' ++ y :: bs') :
    (as = as' ∧ x = y ∧ bs = bs') ∨ (y ∈ bs ∧ x ∈ as') ∨ (x ∈ bs' ∧ y ∈ as) := by
  rcases List.append_eq_append_iff.mp h with ⟨more, rfl, hmore⟩ | ⟨more, rfl, hmore⟩
  · cases more with
    | nil => simp_all
    | cons z more =>
      obtain ⟨rfl, rfl⟩ := List.cons.inj hmore
      exact .inr (.inl (by simp))
  · cases more with
    | nil => simp_all
    | cons z more =>
      obtain ⟨rfl, rfl⟩ := List.cons.inj hmore
      exact .inr (.inr (by simp))

/-- A row has at most one grouping in which every operator binds as its precedence says. -/
theorem Grouped.unique (hshared : operators.SharesSides) (h : tree.Grouped operators) (h' : tree'.Grouped operators)
    (hfirst : tree.first = tree'.first) (hothers : tree.others = tree'.others) : tree = tree' := by
  induction h generalizing tree' with
  | operand =>
    cases h' with
    | operand => exact congrArg Grouping.operand hfirst
    | join => simp [others] at hothers
  | @join left right t p operator hleft hright fitsLeft fitsRight ihleft ihright =>
    cases h' with
    | operand => simp [others] at hothers
    | @join left' right' t' p' operator' hleft' hright' fitsLeft' fitsRight' =>
      rcases split_cases hothers with ⟨hl, hx, hr⟩ | ⟨hafter, hbefore⟩ | ⟨hafter, hbefore⟩
      · obtain ⟨rfl, hsecond⟩ := Prod.mk.inj hx
        rw [ihleft hleft' hfirst hl, ihright hright' hsecond hr]
      · -- the other root stands to the right of this one, and this one to the left of the other
        obtain ⟨q, hq, hfits⟩ := hright.fits hshared fitsRight hafter
        obtain ⟨q', hq', hfits'⟩ := hleft'.fits hshared fitsLeft' hbefore
        obtain rfl : p' = q := Option.some.inj (operator'.symm.trans hq)
        obtain rfl : p = q' := Option.some.inj (operator.symm.trans hq')
        exact absurd hfits' (not_fits_across hshared operator operator' hfits)
      · obtain ⟨q, hq, hfits⟩ := hright'.fits hshared fitsRight' hafter
        obtain ⟨q', hq', hfits'⟩ := hleft.fits hshared fitsLeft hbefore
        obtain rfl : p = q := Option.some.inj (operator.symm.trans hq)
        obtain rfl : p' = q' := Option.some.inj (operator'.symm.trans hq')
        exact absurd hfits' (not_fits_across hshared operator' operator hfits)

end Grouping

/-! ## Rows -/

namespace Stream

variable {s s' : Stream} {t : Token}

theorem peek_of_read (h : read s = .ok t s') : ∃ s₁, peek 0 s = .ok t s₁ ∧ read s₁ = .ok t s' := by
  have hread := h
  rw [read_eq] at h
  cases hfill : fill 0 s with
  | error e s₁ => rw [hfill] at h; cases h
  | ok _ s₁ =>
    rw [hfill] at h
    cases h
    have hpeek : peek 0 s = .ok (s₁.queue.head?.getD (.endOfInput s₁.line)) s₁ := by rw [peek_eq, hfill]
    exact ⟨s₁, hpeek, (read_of_peek hpeek).symm.trans hread⟩

/-- Reading takes one token off those to come; at the end of the text there is none to take. -/
theorem length_tokens_read (h : read s = .ok t s') (ht : t.kind ≠ .endOfInput) :
    s'.tokens.length < s.tokens.length := by
  obtain ⟨s₁, hpeek, hread⟩ := peek_of_read h
  have htokens := tokens_peek s
  rw [hpeek] at htokens
  change s₁.tokens = s.tokens at htokens
  obtain ⟨hready, hhead | ⟨-, -, rfl⟩⟩ := peek_eq_ok hpeek
  · rw [← htokens] at hhead
    obtain ⟨s₂, hread', hrest, -⟩ := read_of_ready hready hhead
    rw [hread] at hread'
    cases hread'
    rw [← htokens, hrest]
    exact Nat.lt_succ_self _
  · exact absurd rfl ht

end Stream

theorem kind_of_operatorOf (h : operatorOf operators t = some p) : t.kind ≠ .endOfInput := by
  intro hkind
  simp [operatorOf, hkind] at h

/-- Operators alternate with operands, as `one` reads them: `row` has every operator with the operand after it. -/
inductive Alternates {α : Type} (one : Stream → α → Stream → Prop) (operators : Operators) :
    Stream → List (Token × α) → Stream → Prop where
  | done {s : Stream} : Alternates one operators s [] s
  | look {s s₁ s₂ : Stream} {t : Token} {row : List (Token × α)} (next : Stream.peek 0 s = .ok t s₁)
      (rest : Alternates one operators s₁ row s₂) : Alternates one operators s row s₂
  | more {s s₁ s₂ s₃ : Stream} {t : Token} {p : Precedence} {item : α} {row : List (Token × α)}
      (next : Stream.read s = .ok t s₁) (operator : operatorOf operators t = some p) (second : one s₁ item s₂)
      (rest : Alternates one operators s₂ row s₃) : Alternates one operators s ((t, item) :: row) s₃

/-- The stream holds an operand and a row of operators with operands; what `s'` sees after them is no operator. -/
def IsRow {α : Type} (one : Stream → α → Stream → Prop) (operators : Operators) (s : Stream) (first : α)
    (row : List (Token × α)) (s' : Stream) : Prop :=
  ∃ s₁ t, one s first s₁ ∧ Alternates one operators s₁ row s' ∧ Stream.peek 0 s' = .ok t s' ∧
    operatorOf operators t = none

namespace Alternates

variable {α : Type} {one : Stream → α → Stream → Prop} {operators : Operators} {s s₁ s₂ : Stream} {t : Token}
  {item : α} {row row' : List (Token × α)}

theorem trans (h : Alternates one operators s row s₁) (h' : Alternates one operators s₁ row' s₂) :
    Alternates one operators s (row ++ row') s₂ := by
  induction h with
  | done => exact h'
  | look next _ ih => exact .look next (ih h')
  | more next operator second _ ih => exact .more next operator second (ih h')

theorem peek_of_nil (h : Alternates one operators s [] s₁) (hend : Stream.peek 0 s₁ = .ok t s₁) :
    Stream.peek 0 s = .ok t s₁ := by
  generalize hrow : ([] : List (Token × α)) = row at h
  induction h with
  | done => exact hend
  | more => cases hrow
  | look next _ ih =>
    have hagain := Stream.peek_again next
    rw [ih hend hrow] at hagain
    cases hagain
    exact next

theorem peek_of_cons (h : Alternates one operators s ((t, item) :: row) s₂) :
    ∃ s₁ s₃ s₄ p, Stream.peek 0 s = .ok t s₁ ∧ Stream.read s₁ = .ok t s₃ ∧ operatorOf operators t = some p ∧
      one s₃ item s₄ ∧ Alternates one operators s₄ row s₂ := by
  generalize hrow : (t, item) :: row = whole at h
  induction h with
  | done => cases hrow
  | look next _ ih =>
    obtain ⟨s₁, s₃, s₄, p, hpeek, hread, hop, hone, hrest⟩ := ih hrow
    have hagain := Stream.peek_again next
    rw [hpeek] at hagain
    cases hagain
    exact ⟨_, s₃, s₄, p, next, hread, hop, hone, hrest⟩
  | @more s s₃ s₄ _ t p item row next operator second rest =>
    cases hrow
    obtain ⟨s₁, hpeek, hread⟩ := Stream.peek_of_read next
    exact ⟨s₁, s₃, s₄, p, hpeek, hread, operator, second, rest⟩

end Alternates

/-! ## Climbing -/

/-- The computation takes no token back and keeps the bound of the loops. -/
def Parse.Advances {α : Type} (x : Parse α) : Prop :=
  ∀ r, (finalState (x r)).bound = r.bound ∧ (finalState (x r)).stream.tokens.length ≤ r.stream.tokens.length

theorem Parse.advances_onStream {α : Type} {action : EStateM Failure Stream α}
    (h : ∀ s, (finalState (action s)).tokens.length ≤ s.tokens.length) : (onStream action).Advances := by
  intro r
  have hs := h r.stream
  unfold onStream
  cases hres : action r.stream <;> rw [hres] at hs <;> exact ⟨rfl, hs⟩

theorem Parse.advances_closed : Parse.Closed @Parse.Advances where
  pure _ _ := ⟨rfl, Nat.le_refl _⟩
  throw _ _ := ⟨rfl, Nat.le_refl _⟩
  bind hx hf r :=
    finalState_bind (P := fun s => s.bound = r.bound ∧ s.stream.tokens.length ≤ r.stream.tokens.length) (hx r)
      fun a s _ h => ⟨(hf a s).1.trans h.1, Nat.le_trans (hf a s).2 h.2⟩
  peek := advances_onStream fun s => Nat.le_of_eq (congrArg List.length (Stream.tokens_peek s))
  peekAnyway r := by
    have hpeek := advances_onStream (fun s => Nat.le_of_eq (congrArg List.length (Stream.tokens_peek s))) r
    unfold peekAnyway peek
    cases hres : onStream (Stream.peek 0) r <;> rw [hres] at hpeek <;> exact hpeek
  read := advances_onStream fun s => by
    have htokens := Stream.tokens_fill 0 s
    rw [Stream.read_eq]
    cases hfill : Stream.fill 0 s with
    | error e s' => rw [hfill] at htokens; exact Nat.le_of_eq (congrArg List.length htokens)
    | ok _ s' =>
      rw [hfill] at htokens
      rw [← htokens]
      simp only [finalState, Stream.tokens, List.length_append, List.length_tail]
      omega
  freshSite _ := ⟨rfl, Nat.le_refl _⟩
  rounds _ := ⟨rfl, Nat.le_refl _⟩
  record _ _ := ⟨rfl, Nat.le_refl _⟩

/-- An operand is read from `s`, whatever sites and trace the reading has. -/
def Parse.Always (operand : Parse Node) (bound : Nat) (s : Stream) (_ : Unit) (s' : Stream) : Prop :=
  ∀ r : Reading, r.stream = s → r.bound = bound → ∃ node r', operand r = .ok node r' ∧ r'.stream = s'

/-- The operand `node` is read from `s`. -/
def Parse.Once (operand : Parse Node) (s : Stream) (node : Node) (s' : Stream) : Prop :=
  ∃ r r', r.stream = s ∧ operand r = .ok node r' ∧ r'.stream = s'

def nextOf {α : Type} (operators : Operators) (row : List (Token × α)) : Option Precedence :=
  row.head?.bind fun e => operatorOf operators e.1

/-- What climbing makes of `left` and the row before it: it takes a part of the row and leaves the rest. -/
structure Climbed (operand : Parse Node) (operators : Operators) (bound : Nat) (takes : Precedence → Bool)
    (left : Grouping) (s : Stream) (row : List (Token × Unit)) (last : Stream) (tree : Grouping) (r : Reading) :
    Prop where
  grouped : tree.Grouped operators
  first : tree.first = left.first
  bounded : r.bound = bound
  looked : ∃ t, Stream.peek 0 r.stream = .ok t r.stream
  /-- The root is the one that was there, or an operator that was taken. -/
  root : tree.root? operators = left.root? operators ∨ ∃ p, tree.root? operators = some p ∧ takes p = true
  parts : ∃ taken rest, tree.others = left.others ++ taken ∧
    row.map Prod.fst = taken.map Prod.fst ++ rest.map Prod.fst ∧
    Alternates operand.Once operators s taken r.stream ∧
    Alternates (operand.Always bound) operators r.stream rest last ∧
    -- the operator that comes next is not for this climb
    ∀ p, nextOf operators rest = some p → takes p = false

theorem operator_of_nextOf
    (h : nextOf operators row = some p) : ∃ t, operatorOf operators t = some p := by
  cases row with
  | nil => cases h
  | cons e row => exact ⟨e.1, h⟩

theorem fits_of_bindsTighter (h : bindsTighter p.level q = true) : p.Fits false q := by
  unfold bindsTighter at h
  cases hside : q.leftAssociative with
  | true => simp only [hside] at h; exact .inl (by simpa using h)
  | false =>
    simp only [hside] at h
    have hle : p.level ≤ q.level := by simpa using h
    exact (Int.lt_or_eq_of_le hle).imp_right fun heq => ⟨heq.symm, hside⟩

/-- Where the next operator `q` leaves the operand to `p`, the node of `p` fits to its left. -/
theorem fits_of_not_bindsTighter (hshared : operators.SharesSides)
    (ht : operatorOf operators t = some p) (hu : operatorOf operators u = some q) (h : bindsTighter p.level q = false) :
    q.Fits true p := by
  unfold bindsTighter at h
  cases hside : q.leftAssociative with
  | true =>
    simp only [hside] at h
    have hle : q.level ≤ p.level := by simpa using h
    exact (Int.lt_or_eq_of_le hle).imp_right fun heq =>
      ⟨heq.symm, (hshared.of_operatorOf ht hu heq.symm).trans hside⟩
  | false => simp only [hside] at h; exact .inl (by simpa using h)

section Climbing

variable {operand : Parse Node} {operators : Operators} {bound : Nat} {last : Stream} {final : Token}

theorem climb_climbed (hadvances : operand.Advances) (hshared : operators.SharesSides)
    (hlast : Stream.peek 0 last = .ok final last) (hfinal : operatorOf operators final = none) {rounds : Nat}
    {row : List (Token × Unit)} {takes : Precedence → Bool} {left : Grouping} {r : Reading}
    (hrounds : row.length < rounds) (hbound : r.bound = bound)
    (hrow : Alternates (operand.Always bound) operators r.stream row last) (hleft : left.Grouped operators)
    (hfits : ∀ p q, nextOf operators row = some p → takes p = true → left.root? operators = some q → p.Fits true q) :
    ∃ tree r', climb operand operators .binary rounds takes left.node r = .ok tree.node r' ∧
      Climbed operand operators bound takes left r.stream row last tree r' := by
  have hasks : Parse.Asks (nextOperator operators) (operatorOf operators) := rfl
  induction rounds generalizing row takes left r with
  | zero => omega
  | succ rounds ih =>
    cases row with
    | nil =>
      have hpeek := hrow.peek_of_nil hlast
      have hnext : nextOperator operators r = .ok none { r with stream := last } := by
        rw [Parse.asks_apply hasks, Parse.peek_eq_ok.mpr ⟨last, hpeek, rfl⟩, ← hfinal]
      refine ⟨left, { r with stream := last }, ?_, hleft, rfl, hbound, ⟨final, hlast⟩, .inl rfl, [], [], ?_⟩
      · unfold climb
        rw [bind_of_ok hnext]
        rfl
      · exact ⟨(List.append_nil _).symm, rfl, .look hpeek .done, .done, fun q hq => by cases hq⟩
    | cons e row =>
      obtain ⟨t, _⟩ := e
      obtain ⟨s₁, s₂, s₃, p, hpeek, hread, hop, hone, hrest⟩ := hrow.peek_of_cons
      have hnext : nextOperator operators r = .ok (some p) { r with stream := s₁ } := by
        rw [Parse.asks_apply hasks, Parse.peek_eq_ok.mpr ⟨s₁, hpeek, rfl⟩, ← hop]
      cases htakes : takes p with
      | false =>
        refine ⟨left, { r with stream := s₁ }, ?_, hleft, rfl, hbound, ⟨t, Stream.peek_again hpeek⟩, .inl rfl, [],
          (t, ()) :: row, ?_⟩
        · unfold climb
          rw [bind_of_ok hnext]
          dsimp only
          rw [htakes]
          rfl
        · refine ⟨(List.append_nil _).symm, rfl, .look hpeek .done, .more hread hop hone hrest, fun q hq => ?_⟩
          obtain rfl : p = q := Option.some.inj (hop.symm.trans hq)
          exact htakes
      | true =>
        have hread' : Parse.read { r with stream := s₁ } = .ok t { r with stream := s₂ } := by
          simp only [Parse.read, Parse.onStream, hread]
        obtain ⟨node, r₃, hoperand, hstream⟩ := hone { r with stream := s₂ } rfl hbound
        have hbound₃ : r₃.bound = bound := by
          have := (hadvances { r with stream := s₂ }).1
          rw [hoperand] at this
          exact this.trans hbound
        -- the operators that bind tighter take the operand first
        obtain ⟨right, r₄, hinner, hright⟩ := @ih row (bindsTighter p.level) (.operand node) r₃
          (Nat.lt_of_succ_lt_succ hrounds) hbound₃ (hstream ▸ hrest) .operand fun _ _ _ _ hq => by cases hq
        obtain ⟨taken, rest, hothers, hsame, hpassed, hahead, hstops⟩ := hright.parts
        have hjoined : (left.join t right).Grouped operators := by
          refine .join hop hleft hright.grouped (fun q hq => hfits p q hop htakes hq) fun q hq => ?_
          rcases hright.root with hroot | ⟨p', hp', htighter⟩
          · rw [hroot] at hq
            cases hq
          · obtain rfl : p' = q := Option.some.inj (hp'.symm.trans hq)
            exact fits_of_bindsTighter htighter
        have hbuild : Parse.build .binary [left.node, .leaf ⟨t.text, t.line⟩, right.node] r₄ =
            .ok (left.join t right).node { r₄ with nextSite := r₄.nextSite + 1 } :=
          Parse.build_eq_ok.mpr ⟨rfl, rfl⟩
        have hlength : rest.length ≤ row.length := by
          have := congrArg List.length hsame
          simp only [List.length_map, List.length_append] at this
          omega
        have hnextFits : ∀ p' q, nextOf operators rest = some p' → takes p' = true →
            (left.join t right).root? operators = some q → p'.Fits true q := by
          intro p' q hp' _ hq
          obtain rfl : p = q := Option.some.inj (hop.symm.trans hq)
          obtain ⟨u, hu⟩ := operator_of_nextOf hp'
          exact fits_of_not_bindsTighter hshared hop hu (hstops p' hp')
        obtain ⟨tree, r₅, houter, htree⟩ := @ih rest takes (left.join t right) { r₄ with nextSite := r₄.nextSite + 1 }
          (Nat.lt_of_le_of_lt hlength (Nat.lt_of_succ_lt_succ hrounds)) hright.bounded hahead hjoined hnextFits
        obtain ⟨taken', rest', hothers', hsame', hpassed', hahead', hstops'⟩ := htree.parts
        refine ⟨tree, r₅, ?_, htree.grouped, htree.first, htree.bounded, htree.looked, ?_,
          (t, node) :: (taken ++ taken'), rest', ?_, ?_, ?_, hahead', hstops'⟩
        · unfold climb
          rw [bind_of_ok hnext]
          dsimp only
          rw [htakes, if_pos rfl, bind_of_ok hread', bind_of_ok hoperand]
          refine (bind_of_ok hinner).trans ?_
          rw [bind_of_ok hbuild]
          exact houter
        · exact .inr (htree.root.elim (fun hroot => ⟨p, hroot.trans hop, htakes⟩) id)
        · rw [hothers', Grouping.others, hothers, hright.first]
          simp [Grouping.others, Grouping.first]
        · simp [hsame, hsame']
        · refine .look hpeek (.more hread hop ⟨_, r₃, rfl, hoperand, rfl⟩ ?_)
          exact hpassed.trans hpassed'

theorem Alternates.length_le (hadvances : operand.Advances)
    (h : Alternates (operand.Always bound) operators s row last) : row.length ≤ s.tokens.length := by
  induction h with
  | done => exact Nat.zero_le _
  | @look s _ _ _ _ next _ ih =>
    have htokens := Stream.tokens_peek s
    rw [next] at htokens
    exact htokens ▸ ih
  | @more s s₁ s₂ s₃ t p item row next operator second rest ih =>
    have hread := Stream.length_tokens_read next (kind_of_operatorOf operator)
    obtain ⟨node, r', hoperand, rfl⟩ := second ⟨s₁, bound, 0, #[]⟩ rfl rfl
    have hless := (hadvances ⟨s₁, bound, 0, #[]⟩).2
    rw [hoperand] at hless
    change r'.stream.tokens.length ≤ s₁.tokens.length at hless
    show row.length + 1 ≤ _
    omega

end Climbing

/-! ## Expressions -/

/-- An expression element reads a row of operands and operators to its end, and gives the one tree that keeps
their order and in which every operator binds as its precedence says. -/
theorem Grammar.expression_groups_uniquely {ι : Type} (g : Grammar ι) (settings : ParseSettings) (levels : Nat)
    (operand : ι) (operators : Operators) (hshared : operators.SharesSides) (children : List Node) (r : Reading)
    (hroom : r.stream.tokens.length < r.bound) (row : List (Token × Unit)) (last : Stream)
    (hrow : IsRow ((g.parseWithin settings levels operand).Always r.bound) operators r.stream () row last) :
    ∃ (tree : Grouping) (r' : Reading),
      g.parseElement (g.parseWithin settings levels) children (.expression operand operators .binary) r =
        .ok (children ++ [tree.node]) r' ∧
      r'.stream = last ∧
      IsRow (g.parseWithin settings levels operand).Once operators r.stream tree.first tree.others last ∧
      tree.others.map Prod.fst = row.map Prod.fst ∧
      tree.Grouped operators ∧
      ∀ other : Grouping, other.Grouped operators → other.first = tree.first → other.others = tree.others →
        other = tree := by
  have hadvances : (g.parseWithin settings levels operand).Advances :=
    Parse.advances_closed.parseWithin g (fun _ _ _ => .inr fun _ _ => ⟨rfl, Nat.le_refl _⟩) settings levels operand
  obtain ⟨s₁, final, hfirst, halternates, hlast, hfinal⟩ := hrow
  obtain ⟨node, r₁, hnode, rfl⟩ := hfirst r rfl rfl
  obtain ⟨hbound, htokens⟩ := hadvances r
  rw [hnode] at hbound htokens
  have hrounds : row.length < r.bound :=
    Nat.lt_of_le_of_lt (Nat.le_trans (halternates.length_le hadvances) htokens) hroom
  obtain ⟨tree, r₂, hclimb, htree⟩ := @climb_climbed _ _ r.bound _ _ hadvances hshared hlast hfinal r.bound row (fun _ => true)
    (.operand node) r₁ hrounds hbound halternates .operand fun _ _ _ _ hq => by cases hq
  obtain ⟨taken, rest, hothers, hsame, hpassed, hahead, hstops⟩ := htree.parts
  -- every operator is taken, so nothing is left of the row
  obtain rfl : rest = [] := by
    cases rest with
    | nil => rfl
    | cons e rest =>
      obtain ⟨t, _⟩ := e
      obtain ⟨-, -, -, p, -, -, hop, -⟩ := hahead.peek_of_cons
      cases hstops p hop
  obtain rfl : r₂.stream = last := by
    obtain ⟨t, ht⟩ := htree.looked
    rw [hahead.peek_of_nil hlast] at ht
    cases ht
    rfl
  refine ⟨tree, r₂, ?_, rfl, ⟨r₁.stream, final, ?_, ?_, hlast, hfinal⟩, ?_, htree.grouped, ?_⟩
  · have hrounds' : Parse.rounds r = .ok r.bound r := rfl
    exact (bind_of_ok hrounds').trans ((bind_of_ok hnode).trans (bind_of_ok hclimb))
  · exact ⟨r, r₁, rfl, htree.first ▸ hnode, rfl⟩
  · exact hothers ▸ hpassed
  · rw [hothers, hsame]
    exact (List.append_nil _).symm
  · intro other hother hfirst hrest
    exact hother.unique hshared htree.grouped hfirst hrest

/-! ## The language's own operators -/

/-- Assignment groups to the right and stands alone on its level; all the others group to the left. -/
theorem Language.sharesSides_operators : operators.SharesSides := by
  have hall : ∀ e ∈ operators, ∀ e' ∈ operators, e.2.level = e'.2.level →
      e.2.leftAssociative = e'.2.leftAssociative := by decide
  intro a b p q ha hb hlevel
  exact hall (a, p) (Operators.mem_of_find? ha) (b, q) (Operators.mem_of_find? hb) hlevel

namespace Numerals

/-- A grammar whose operands are numerals. -/
def grammar : Grammar Unit where
  rule _ := ⟨[], [.token .number .number], none⟩
  count := 1

/-- A stream of tokens that are scanned already. -/
def scanned (tokens : List Token) : Stream := ⟨[], none, tokens, 1⟩

def numeral (n : Nat) : Token := ⟨.number, Decimal.ofNat n, Int64.ofNat n, 1⟩

def sign (spelling : String) : Token := ⟨.identifier, text spelling, 0, 1⟩

theorem always_numeral (bound n : Nat) (rest : List Token) :
    (grammar.parseWithin ⟨1, false⟩ 1 ()).Always bound (scanned (numeral n :: rest)) () (scanned rest) := by
  intro r hr hbound
  obtain ⟨stream, bound', site, trace⟩ := r
  cases hr
  cases hbound
  exact ⟨_, _, rfl, rfl⟩

/-- `1 = 2 - 3 * 4 - 5 ;` -/
def row : List Token :=
  [numeral 1, sign "=", numeral 2, sign "-", numeral 3, sign "*", numeral 4, sign "-", numeral 5, sign ";"]

/-- The row is read up to the semicolon, and its one grouping is found. -/
theorem expression_groups_signs :
    ∃ (tree : Grouping) (r' : Reading), grammar.parseElement (grammar.parseWithin ⟨1, false⟩ 1) []
          (.expression () Language.operators .binary) ⟨scanned row, 11, 0, #[]⟩ = .ok [tree.node] r' ∧
      r'.stream = scanned [sign ";"] ∧
      tree.others.map Prod.fst = [sign "=", sign "-", sign "*", sign "-"] ∧
      tree.Grouped Language.operators := by
  have hrow : IsRow ((grammar.parseWithin ⟨1, false⟩ 1 ()).Always 11) Language.operators (scanned row) ()
      [(sign "=", ()), (sign "-", ()), (sign "*", ()), (sign "-", ())] (scanned [sign ";"]) := by
    refine ⟨_, _, always_numeral 11 1 _, ?_, rfl, by decide⟩
    refine .more rfl rfl (always_numeral 11 2 _) (.more rfl rfl (always_numeral 11 3 _) ?_)
    exact .more rfl rfl (always_numeral 11 4 _) (.more rfl rfl (always_numeral 11 5 _) .done)
  obtain ⟨tree, r', hparse, hlast, -, hothers, hgrouped, -⟩ :=
    Grammar.expression_groups_uniquely grammar ⟨1, false⟩ 1 () Language.operators Language.sharesSides_operators []
      ⟨scanned row, 11, 0, #[]⟩ (by decide) _ _ hrow
  exact ⟨tree, r', hparse, hlast, hothers, hgrouped⟩

end Numerals

end StoneLang
