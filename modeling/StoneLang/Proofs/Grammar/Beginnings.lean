/-
  What the beginning of a text settles.

  The parser looks one token ahead, so what it does with the beginning of a text it does with every longer
  text: it reads the same nodes and fails in the same way, unless it comes to the end of the beginning
  (`Parse.Follows`).  If the text has nothing more, then a parse that comes to its end fails because it is
  incomplete, or it has ended where it may (`Parse.Starves`).

  A rule is entered only when the next token is in the queue (`Language.steady`): after the end of a line the
  parser always looks ahead before it enters a rule.  So nothing depends on whether a parse is watched, and no
  rule is entered at the end of the text.
-/
import StoneLang.Proofs.Grammar.Derivation
import StoneLang.Proofs.Token.Beginnings

namespace StoneLang

/-- The first reading is at the same place as the second, in a text of which it lacks the lines `extra`. -/
structure Reading.Begins (reason : Text) (extra : List Text) (r r' : Reading) : Prop where
  stream : Stream.Begins reason extra r.stream r'.stream
  site : r'.nextSite = r.nextSite
  bound : r.bound ≤ r'.bound

namespace Parse

/-! ## Two runs -/

/-- How a run on the beginning of a text and one on the longer text end; `whole` holds if the beginning has been
scanned to its end. -/
inductive Ran {α : Type} (reason : Text) (extra : List Text) (whole : Prop) (post : α → Reading → Prop)
    (ended : α → Prop) :
    EStateM.Result Failure Reading α → EStateM.Result Failure Reading α → Prop where
  | both {a : α} {s s' : Reading} (begins : s.Begins reason extra s') (holds : post a s) :
      Ran reason extra whole post ended (.ok a s) (.ok a s')
  | fault {cause : Cause} {line : Int} {s s' : Reading} (settled : cause.isSettled = true) :
      Ran reason extra whole post ended (.error (.atLine cause line) s) (.error (.atLine cause line) s')
  | cut {s : Reading} {result : EStateM.Result Failure Reading α} :
      Ran reason extra whole post ended (.error .unfinished s) result
  | starved {e : Failure} {s s' : Reading} (scanned : whole) (incomplete : extra = [] → e.isIncomplete = true ∨ e = .unfinished) :
      Ran reason extra whole post ended (.error (.plain reason) s) (.error e s')
  | stopped {a : α} {s s' : Reading} (scanned : whole) (exhausted : extra = [] → ended a ∧ s'.stream.Exhausted) :
      Ran reason extra whole post ended (.error (.plain reason) s) (.ok a s')

variable {α β : Type}

/-- From a place of which `pre` holds, the first action does at the beginning of a text what the second does in
the longer text. -/
def Follows (reason : Text) (extra : List Text) (x y : Parse α) (pre : Stream → Prop) (post : α → Stream → Prop)
    (ended : α → Prop) : Prop :=
  ∀ r r' : Reading, r.Begins reason extra r' → pre r.stream →
    Ran reason extra r.stream.Scannable (fun a s => post a s.stream ∧ (s.stream.Scannable → r.stream.Scannable)) ended
      (x r) (y r')

/-- At the end of the text the action fails because it is incomplete, or it has ended. -/
def Starves (y : Parse α) (ended : α → Prop) : Prop :=
  ∀ r : Reading, r.stream.Exhausted →
    match y r with
    | .ok a s => ended a ∧ s.stream.Exhausted
    | .error e _ => e.isIncomplete = true ∨ e = .unfinished

variable {reason : Text} {extra : List Text} {pre : Stream → Prop} {ended : α → Prop}

variable {a : α} {x y : Parse α} {f : α → Parse β} {ended' : β → Prop} {post : α → Stream → Prop} {answer : Token → α}

theorem Starves.pure (h : ended a) : Starves (Pure.pure a) ended := fun _ hr => ⟨h, hr⟩

theorem Starves.bind (hx : Starves x ended) (hf : ∀ a, ended a → Starves (f a) ended') : Starves (x >>= f) ended' := by
  intro r hr
  have hfirst := hx r hr
  rw [bind_apply]
  generalize x r = res at hfirst ⊢
  cases res with
  | ok a s => exact hf a hfirst.1 s hfirst.2
  | error e s => exact hfirst

variable {g : α → Parse β} {mid : α → Stream → Prop} {s : Stream} {t : Token}

theorem Ran.imp {post post' : α → Reading → Prop} {ended' : α → Prop} (h : Ran reason extra whole post ended left right)
    (hwhole : whole → whole') (hpost : ∀ a s, post a s → post' a s) (hended : ∀ a, ended a → ended' a) :
    Ran reason extra whole' post' ended' left right := by
  cases h with
  | both begins holds => exact .both begins (hpost _ _ holds)
  | fault settled => exact .fault settled
  | cut => exact .cut
  | starved scanned incomplete => exact .starved (hwhole scanned) incomplete
  | stopped scanned exhausted =>
    exact .stopped (hwhole scanned) fun hextra => ⟨hended _ (exhausted hextra).1, (exhausted hextra).2⟩

theorem Starves.weaken {ended' : α → Prop} (h : Starves y ended) (hended : ∀ a, ended a → ended' a) :
    Starves y ended' := by
  intro r hr
  have hres := h r hr
  generalize y r = result at hres
  cases result with
  | ok a s => exact ⟨hended a hres.1, hres.2⟩
  | error e s => exact hres

theorem Follows.pure (h : ∀ s, pre s → post a s) : Follows reason extra (Pure.pure a) (Pure.pure a) pre post ended :=
  fun r _ hbegins hpre => .both hbegins ⟨h r.stream hpre, id⟩

theorem Follows.throw (h : cause.isSettled = true) :
    Follows reason extra (MonadExcept.throw (.atLine cause line)) (MonadExcept.throw (.atLine cause line)) pre post
      ended :=
  fun _ _ _ _ => .fault h

theorem Follows.bind {post : β → Stream → Prop} (hx : Follows reason extra x y pre mid ended)
    (hf : ∀ a, Follows reason extra (f a) (g a) (mid a) post ended') (hg : ∀ a, ended a → Starves (g a) ended') :
    Follows reason extra (x >>= f) (y >>= g) pre post ended' := by
  intro r r' hbegins hpre
  have hfirst := hx r r' hbegins hpre
  rw [bind_apply, bind_apply]
  generalize x r = left at hfirst
  generalize y r' = right at hfirst
  cases hfirst with
  | @both a s s' begins holds =>
    exact (hf a s s' begins holds.1).imp holds.2 (fun _ _ h => ⟨h.1, fun hscan => holds.2 (h.2 hscan)⟩) fun _ => id
  | fault settled => exact .fault settled
  | cut => exact .cut
  | starved scanned incomplete => exact .starved scanned incomplete
  | @stopped a s s' scanned exhausted =>
    dsimp only
    cases hres : g a s' with
    | ok b t =>
      refine .stopped scanned fun hextra => ?_
      have hends := hg a (exhausted hextra).1 s' (exhausted hextra).2
      rw [hres] at hends
      exact hends
    | error e t =>
      refine .starved scanned fun hextra => ?_
      have hends := hg a (exhausted hextra).1 s' (exhausted hextra).2
      rw [hres] at hends
      exact hends

theorem Follows.weaken {pre' : Stream → Prop} {post' : α → Stream → Prop} {ended' : α → Prop}
    (h : Follows reason extra x y pre post ended) (hpre : ∀ s, pre' s → pre s) (hpost : ∀ a s, post a s → post' a s)
    (hended : ∀ a, ended a → ended' a) : Follows reason extra x y pre' post' ended' :=
  fun r r' hbegins hr => (h r r' hbegins (hpre _ hr)).imp id (fun _ _ holds => ⟨hpost _ _ holds.1, holds.2⟩) hended

/-! ## Tokens -/

/-- The token is the next one at a place; at the end of the text it is an end of input. -/
def Fronts (place : Bool → Stream → Prop) (t : Token) (s : Stream) : Prop :=
  place true s ∧ s.queue.head?.getD (.endOfInput s.line) = t

/-- The next token has been looked at, and `a` is the answer for it. -/
def Answers (place : Bool → Stream → Prop) (answer : Token → α) (a : α) (s : Stream) : Prop :=
  ∃ t, Fronts place t s ∧ a = answer t

theorem Answers.place {place : Bool → Stream → Prop} (h : Answers place answer a s) : place true s := by
  obtain ⟨t, hfronts, -⟩ := h
  exact hfronts.1

theorem Fronts.head? (h : Fronts Stream.Stands t s) : s.queue.head? = some t := by
  obtain ⟨⟨-, hne⟩, hfront⟩ := h
  cases hqueue : s.queue with
  | nil => exact absurd hqueue (hne rfl)
  | cons first rest =>
    rw [hqueue] at hfront
    exact congrArg some hfront

theorem starves_peek : Starves peek fun t => ∃ line, t = .endOfInput line := by
  intro r hr
  have hpeek : peek r = .ok (.endOfInput r.stream.line) r := peek_eq_ok.mpr ⟨r.stream, hr.peek, rfl⟩
  rw [hpeek]
  exact ⟨⟨_, rfl⟩, hr⟩

theorem follows_peek (poised : Bool) :
    Follows reason extra peek peek (Stream.Stands poised) (Fronts Stream.Stands)
      fun t => poised = false ∧ ∃ line, t = .endOfInput line := by
  intro r r' hbegins hr
  have hfilled := Stream.filled_fill hbegins.stream hr
  unfold peek onStream
  rw [Stream.peek_eq, Stream.peek_eq]
  generalize Stream.fill 0 r.stream = left at hfilled
  generalize hright : Stream.fill 0 r'.stream = right at hfilled
  cases hfilled with
  | @next s s' begins stands reflects =>
    dsimp only
    rw [begins.queue, begins.line]
    exact .both ⟨begins, hbegins.site, hbegins.bound⟩ ⟨⟨stands, rfl⟩, reflects⟩
  | fault settled => exact .fault settled
  | @starved s _ loose reflects spent ended =>
    have hscanned : r.stream.Scannable := reflects (by rw [Stream.Scannable, spent]; trivial)
    cases right with
    | ok _ s' =>
      refine .stopped hscanned fun hextra => ?_
      obtain ⟨s₁, hok, hexhausted⟩ := ended hextra
      cases hok
      refine ⟨⟨loose, s'.line, ?_⟩, hexhausted⟩
      rw [hexhausted.queue]
      rfl
    | error e s' =>
      refine .starved hscanned fun hextra => ?_
      obtain ⟨s₁, hok, -⟩ := ended hextra
      cases hok

theorem starves_asks (h : Asks x answer) : Starves x fun a => ∃ line, a = answer (.endOfInput line) := by
  rw [h]
  refine starves_peek.bind fun t ht => ?_
  obtain ⟨line, rfl⟩ := ht
  exact .pure ⟨line, rfl⟩

/-- Reading takes the token that was seen; the next one is in the queue, unless the line has ended. -/
theorem follows_read (t : Token) :
    Follows reason extra read read (Fronts Stream.Stands t) (fun t' s => t' = t ∧ s.Stands (!t.isEndOfLine))
      fun _ => False := by
  intro r r' hbegins hr
  have hhead := hr.head?
  obtain ⟨⟨htidy, hne⟩, -⟩ := hr
  obtain ⟨first, rest, hqueue⟩ : ∃ first rest, r.stream.queue = first :: rest := by
    cases hqueue : r.stream.queue with
    | nil => exact absurd hqueue (hne rfl)
    | cons first rest => exact ⟨first, rest, rfl⟩
  rw [hqueue, List.head?_cons, Option.some.injEq] at hhead
  subst hhead
  have hread : ∀ s : Stream, s.queue = first :: rest → Stream.read s = .ok first { s with queue := rest } := by
    intro s hs
    have hready : s.Ready := .inl (by rw [hs]; exact List.cons_ne_nil _ _)
    rw [Stream.read_eq, Stream.fill_of_ready hready]
    dsimp only
    rw [hs]
    rfl
  unfold read onStream
  rw [hread _ hqueue, hread _ (hbegins.stream.queue.trans hqueue)]
  refine .both ⟨⟨hbegins.stream.opens, hbegins.stream.ends, rfl, hbegins.stream.line, hbegins.stream.pending⟩,
    hbegins.site, hbegins.bound⟩ ⟨⟨rfl, ⟨?_, ?_⟩, ?_⟩, id⟩
  · intro t ht
    refine htidy.ends t ?_
    rw [hqueue, List.getLast?_cons, show rest.getLast? = some t from ht]
    rfl
  · intro t ht
    exact htidy.inside t (by rw [hqueue]; exact List.mem_cons_of_mem _ ht)
  · intro hline hnil
    change rest = [] at hnil
    have hlast := htidy.ends first (by rw [hqueue, hnil]; rfl)
    rw [hlast] at hline
    cases hline

theorem follows_freshSite : Follows reason extra freshSite freshSite pre (fun _ => pre) fun _ => False := by
  intro r r' hbegins hr
  show Ran _ _ _ _ _ (.ok r.nextSite _) (.ok r'.nextSite _)
  rw [hbegins.site]
  exact .both ⟨hbegins.stream, rfl, hbegins.bound⟩ ⟨hr, id⟩

theorem follows_mismatch (expected : Text) :
    Follows reason extra (mismatch expected) (mismatch expected) (Stream.Stands true) post ended := by
  refine (follows_peek true).bind (fun t => ?_) fun t ht => absurd ht.1 (by simp)
  intro r r' hbegins hr
  have hinside : t.isEndOfInput = false := hr.1.1.inside t (List.mem_of_mem_head? hr.head?)
  have hsettled : (Cause.unexpected expected t.describe t.isEndOfInput).isSettled = true := by
    rw [hinside]
    rfl
  exact Follows.throw hsettled r r' hbegins hr

theorem starves_mismatch (expected : Text) : Starves (mismatch expected : Parse α) ended := by
  refine starves_peek.bind fun t ht => ?_
  obtain ⟨line, rfl⟩ := ht
  exact fun r hr => .inl rfl

theorem starves_repeatWhile {fits : Parse Bool} {parse : Parse Node} {starts : Token → Bool} (hfits : Asks fits starts)
    (hends : ∀ line, starts (.endOfInput line) = false) (bound : Nat) (before : List Node) {ended : Prop} (h : ended) :
    Starves (repeatWhile fits parse bound before) fun _ => ended := by
  cases bound with
  | zero => exact fun r hr => .inr rfl
  | succ bound =>
    refine (starves_asks hfits).bind fun fit hfit => ?_
    obtain ⟨line, rfl⟩ := hfit
    rw [hends line]
    exact .pure h

/-! ## Going abreast -/

theorem inline_of_operator (hline : operators.find? Token.endOfLineText = none)
    (h : operatorOf operators t = some precedence) :
    t.kind ≠ .endOfInput ∧ t.isEndOfLine = false := by
  unfold operatorOf at h
  split at h
  · rename_i hkind
    refine ⟨by simp [hkind], ?_⟩
    cases hend : t.isEndOfLine with
    | false => rfl
    | true =>
      simp only [Token.isEndOfLine, Bool.and_eq_true, beq_iff_eq] at hend
      rw [hend.2, hline] at h
      cases h
  · cases h

/-- A relation between two parsers that holds of their steps from place to place; `ended` says with what the second may
be over where the first breaks off, and `within` how their bounds compare.  A rule is entered where `place true` holds. -/
structure Abreast (within : Nat → Nat → Prop) (place : Bool → Stream → Prop)
    (R : {α : Type} → Parse α → Parse α → (Stream → Prop) → (α → Stream → Prop) → (α → Prop) → Prop) : Prop where
  loosen : ∀ {b b' : Bool} {s : Stream}, (b' = true → b = true) → place b s → place b' s
  pure : ∀ {α : Type} {a : α} {pre : Stream → Prop} {post : α → Stream → Prop} {ended : α → Prop},
    (∀ s, pre s → post a s) → R (Pure.pure a) (Pure.pure a) pre post ended
  throw : ∀ {α : Type} {cause : Cause} {line : Int} {pre : Stream → Prop} {post : α → Stream → Prop} {ended : α → Prop},
    cause.isSettled = true →
      R (MonadExcept.throw (.atLine cause line)) (MonadExcept.throw (.atLine cause line)) pre post ended
  bind : ∀ {α β : Type} {x y : Parse α} {f g : α → Parse β} {pre : Stream → Prop} {mid : α → Stream → Prop}
    {post : β → Stream → Prop} {ended : α → Prop} {ended' : β → Prop}, R x y pre mid ended →
      (∀ a, R (f a) (g a) (mid a) post ended') → (∀ a, ended a → Starves (g a) ended') →
      R (x >>= f) (y >>= g) pre post ended'
  weaken : ∀ {α : Type} {x y : Parse α} {pre pre' : Stream → Prop} {post post' : α → Stream → Prop}
    {ended ended' : α → Prop}, R x y pre post ended → (∀ s, pre' s → pre s) → (∀ a s, post a s → post' a s) →
      (∀ a, ended a → ended' a) → R x y pre' post' ended'
  answered : ∀ {α β : Type} {answer : Token → β} {b : β} {x y : Parse α} {post : α → Stream → Prop} {ended : α → Prop},
    (∀ t, b = answer t → R x y (Fronts place t) post ended) → R x y (Answers place answer b) post ended
  peek : ∀ poised, R peek peek (place poised) (Fronts place) fun t => poised = false ∧ ∃ line, t = .endOfInput line
  read : ∀ t, R read read (Fronts place t) (fun t' s => t' = t ∧ place (!t.isEndOfLine) s) fun _ => False
  freshSite : ∀ {pre : Stream → Prop}, R freshSite freshSite pre (fun _ => pre) fun _ => False
  mismatch : ∀ {α : Type} (expected : Text) {post : α → Stream → Prop} {ended : α → Prop},
    R (mismatch expected) (mismatch expected) (place true) post ended
  noteEntry : ∀ (settings settings' : ParseSettings) (title : Text) (depth depth' : Nat),
    R (Grammar.noteEntry settings title depth) (Grammar.noteEntry settings' title depth') (place true)
      (fun _ => place true) fun _ => False
  rounds : ∀ {α : Type} {f g : Nat → Parse α} {pre : Stream → Prop} {post : α → Stream → Prop} {ended : α → Prop},
    (∀ n n', within n n' → R (f n) (g n') pre post ended) → R (rounds >>= f) (rounds >>= g) pre post ended
  later : ∀ {n n' : Nat}, within (n + 1) n' → ∃ m, n' = m + 1 ∧ within n m
  spent : ∀ {α : Type} {n : Nat} {y : Nat → Parse α} {pre : Stream → Prop} {post : α → Stream → Prop} {ended : α → Prop},
    within 0 n → y 0 = MonadExcept.throw .unfinished → R (MonadExcept.throw .unfinished) (y n) pre post ended

namespace Abreast

variable {within : Nat → Nat → Prop} {place : Bool → Stream → Prop}
  {R : {α : Type} → Parse α → Parse α → (Stream → Prop) → (α → Stream → Prop) → (α → Prop) → Prop}
  (S : Abreast within place R) {g : α → Parse β} {bound bound' : Nat}

include S

theorem andThen {mid : α → Stream → Prop} {post : β → Stream → Prop} (hx : R x y pre mid fun _ => False)
    (hf : ∀ a, R (f a) (g a) (mid a) post ended') : R (x >>= f) (y >>= g) pre post ended' :=
  S.bind hx hf fun _ => False.elim

theorem asks (h : Asks x answer) (poised : Bool) :
    R x x (place poised) (Answers place answer) fun a => poised = false ∧ ∃ line, a = answer (.endOfInput line) := by
  rw [h]
  refine S.bind (S.peek poised) (fun t => S.pure fun s hs => ⟨t, hs, rfl⟩) fun t ht => ?_
  obtain ⟨hloose, line, rfl⟩ := ht
  exact .pure ⟨hloose, line, rfl⟩

theorem build (shape : Shape) (children : List Node) :
    R (build shape children) (build shape children) pre (fun _ => pre) fun _ => False := by
  refine S.andThen S.freshSite fun site => ?_
  cases hbuilt : shape.build site children with
  | ok node => exact S.pure fun _ hs => hs
  | error d => exact S.throw (Shape.faults_build site shape children d hbuilt)

/-- A repetition stays within a line if it starts there and its rule does, and it ends nowhere else then. -/
theorem repeatWhile {fits : Parse Bool} {parse parse' : Parse Node} {starts : Token → Bool}
    (hfits : Asks fits starts) (hends : ∀ line, starts (.endOfInput line) = false) {keeps tail : Bool}
    (hparse : R parse parse' (place true) (fun _ => place keeps) fun _ => tail = true)
    (htail : tail = true → keeps = false) (hbound : within bound bound') (poised : Bool) (before : List Node) :
    R (repeatWhile fits parse bound before) (repeatWhile fits parse' bound' before) (place poised)
      (fun _ => place (poised && keeps)) fun _ => (poised && keeps) = false := by
  induction bound generalizing bound' poised before with
  | zero => exact S.spent (y := fun n => StoneLang.repeatWhile fits parse' n before) hbound rfl
  | succ bound ih =>
    obtain ⟨bound', rfl, hless⟩ := S.later hbound
    unfold StoneLang.repeatWhile
    refine S.bind (S.asks hfits poised) (fun fit => ?_) fun fit hfit => ?_
    · cases fit with
      | false => exact S.pure fun s hs => S.loosen (fun _ => rfl) hs.place
      | true =>
        have hround : R parse parse' (Answers place starts true) (fun _ => place (poised && keeps)) fun _ => tail = true :=
          S.weaken hparse (fun s hs => hs.place) (fun _ s hs => S.loosen (fun h => (Bool.and_eq_true_iff.mp h).2) hs)
            fun _ h => h
        refine S.bind hround (fun node => ?_) fun node hnode => ?_
        · have hloop := ih hless (poised && keeps) (if isBlankGroup node then before else node :: before)
          rwa [Bool.and_assoc, Bool.and_self] at hloop
        · exact starves_repeatWhile hfits hends _ _ (by rw [htail hnode, Bool.and_false])
    · obtain ⟨hloose, line, rfl⟩ := hfit
      rw [hends line]
      exact .pure (by rw [hloose, Bool.false_and])

theorem climb (shape : Shape)
    (hline : operators.find? Token.endOfLineText = none)
    (hoperand : R operand operand' (place true) (fun _ => place true) fun _ => False) (hbound : within bound bound')
    (takes : Precedence → Bool) (left : Node) :
    R (climb operand operators shape bound takes left) (climb operand' operators shape bound' takes left) (place true)
      (fun _ => place true) fun _ => False := by
  have hasks : Asks (nextOperator operators) (operatorOf operators) := rfl
  induction bound generalizing bound' takes left with
  | zero => exact S.spent (y := fun n => StoneLang.climb operand' operators shape n takes left) hbound rfl
  | succ bound ih =>
    obtain ⟨bound', rfl, hless⟩ := S.later hbound
    unfold StoneLang.climb
    refine S.bind (S.asks hasks true) (fun next => ?_) fun next hnext => absurd hnext.1 (by simp)
    cases next with
    | none => exact S.pure fun s hs => hs.place
    | some precedence =>
      dsimp only
      split
      · refine S.answered fun t hoperator => ?_
        refine S.andThen (S.read t) fun token => ?_
        rw [(inline_of_operator hline hoperator.symm).2]
        have hsteps := S.andThen hoperand fun right => S.andThen (ih hless (bindsTighter precedence.level) right) fun right' =>
          S.andThen (S.build shape [left, .leaf ⟨token.text, token.line⟩, right']) fun joined => ih hless takes joined
        exact S.weaken hsteps (fun s hs => hs.2) (fun _ _ => id) fun _ => id
      · exact S.pure fun s hs => hs.place

end Abreast

end Parse

/-! ## Where rules are entered -/

namespace Language

open Parse

/-- A phrase after which a line may have ended, and the text with it. -/
def Phrase.isTail : Phrase → Bool
  | .statementTail | .memberTail => true
  | _ => false

def Phrase.staysInLine (p : Phrase) : Bool := !p.isTail && p != .program

/-- The element enters a rule without looking ahead, or on every token. -/
def entersAtOnce : Element Phrase → Bool
  | .phrase _ | .choice _ | .expression .. => true
  | _ => false

def isOptional : Element Phrase → Bool
  | .optional _ | .repeated _ => true
  | _ => false

/-- After the element the next token is in the queue, `poised` telling it for the place before. -/
def staysAfter (poised : Bool) : Element Phrase → Bool
  | .phrase _ | .choice _ | .expression .. | .token .. => true
  | .optional q | .repeated q => poised && q.staysInLine
  | .spelling spellings _ => !spellings.contains Token.endOfLineText

def mayEndWith (poised : Bool) (element : Element Phrase) : Bool := isOptional element && !staysAfter poised element

/-- The element enters phrases that end within a line; only a repetition may enter others. -/
def staysWithin : Element Phrase → Bool
  | .phrase q | .optional q => q.staysInLine
  | .choice rules => rules.all Phrase.staysInLine
  | .repeated q => q != .program
  | .expression q table _ => q.staysInLine && (table.find? Token.endOfLineText).isNone
  | .token .. | .spelling .. => true

/-- Rules are entered within a line only, and nothing is entered after what may be over at the end. -/
def steady : Bool → List (Element Phrase) → Bool
  | _, [] => true
  | poised, element :: rest =>
    (poised || !entersAtOnce element) && staysWithin element &&
      (!mayEndWith poised element || rest.all fun other => !entersAtOnce other) && steady (staysAfter poised element) rest

def mayBeOver : Bool → List (Element Phrase) → Bool
  | _, [] => false
  | poised, element :: rest =>
    mayEndWith poised element && rest.all isOptional || mayBeOver (staysAfter poised element) rest

variable {poised : Bool} {elements : List (Element Phrase)}

theorem steady_within (h : steady poised elements = true) : ∀ element ∈ elements, staysWithin element = true := by
  induction elements generalizing poised with
  | nil => simp
  | cons element rest ih =>
    simp only [steady, Bool.and_eq_true] at h
    exact List.forall_mem_cons.mpr ⟨h.1.1.2, ih h.2⟩

/-- What the table of rules is checked for: rows are steady; only tails leave the line or can be over at the
end of the text, and they have no shape. -/
def steadyRule (l : Layers) (p : Phrase) : Bool :=
  let rule := (grammar l).rule p
  steady true rule.elements && (!p.staysInLine || rule.elements.foldl staysAfter true) &&
    (!mayBeOver true rule.elements || p.isTail && rule.shape.isNone)

theorem steadyRule_eq_true : ∀ l p, steadyRule l p = true := checked (by decide)

theorem starts_endRule : ∀ l p, (p.isBlank || p == .program || !(grammar l).starts p (.endOfInput 0)) = true :=
  checked (by decide)

theorem starts_endOfInput (l : Layers) (hblank : p.isBlank = false) (hprogram : (p != .program) = true)
    (line : Int) : (grammar l).starts p (.endOfInput line) = false := by
  have htable := starts_endRule l p
  rw [← starts_lead]
  show (grammar l).starts p (.endOfInput 0) = false
  simpa [hblank, bne_iff_ne.mp hprogram] using htable

variable {l : Layers} {reason : Text} {extra : List Text} {recur recur' : Phrase → Parse Node}

/-! ## Elements and rules at the end of the text -/

theorem starves_parseElement {element : Element Phrase} (hregular : Regular element)
    (hwithin : staysWithin element = true) (henters : entersAtOnce element = false) (children : List Node) :
    Starves ((grammar l).parseElement recur children element) fun _ => isOptional element = true := by
  cases element with
  | phrase q => cases henters
  | choice rules => cases henters
  | expression q table shape => cases henters
  | repeated q =>
    have hloop : ∀ bound, Starves (do
        let nodes ← repeatWhile ((grammar l).fits q) (recur q) bound []
        return children ++ nodes) fun _ => isOptional (.repeated q) = true := fun bound =>
      (starves_repeatWhile (asks_fits l hregular.repeated) (starts_endOfInput l hregular.repeated hwithin) bound [] trivial).bind
        fun nodes _ => .pure rfl
    exact fun r hr => hloop r.bound r hr
  | optional q =>
    simp only [staysWithin, Phrase.staysInLine, Bool.and_eq_true] at hwithin
    refine (starves_asks (asks_fits l hregular.optional)).bind fun fit hfit => ?_
    obtain ⟨line, rfl⟩ := hfit
    rw [starts_endOfInput l hregular.optional hwithin.2]
    exact .pure rfl
  | token accepted maker =>
    refine starves_peek.bind fun t ht => ?_
    obtain ⟨line, rfl⟩ := ht
    split
    · rename_i haccepts
      exact absurd rfl (kind_of_accepts haccepts)
    · exact starves_mismatch _
  | spelling spellings keep =>
    refine starves_peek.bind fun t ht => ?_
    obtain ⟨line, rfl⟩ := ht
    exact starves_mismatch _

theorem starves_parseElements (hregular : ∀ element ∈ elements, Regular element)
    (hwithin : ∀ element ∈ elements, staysWithin element = true)
    (henters : ∀ element ∈ elements, entersAtOnce element = false) (children : List Node) :
    Starves ((grammar l).parseElements recur elements children) fun _ => elements.all isOptional = true := by
  induction elements generalizing children with
  | nil => exact .pure rfl
  | cons element rest ih =>
    refine (starves_parseElement (hregular element List.mem_cons_self) (hwithin element List.mem_cons_self)
      (henters element List.mem_cons_self) children).bind fun children hfirst => ?_
    rw [List.all_cons, hfirst, Bool.true_and]
    exact ih (List.forall_mem_cons.mp hregular).2 (List.forall_mem_cons.mp hwithin).2
      (List.forall_mem_cons.mp henters).2 children

/-! ## Elements and rules -/

variable {t : Token} {r : Reading} {settings settings' : ParseSettings}

theorem isEndOfLine_of_accepts {accepted : TokenClass} (h : accepted.accepts t = true) : t.isEndOfLine = false := by
  cases accepted with
  | number => simp [Token.isEndOfLine, beq_iff_eq.mp h]
  | string => simp [Token.isEndOfLine, beq_iff_eq.mp h]
  | identifier words =>
    simp only [TokenClass.accepts, Bool.and_eq_true, Bool.not_eq_true'] at h
    exact h.1.2

theorem isEndOfLine_of_spelled (h : isSpelled spellings t = true)
    (hstays : staysAfter poised (.spelling spellings keep) = true) : t.isEndOfLine = false := by
  have hmem := (isSpelled_iff.mp h).2
  cases hword : t.isEndOfLine with
  | false => rfl
  | true =>
    simp only [Token.isEndOfLine, Bool.and_eq_true, beq_iff_eq] at hword
    rw [hword.2] at hmem
    simp [staysAfter, hmem] at hstays

section

variable {within : Nat → Nat → Prop} {place : Bool → Stream → Prop}
  {R : {α : Type} → Parse α → Parse α → (Stream → Prop) → (α → Stream → Prop) → (α → Prop) → Prop}

/-- What entering a phrase does in the one parser and in the other. -/
def Enters (place : Bool → Stream → Prop)
    (R : {α : Type} → Parse α → Parse α → (Stream → Prop) → (α → Stream → Prop) → (α → Prop) → Prop)
    (recur recur' : Phrase → Parse Node) (q : Phrase) : Prop :=
  R (recur q) (recur' q) (place true) (fun _ => place q.staysInLine) fun _ => q.isTail = true

variable (S : Abreast within place R)

include S

theorem Enters.stays (h : Enters place R recur recur' q) (hq : q.staysInLine = true) :
    R (recur q) (recur' q) (place true) (fun _ => place true) fun _ => False := by
  refine S.weaken h (fun _ => id) (fun _ s hs => ?_) fun _ htail => ?_
  · rwa [hq] at hs
  · simp only [Phrase.staysInLine, htail, Bool.not_true, Bool.false_and] at hq
    cases hq

theorem Enters.stays_bind (h : Enters place R recur recur' q) (hq : q.staysInLine = true)
    (f : Node → List Node) :
    R (do let node ← recur q; return f node) (do let node ← recur' q; return f node) (place true) (fun _ => place true)
      ended :=
  S.andThen (Enters.stays S h hq) fun _ => S.pure fun _ hs => hs

theorem abreast_parseElement (hrecur : ∀ q, Enters place R recur recur' q)
    (hregular : Regular element) (hpoised : poised = true ∨ entersAtOnce element = false)
    (hwithin : staysWithin element = true) (children : List Node) :
    R ((grammar l).parseElement recur children element) ((grammar l).parseElement recur' children element)
      (place poised) (fun _ => place (staysAfter poised element)) fun _ => mayEndWith poised element = true := by
  cases element with
  | phrase q =>
    obtain rfl : poised = true := hpoised.resolve_right (by simp [entersAtOnce])
    exact Enters.stays_bind S (hrecur q) hwithin _
  | choice rules =>
    obtain rfl : poised = true := hpoised.resolve_right (by simp [entersAtOnce])
    refine S.bind (S.asks (asks_choice hregular) true) (fun chosen => ?_) fun chosen h => absurd h.1 (by simp)
    cases chosen with
    | none => exact S.weaken (S.mismatch _) (fun s hs => hs.place) (fun _ _ => id) fun _ => id
    | some q =>
      refine S.answered fun t hfound => ?_
      have hq := List.all_eq_true.mp hwithin q (List.mem_of_find?_eq_some hfound.symm)
      exact S.weaken (Enters.stays_bind S (hrecur q) hq _) (fun s hs => hs.1) (fun _ _ => id) fun _ => id
  | repeated q =>
    have htail : q.isTail = true → q.staysInLine = false := fun h => by simp [Phrase.staysInLine, h]
    refine S.rounds fun n n' hle => ?_
    refine S.bind (S.repeatWhile (asks_fits l hregular.repeated) (starts_endOfInput l hregular.repeated hwithin) (hrecur q) htail hle poised [])
      (fun nodes => S.pure fun _ hs => hs) fun nodes hover => .pure ?_
    simp [mayEndWith, isOptional, staysAfter, hover]
  | optional q =>
    have hprogram := hwithin
    simp only [staysWithin, Phrase.staysInLine, Bool.and_eq_true] at hprogram
    refine S.bind (S.asks (asks_fits l hregular.optional) poised) (fun fit => ?_) fun fit hfit => ?_
    · cases fit with
      | false => exact S.pure fun s hs => S.loosen (fun _ => rfl) hs.place
      | true =>
        exact S.weaken (Enters.stays_bind S (hrecur q) hwithin _) (fun s hs => hs.place)
          (fun _ _ hs => S.loosen (fun _ => rfl) hs) fun _ => id
    · obtain ⟨hloose, line, rfl⟩ := hfit
      rw [starts_endOfInput l hregular.optional hprogram.2]
      exact .pure (by simp [mayEndWith, isOptional, staysAfter, hloose])
  | token accepted maker =>
    refine S.bind (S.peek poised) (fun t => ?_) fun t ht => ?_
    · split
      · rename_i haccepts
        have hword : t.isEndOfLine = false := isEndOfLine_of_accepts haccepts
        refine S.andThen (S.read t) fun _ => S.andThen S.freshSite fun site => ?_
        rw [hword]
        cases maker with
        | refuse cause => cases hregular.makes
        | _ => exact S.pure fun s hs => hs.2
      · exact S.weaken (S.mismatch _) (fun s hs => hs.1) (fun _ _ => id) fun _ => id
    · obtain ⟨-, line, rfl⟩ := ht
      split
      · rename_i haccepts
        exact absurd rfl (kind_of_accepts haccepts)
      · exact starves_mismatch _
  | spelling spellings keep =>
    refine S.bind (S.peek poised) (fun t => ?_) fun t ht => ?_
    · split
      · rename_i hspelled
        refine S.andThen (S.read t) fun _ => S.pure fun s hs => S.loosen (fun hstays => ?_) hs.2
        rw [isEndOfLine_of_spelled hspelled hstays]
        rfl
      · exact S.weaken (S.mismatch _) (fun s hs => hs.1) (fun _ _ => id) fun _ => id
    · obtain ⟨-, line, rfl⟩ := ht
      exact starves_mismatch _
  | expression q table shape =>
    obtain rfl : poised = true := hpoised.resolve_right (by simp [entersAtOnce])
    simp only [staysWithin, Bool.and_eq_true, Option.isNone_iff_eq_none] at hwithin
    refine S.rounds fun n n' hle => ?_
    have hoperand := Enters.stays S (hrecur q) hwithin.1
    exact S.andThen hoperand fun left => S.andThen (S.climb shape hwithin.2 hoperand hle _ left) fun node => S.pure fun _ hs => hs

theorem abreast_parseElements (hrecur : ∀ q, Enters place R recur recur' q)
    (hregular : ∀ element ∈ elements, Regular element) (hsteady : steady poised elements = true)
    (children : List Node) :
    R ((grammar l).parseElements recur elements children) ((grammar l).parseElements recur' elements children)
      (place poised) (fun _ => place (elements.foldl staysAfter poised)) fun _ => mayBeOver poised elements = true := by
  induction elements generalizing poised children with
  | nil => exact S.pure fun _ hs => hs
  | cons element rest ih =>
    simp only [steady, Bool.and_eq_true, Bool.or_eq_true, Bool.not_eq_true', List.all_eq_true] at hsteady
    obtain ⟨⟨⟨hpoised, hwithin⟩, hafter⟩, hrest⟩ := hsteady
    obtain ⟨hfirst, hothers⟩ := List.forall_mem_cons.mp hregular
    refine S.bind (abreast_parseElement S hrecur hfirst hpoised hwithin children) (fun nodes => ?_)
      fun nodes hends => ?_
    · refine S.weaken (ih hothers hrest nodes) (fun _ => id) (fun _ _ => id) fun _ hover => ?_
      rw [mayBeOver, hover, Bool.or_true]
    · rcases hafter with hnot | henters
      · rw [hnot] at hends
        cases hends
      · refine (starves_parseElements hothers (steady_within hrest) henters nodes).weaken fun _ hoptional => ?_
        rw [mayBeOver, hends, hoptional]
        rfl

/-- Reading by a rule, with limits that differ by `k`, if it is so where the first limit is met. -/
theorem abreast_parseWithin (settings settings' : ParseSettings) (k : Nat)
    (hnone : ∀ p, Enters place R ((grammar l).parseWithin settings 0) ((grammar l).parseWithin settings' k) p)
    (levels : Nat) (p : Phrase) :
    Enters place R ((grammar l).parseWithin settings levels) ((grammar l).parseWithin settings' (levels + k)) p := by
  induction levels generalizing p with
  | zero =>
    rw [Nat.zero_add]
    exact hnone p
  | succ levels ih =>
    have htable := steadyRule_eq_true l p
    simp only [steadyRule, Bool.and_eq_true, Bool.or_eq_true, Bool.not_eq_true', Option.isNone_iff_eq_none] at htable
    obtain ⟨⟨hsteady, hstays⟩, hover⟩ := htable
    rw [Nat.succ_add]
    unfold Enters Grammar.parseWithin
    refine S.andThen (S.noteEntry settings settings' _ _ _) fun _ => ?_
    refine S.bind (abreast_parseElements S ih (regular_elements l p) hsteady []) (fun children => ?_)
      fun children hends => ?_
    · have hplace : ∀ s : Stream, place (((grammar l).rule p).elements.foldl staysAfter true) s →
          place p.staysInLine s := by
        intro s hs
        refine S.loosen (fun hp => hstays.resolve_left fun hnot => ?_) hs
        rw [hp] at hnot
        cases hnot
      cases ((grammar l).rule p).shape with
      | none => exact S.pure fun s hs => hplace s hs
      | some shape => exact S.weaken (S.build shape children) (fun _ => id) (fun _ s hs => hplace s hs) fun _ => False.elim
    · rcases hover with hnot | ⟨htail, hshape⟩
      · rw [hnot] at hends
        cases hends
      · rw [hshape]
        exact .pure htail

end

theorem peekAnyway_of_ready (hready : r.stream.Ready) :
    peekAnyway r = .ok (r.stream.queue.head?.getD (.endOfInput r.stream.line)) r := by
  unfold peekAnyway
  rw [peek_eq_ok.mpr ⟨r.stream, Stream.peek_of_ready hready, rfl⟩]

/-- Where the next token is in the queue, noting it changes the trace and nothing else. -/
theorem noteEntry_of_ready (settings : ParseSettings) (title : Text) (depth : Nat) (hready : r.stream.Ready) :
    ∃ trace, Grammar.noteEntry settings title depth r = .ok () { r with trace } := by
  unfold Grammar.noteEntry
  split
  · rw [bind_of_ok (peekAnyway_of_ready hready)]
    exact ⟨_, rfl⟩
  · exact ⟨r.trace, rfl⟩

theorem follows_abreast :
    Abreast (· ≤ ·) Stream.Stands fun x y pre post ended => Follows reason extra x y pre post ended where
  loosen hloose hs := ⟨hs.1, fun h => hs.2 (hloose h)⟩
  pure := .pure
  throw := .throw
  bind := .bind
  weaken := .weaken
  answered h r r' hbegins hr := by
    obtain ⟨t, hfronts, hanswer⟩ := hr
    exact h t hanswer r r' hbegins hfronts
  peek := follows_peek
  read := follows_read
  freshSite := follows_freshSite
  mismatch expected := follows_mismatch expected
  noteEntry settings settings' title depth depth' r r' hbegins hr := by
    have hready' : r'.stream.Ready := .inl (by rw [hbegins.stream.queue]; exact hr.2 rfl)
    obtain ⟨trace, hleft⟩ := noteEntry_of_ready settings title depth hr.ready
    obtain ⟨trace', hright⟩ := noteEntry_of_ready settings' title depth' hready'
    rw [hleft, hright]
    exact .both ⟨hbegins.stream, hbegins.site, hbegins.bound⟩ ⟨hr, id⟩
  rounds h r r' hbegins hr := h r.bound r'.bound hbegins.bound r r' hbegins hr
  later {n n'} h := ⟨n' - 1, by omega, by omega⟩
  spent _ _ := fun _ _ _ _ => .cut

theorem parseWithin_zero (settings : ParseSettings) (p : Phrase) (hready : r.stream.Ready) :
    (grammar l).parseWithin settings 0 p r = .error (.atLine (.tooDeep (text "parser") settings.maxDepth)
      (r.stream.queue.head?.getD (.endOfInput r.stream.line)).line) r := by
  unfold Grammar.parseWithin
  rw [bind_of_ok (peekAnyway_of_ready hready)]
  rfl

/-- What entering a phrase does at the beginning of a text and in the longer text. -/
abbrev FollowsPhrase (reason : Text) (extra : List Text) (recur recur' : Phrase → Parse Node) (q : Phrase) : Prop :=
  Enters Stream.Stands (fun x y pre post ended => Follows reason extra x y pre post ended) recur recur' q

/-- Reading by a rule at the beginning of a text is reading by it in the longer text, watched or not. -/
theorem follows_parseWithin (hdepth : settings.maxDepth = settings'.maxDepth) (levels : Nat) (p : Phrase) :
    FollowsPhrase reason extra ((grammar l).parseWithin settings levels) ((grammar l).parseWithin settings' levels) p := by
  refine abreast_parseWithin follows_abreast settings settings' 0 (fun p r r' hbegins hr => ?_) levels p
  have hready' : r'.stream.Ready := .inl (by rw [hbegins.stream.queue]; exact hr.2 rfl)
  rw [parseWithin_zero settings p hr.ready, parseWithin_zero settings' p hready', hdepth, hbegins.stream.queue,
    hbegins.stream.line]
  exact .fault rfl

theorem follows_parseUnit (hdepth : settings.maxDepth = settings'.maxDepth) :
    Follows reason extra (parseUnit l settings) (parseUnit l settings') (Stream.Stands true)
      (fun _ => Stream.Stands false) fun _ => False := by
  unfold parseUnit Grammar.parse
  rw [← hdepth]
  exact (follows_parseWithin hdepth settings.maxDepth .program).weaken (fun _ => id) (fun _ _ => id) nofun

end Language

end StoneLang
