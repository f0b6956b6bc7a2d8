/-
  What the parser is made of, and what it can fail with.

  The walk through the parser is made once: a relation between the steps of two parsers that sequences keep is one
  between the whole parsers (`Parse.Paired`), and so it is with a property of single computations (`Parse.Closed`).

  The first of them is what it fails with.  A text is refused because it is not well formed or too deep, and
  every such failure is a diagnostic of one of these two classes (`Failure.IsOfReading`).
-/
import StoneLang.Grammar.Language
import StoneLang.Proofs.Evaluation.Coupling

namespace StoneLang

/-- A cause that a text can be refused for: it is not well formed, or too deep. -/
def Cause.isOfReading (cause : Cause) : Bool := cause.kind == .syntaxError || cause.kind == .stackExhausted

/-- A cause that a text is refused for, whatever may follow it. -/
def Cause.isSettled (cause : Cause) : Bool := cause.isOfReading && !cause.atEnd

theorem Cause.isOfReading_of_isSettled {cause : Cause} (h : cause.isSettled = true) : cause.isOfReading = true :=
  (Bool.and_eq_true_iff.mp h).1

/-- What reading fails with: a cause of its own, or a loop that is cut short. -/
def Failure.IsOfReading (e : Failure) : Prop :=
  (∃ cause line, cause.isOfReading = true ∧ e = .atLine cause line) ∨ e = .unfinished

/-! ## Children that do not fit -/

def Faults {α : Type} (x : Except Diagnostic α) : Prop := ∀ d, x = .error d → d.cause.isSettled = true

variable {α β : Type} {f : α → Except Diagnostic β}

theorem faults_ok (a : α) : Faults (.ok a) := nofun

theorem faults_bind (hx : Faults x) (hf : ∀ a, Faults (f a)) : Faults (x >>= f) := by
  cases x with
  | ok a => exact hf a
  | error d' => exact fun d h => by cases h; exact hx _ rfl

theorem faults_mapM (hf : ∀ a, Faults (f a)) (items : List α) : Faults (items.mapM f) := by
  induction items with
  | nil => exact faults_ok _
  | cons a rest ih =>
    rw [List.mapM_cons]
    exact faults_bind (hf a) fun b => faults_bind ih fun bs => faults_ok _

namespace Shape

theorem faults_labelOf (shape : Shape) (child : Node) : Faults (labelOf shape child) := by
  unfold labelOf
  split <;> rintro d ⟨⟩ <;> rfl

theorem faults_parametersOf (keyword : String) (child : Node) : Faults (parametersOf keyword child) := by
  unfold parametersOf
  split <;> rintro d ⟨⟩ <;> rfl

theorem faults_blockOf (keyword : String) (child : Node) : Faults (blockOf keyword child) := by
  unfold blockOf
  split <;> rintro d ⟨⟩ <;> rfl

theorem faults_suffixOf (child : Node) : Faults (suffixOf child) := by
  unfold suffixOf
  split <;> rintro d ⟨⟩ <;> rfl

theorem faults_membersOf (line : Int) (child : Node) : Faults (membersOf line child) := by
  unfold membersOf
  split <;> rintro d ⟨⟩ <;> rfl

theorem faults_wrongCount (shape : Shape) (wanted : String) (children : List Node) :
    Faults (.error (shape.wrongCount wanted children) : Except Diagnostic α) :=
  fun d h => by cases h; rfl

theorem faults_build (site : Site) (shape : Shape) (children : List Node) : Faults (shape.build site children) := by
  unfold build
  split <;> first | exact faults_ok _ | exact faults_wrongCount _ _ _ | skip
  · exact faults_bind (faults_labelOf _ _) fun _ => faults_ok _
  · exact faults_bind (faults_mapM (faults_labelOf _) _) fun _ => faults_ok _
  · exact faults_bind (faults_labelOf _ _) fun _ => faults_bind (faults_parametersOf _ _) fun _ =>
      faults_bind (faults_blockOf _ _) fun _ => faults_ok _
  · exact faults_bind (faults_parametersOf _ _) fun _ => faults_bind (faults_blockOf _ _) fun _ => faults_ok _
  · exact faults_bind (faults_mapM faults_suffixOf _) fun _ => faults_ok _
  · exact faults_bind (faults_labelOf _ _) fun _ => faults_ok _
  · exact faults_bind (faults_labelOf _ _) fun _ => faults_bind (faults_membersOf _ _) fun _ => faults_ok _
  · exact faults_bind (faults_labelOf _ _) fun _ => faults_bind (faults_labelOf _ _) fun _ =>
      faults_bind (faults_membersOf _ _) fun _ => faults_ok _

end Shape

/-! ## Properties of all parts of the parser -/

def Element.makes {ι : Type} : Element ι → Bool
  | .token _ (.refuse _) => false
  | _ => true

theorem Language.makes_rule (l : Layers) (p : Language.Phrase) :
    ∀ element ∈ (Language.rule l p).elements, element.makes = true := by
  rw [← List.all_eq_true]
  obtain ⟨functions, closures, classes, arrays⟩ := l
  cases p <;> cases functions <;> cases closures <;> cases classes <;> cases arrays <;> rfl

/-- The relation holds between the steps that two parsers take, and it goes with sequences.  The rounds of their loops are
bounded by numbers that `B` relates. -/
structure Parse.Paired (R : {α : Type} → Parse α → Parse α → Prop) (B : Nat → Nat → Prop) : Prop where
  pure : ∀ {α : Type} (a : α), R (Pure.pure a) (Pure.pure a)
  throw : ∀ {α : Type} {e : Failure}, e.IsOfReading → R (MonadExcept.throw e : Parse α) (MonadExcept.throw e)
  bind : ∀ {α β : Type} {x y : Parse α} {f g : α → Parse β}, R x y → (∀ a, R (f a) (g a)) → R (x >>= f) (y >>= g)
  peek : R Parse.peek Parse.peek
  peekAnyway : R Parse.peekAnyway Parse.peekAnyway
  read : R Parse.read Parse.read
  freshSite : R Parse.freshSite Parse.freshSite
  rounds : ∀ {α : Type} {f g : Nat → Parse α}, (∀ n n', B n n' → R (f n) (g n')) → R (Parse.rounds >>= f) (Parse.rounds >>= g)
  /-- Where the first loop is cut short, the second one is, or it does not matter what it does. -/
  cut : ∀ {n : Nat}, B 0 n → n = 0 ∨ ∀ {α : Type} (y : Parse α), R (MonadExcept.throw .unfinished) y
  round : ∀ {n n' : Nat}, B (n + 1) n' → ∃ m, n' = m + 1 ∧ B n m

namespace Parse.Paired

variable {R : {α : Type} → Parse α → Parse α → Prop} {B : Nat → Nat → Prop} (h : Paired R B) {ι : Type}

include h

theorem mismatch (expected : Text) : R (Parse.mismatch expected : Parse α) (Parse.mismatch expected) :=
  h.bind h.peek fun _ => h.throw (.inl ⟨_, _, rfl, rfl⟩)

theorem build (shape : Shape) (children : List Node) : R (Parse.build shape children) (Parse.build shape children) := by
  refine h.bind h.freshSite fun site => ?_
  cases hbuild : shape.build site children with
  | ok node => exact h.pure node
  | error d => exact h.throw (.inl ⟨d.cause, d.line, Cause.isOfReading_of_isSettled (Shape.faults_build site shape children d hbuild), rfl⟩)

theorem firstFitting (hfits : ∀ p, R (fits p) (fits p)) (rules : List ι) :
    R (StoneLang.firstFitting fits rules) (StoneLang.firstFitting fits rules) := by
  induction rules with
  | nil => exact h.pure none
  | cons p rest ih =>
    refine h.bind (hfits p) fun fit => ?_
    cases fit with
    | true => exact h.pure _
    | false => exact ih

theorem fits (g : Grammar ι) (p : ι) : R (g.fits p) (g.fits p) := by
  suffices hwithin : ∀ bound p, R (g.fitsWithin bound p) (g.fitsWithin bound p) from hwithin g.count p
  intro bound
  induction bound with
  | zero => exact fun _ => h.throw (.inr rfl)
  | succ bound ih =>
    intro p
    unfold Grammar.fitsWithin
    cases (g.rule p).elements with
    | nil => exact h.pure true
    | cons element _ =>
      cases element with
      | phrase r | repeated r | optional r => exact ih r
      | expression r _ _ => exact ih r
      | choice rules => exact h.bind (h.firstFitting ih rules) fun _ => h.pure _
      | token accepted maker => exact h.bind h.peek fun _ => h.pure _
      | spelling spellings keep => exact h.bind h.peek fun _ => h.pure _

variable {bound bound' : Nat} {recur recur' : ι → Parse Node}

theorem climb (hoperand : R operand operand') (operators : Operators) (shape : Shape)
    (hbound : B bound bound') (takes : Precedence → Bool) (left : Node) :
    R (StoneLang.climb operand operators shape bound takes left)
      (StoneLang.climb operand' operators shape bound' takes left) := by
  induction bound generalizing bound' takes left with
  | zero =>
    rcases h.cut hbound with rfl | hcut
    · exact h.throw (.inr rfl)
    · exact hcut _
  | succ bound ih =>
    obtain ⟨bound', rfl, hless⟩ := h.round hbound
    refine h.bind (h.bind h.peek fun _ => h.pure _) fun next => ?_
    cases next with
    | none => exact h.pure left
    | some precedence =>
      dsimp only
      split
      · refine h.bind h.read fun token => h.bind hoperand fun right => ?_
        exact h.bind (ih hless _ right) fun right => h.bind (h.build shape _) fun joined => ih hless takes joined
      · exact h.pure left

theorem repeatWhile {fits : Parse Bool} (hfits : R fits fits) (hparse : R parse parse')
    (hbound : B bound bound') (before : List Node) :
    R (StoneLang.repeatWhile fits parse bound before) (StoneLang.repeatWhile fits parse' bound' before) := by
  induction bound generalizing bound' before with
  | zero =>
    rcases h.cut hbound with rfl | hcut
    · exact h.throw (.inr rfl)
    · exact hcut _
  | succ bound ih =>
    obtain ⟨bound', rfl, hless⟩ := h.round hbound
    refine h.bind hfits fun fit => ?_
    cases fit with
    | true => exact h.bind hparse fun node => ih hless _
    | false => exact h.pure _

/-- An element that refuses a token fails as its maker says; the others fail in the parser's own way. -/
theorem parseElement (g : Grammar ι) (hrecur : ∀ p, R (recur p) (recur' p)) (children : List Node)
    (hmakes : element.makes = true ∨ ∀ e : Failure, R (MonadExcept.throw e : Parse (List Node)) (MonadExcept.throw e)) :
    R (g.parseElement recur children element) (g.parseElement recur' children element) := by
  cases element with
  | phrase r => exact h.bind (hrecur r) fun _ => h.pure _
  | choice rules =>
    refine h.bind (h.firstFitting (h.fits g) rules) fun chosen => ?_
    cases chosen with
    | none => exact h.mismatch _
    | some r => exact h.bind (hrecur r) fun _ => h.pure _
  | repeated r =>
    apply h.rounds
    intro bound bound' hbound
    exact h.bind (h.repeatWhile (h.fits g r) (hrecur r) hbound []) fun _ => h.pure _
  | optional r =>
    refine h.bind (h.fits g r) fun fit => ?_
    cases fit with
    | true => exact h.bind (hrecur r) fun _ => h.pure _
    | false => exact h.pure children
  | token accepted maker =>
    refine h.bind h.peek fun token => ?_
    split
    · refine h.bind h.read fun _ => h.bind h.freshSite fun site => ?_
      cases maker with
      | refuse reason =>
        rcases hmakes with hmakes | hthrows
        · cases hmakes
        · exact hthrows _
      | _ => exact h.pure _
    · exact h.mismatch _
  | spelling spellings keep =>
    refine h.bind h.peek fun token => ?_
    split
    · exact h.bind h.read fun _ => h.pure _
    · exact h.mismatch _
  | expression operand operators shape =>
    apply h.rounds
    intro bound bound' hbound
    refine h.bind (hrecur operand) fun left => ?_
    exact h.bind (h.climb (hrecur operand) operators shape hbound _ left) fun _ => h.pure _

theorem parseElements (g : Grammar ι) (hrecur : ∀ p, R (recur p) (recur' p))
    (hmakes : ∀ element ∈ elements, element.makes = true ∨
      ∀ e : Failure, R (MonadExcept.throw e : Parse (List Node)) (MonadExcept.throw e)) (children : List Node) :
    R (g.parseElements recur elements children) (g.parseElements recur' elements children) := by
  induction elements generalizing children with
  | nil => exact h.pure children
  | cons element rest ih =>
    exact h.bind (h.parseElement g hrecur children (hmakes element List.mem_cons_self)) fun _ =>
      ih (fun other hother => hmakes other (List.mem_cons_of_mem _ hother)) _

theorem parseWithin (g : Grammar ι)
    (hmakes : ∀ p, ∀ element ∈ (g.rule p).elements,
      element.makes = true ∨ ∀ e : Failure, R (MonadExcept.throw e : Parse (List Node)) (MonadExcept.throw e))
    {settings settings' : ParseSettings} (hdepth : settings'.maxDepth = settings.maxDepth)
    (hnote : ∀ title depth, R (Grammar.noteEntry settings title depth) (Grammar.noteEntry settings' title depth))
    (levels : Nat) (p : ι) : R (g.parseWithin settings levels p) (g.parseWithin settings' levels p) := by
  induction levels generalizing p with
  | zero =>
    refine h.bind h.peekAnyway fun token => ?_
    rw [hdepth]
    exact h.throw (.inl ⟨_, _, rfl, rfl⟩)
  | succ levels ih =>
    unfold Grammar.parseWithin
    rw [hdepth]
    refine h.bind (hnote _ _) fun _ => ?_
    refine h.bind (h.parseElements g ih (hmakes p) []) fun children => ?_
    cases (g.rule p).shape with
    | some shape => exact h.build shape children
    | none => exact h.pure _

end Parse.Paired

/-- The property holds of the steps that a parser takes, and of sequences of computations with it. -/
structure Parse.Closed (P : {α : Type} → Parse α → Prop) : Prop where
  pure : ∀ {α : Type} (a : α), P (Pure.pure a : Parse α)
  throw : ∀ {α : Type} {e : Failure}, e.IsOfReading → P (MonadExcept.throw e : Parse α)
  bind : ∀ {α β : Type} {x : Parse α} {f : α → Parse β}, P x → (∀ a, P (f a)) → P (x >>= f)
  peek : P Parse.peek
  peekAnyway : P Parse.peekAnyway
  read : P Parse.read
  freshSite : P Parse.freshSite
  rounds : P Parse.rounds
  record : ∀ record : Record, P (modify fun r => { r with trace := r.trace.push record } : Parse Unit)

namespace Parse.Closed

variable {P : {α : Type} → Parse α → Prop} (h : Closed P) {ι : Type}

include h

theorem paired : Paired (fun x _ => P x) Eq where
  pure := h.pure
  throw := h.throw
  bind := h.bind
  peek := h.peek
  peekAnyway := h.peekAnyway
  read := h.read
  freshSite := h.freshSite
  rounds hf := h.bind h.rounds fun n => hf n n rfl
  cut hn := .inl hn.symm
  round hn := ⟨_, hn.symm, rfl⟩

theorem parseWithin (g : Grammar ι)
    (hmakes : ∀ p, ∀ element ∈ (g.rule p).elements,
      element.makes = true ∨ ∀ e : Failure, P (MonadExcept.throw e : Parse (List Node)))
    (settings : ParseSettings) (levels : Nat) (p : ι) : P (g.parseWithin settings levels p) := by
  have hnote : ∀ title depth, P (Grammar.noteEntry settings title depth) := by
    intro title depth
    unfold Grammar.noteEntry
    split
    · exact h.bind h.peekAnyway fun token => h.record _
    · exact h.pure _
  exact @Paired.parseWithin _ _ h.paired _ g hmakes settings settings rfl hnote levels p

theorem parseUnit (l : Layers) (settings : ParseSettings) : P (Language.parseUnit l settings) :=
  h.parseWithin _ (fun p element helement => .inl (Language.makes_rule l.withNeeds p element helement)) _ _ _

end Parse.Closed

/-! ## Turns -/

namespace Language

/-- A turn of reading gives the next unit, or nothing at the end of the text. -/
def turn (l : Layers) (settings : ParseSettings) : Parse (Option Node) := do
  if ← atEnd then return none
  else return some (← parseUnit l settings)

variable {l : Layers} {settings : ParseSettings}

theorem parseUnits_turn (bound : Nat) (r : Reading) :
    parseUnits l settings (bound + 1) r = match turn l settings r with
      | .error e r => (⟨[], some e⟩, r)
      | .ok none r => (⟨[], none⟩, r)
      | .ok (some unit) r =>
        (⟨unit :: (parseUnits l settings bound r).1.units, (parseUnits l settings bound r).1.failure⟩,
          (parseUnits l settings bound r).2) := by
  unfold turn
  conv => lhs; unfold parseUnits
  rw [bind_apply]
  cases atEnd r with
  | error e r₁ => rfl
  | ok finished r₁ =>
    cases finished with
    | true => rfl
    | false =>
      simp only [Bool.false_eq_true, if_false]
      rw [bind_apply]
      cases parseUnit l settings r₁ <;> rfl

theorem turn_eq_some (h : turn l settings r = .ok (some unit) r') :
    ∃ r₁, atEnd r = .ok false r₁ ∧ parseUnit l settings r₁ = .ok unit r' := by
  obtain ⟨finished, r₁, hend, h⟩ := bind_eq_ok.mp h
  cases finished with
  | true => cases h
  | false =>
    obtain ⟨unit', r₂, hunit, h⟩ := bind_eq_ok.mp h
    cases h
    exact ⟨r₁, hend, hunit⟩

theorem turn_eq_none (h : turn l settings r = .ok none r') : atEnd r = .ok true r' := by
  obtain ⟨finished, r₁, hend, h⟩ := bind_eq_ok.mp h
  cases finished with
  | true =>
    cases h
    exact hend
  | false =>
    obtain ⟨unit', r₂, hunit, h⟩ := bind_eq_ok.mp h
    cases h

end Language

theorem Parse.Closed.turn (h : Closed P) (l : Layers) (settings : ParseSettings) :
    P (Language.turn l settings) := by
  refine h.bind (h.bind h.peek fun _ => h.pure _) fun finished => ?_
  cases finished with
  | true => exact h.pure none
  | false => exact h.bind (h.parseUnit l settings) fun _ => h.pure _

/-! ## Failures of the parser -/

namespace Token

theorem Lexeme.isSettled_token? {line : Int} {lexeme : Lexeme}
    (h : lexeme.token? line = .error cause) : cause.isSettled = true := by
  unfold token? at h
  split at h
  · cases h
  · split at h <;> cases h
    rfl
  · cases h
  · split at h <;> cases h
    rfl

theorem isSettled_scanFrom {line : Int}
    (h : (scanFrom line covered content).2 = some cause) : cause.isSettled = true := by
  induction content generalizing covered with
  | nil => cases covered <;> cases h
  | cons b rest ih =>
    cases covered with
    | succ covered => exact ih h
    | zero =>
      unfold scanFrom at h
      split at h
      · exact ih h
      · split at h
        · cases h
          rfl
        · split at h
          · rename_i fault htoken
            cases h
            exact Lexeme.isSettled_token? htoken
          · exact ih h

end Token

namespace Stream

theorem fillFrom_ended (i : Nat) (pending : List Text) (queue : List Token) (line : Nat) :
    Coupling.Ended (fun s : Stream => s.broken = none) (fun _ => True) Failure.IsOfReading
      (fillFrom none i pending queue line) := by
  fun_induction fillFrom none i pending queue line with
  | case3 => exact ⟨rfl, trivial⟩
  | case4 => exact ⟨rfl, trivial⟩
  | case5 _ _ _ _ _ _ _ ih => exact ih
  | case6 _ _ _ _ _ _ cause hscan =>
    refine ⟨rfl, .inl ⟨cause, _, ?_, rfl⟩⟩
    exact Cause.isOfReading_of_isSettled (Token.isSettled_scanFrom (congrArg Prod.snd hscan))
  | _ => contradiction

theorem ends_fill (i : Nat) :
    Coupling.Ends (fun s : Stream => s.broken = none) (fun _ => True) Failure.IsOfReading (fill i) := by
  intro s hs
  unfold fill
  rw [hs]
  exact fillFrom_ended i s.pending s.queue s.line

theorem ends_peek (i : Nat) :
    Coupling.Ends (fun s : Stream => s.broken = none) (fun _ => True) Failure.IsOfReading (peek i) :=
  (ends_fill i).bind fun _ _ _ hs => ⟨hs, trivial⟩

theorem ends_read :
    Coupling.Ends (fun s : Stream => s.broken = none) (fun _ => True) Failure.IsOfReading read := by
  refine (ends_fill 0).bind fun _ _ s hs => ?_
  rw [get_bind_apply]
  cases s.queue with
  | nil => exact ⟨hs, trivial⟩
  | cons token rest => exact ⟨hs, trivial⟩

end Stream

def Reading.Sound (r : Reading) : Prop := r.stream.broken = none

namespace Parse

theorem ends_onStream
    (h : Coupling.Ends (fun s : Stream => s.broken = none) (fun _ => True) Failure.IsOfReading action) :
    Coupling.Ends Reading.Sound (fun _ => True) Failure.IsOfReading (onStream action) := by
  intro r hr
  have hended := h r.stream hr
  unfold onStream
  generalize action r.stream = res at hended ⊢
  cases res with
  | ok a s => exact hended
  | error e s => exact hended

theorem ends_closed : Closed fun x => Coupling.Ends Reading.Sound (fun _ => True) Failure.IsOfReading x where
  pure _ r hr := ⟨hr, trivial⟩
  throw he r hr := ⟨hr, he⟩
  bind hx hf := hx.bind fun a _ => hf a
  peek := ends_onStream (Stream.ends_peek 0)
  peekAnyway r hr := by
    have hended := ends_onStream (Stream.ends_peek 0) r hr
    unfold peekAnyway peek
    generalize onStream (Stream.peek 0) r = res at hended ⊢
    cases res with
    | ok token r' => exact hended
    | error e r' => exact ⟨hended.1, trivial⟩
  read := ends_onStream Stream.ends_read
  freshSite r hr := ⟨hr, trivial⟩
  rounds r hr := ⟨hr, trivial⟩
  record _ r hr := ⟨hr, trivial⟩

end Parse

theorem Language.isOfReading_parseUnits
    (hr : r.Sound) (h : (parseUnits l settings bound r).1.failure = some e) : e.IsOfReading := by
  induction bound generalizing r with
  | zero =>
    cases h
    exact .inr rfl
  | succ bound ih =>
    have hturn := Parse.ends_closed.turn l settings r hr
    rw [parseUnits_turn] at h
    generalize turn l settings r = res at h hturn ⊢
    cases res with
    | error e' r₁ =>
      cases h
      exact hturn.2
    | ok found r₁ =>
      cases found with
      | none => cases h
      | some unit => exact ih hturn.1 h

/-! ## The trace -/

def Reading.withTrace (r : Reading) (trace : Array Record) : Reading := { r with trace }

def Parse.Blind {α : Type} (x : Parse α) : Prop :=
  ∀ r trace, ∃ trace', x (r.withTrace trace) = onState (Reading.withTrace · trace') (x r)

theorem Parse.blind_closed : Parse.Closed @Parse.Blind where
  pure _ _ trace := ⟨trace, rfl⟩
  throw _ _ trace := ⟨trace, rfl⟩
  bind {α β x f} hx hf := by
    intro r trace
    obtain ⟨trace', hxr⟩ := hx r trace
    rw [bind_apply, bind_apply, hxr]
    cases x r with
    | error e s => exact ⟨trace', rfl⟩
    | ok a s => exact hf a s trace'
  peek r trace := by
    refine ⟨trace, ?_⟩
    simp only [Parse.peek, Parse.onStream, Reading.withTrace]
    cases Stream.peek 0 r.stream <;> rfl
  peekAnyway r trace := by
    refine ⟨trace, ?_⟩
    simp only [Parse.peekAnyway, Parse.peek, Parse.onStream, Reading.withTrace]
    cases Stream.peek 0 r.stream <;> rfl
  read r trace := by
    refine ⟨trace, ?_⟩
    simp only [Parse.read, Parse.onStream, Reading.withTrace]
    cases Stream.read r.stream <;> rfl
  freshSite _ trace := ⟨trace, rfl⟩
  rounds _ trace := ⟨trace, rfl⟩
  record _ _ _ := ⟨_, rfl⟩

theorem Language.units_withTrace (l : Layers) (settings : ParseSettings) (bound : Nat) (r : Reading)
    (trace : Array Record) :
    (parseUnits l settings bound (r.withTrace trace)).1 = (parseUnits l settings bound r).1 := by
  induction bound generalizing r trace with
  | zero => rfl
  | succ bound ih =>
    have hblind : Parse.Blind (turn l settings) := Parse.blind_closed.turn l settings
    obtain ⟨trace', hturn⟩ := hblind r trace
    rw [parseUnits_turn, parseUnits_turn, hturn]
    cases turn l settings r with
    | error e s => rfl
    | ok found s =>
      cases found with
      | none => rfl
      | some unit =>
        dsimp only [onState]
        rw [ih s trace']

end StoneLang
