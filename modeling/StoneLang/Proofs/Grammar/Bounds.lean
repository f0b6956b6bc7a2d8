/-
  No loop is cut short.

  The parser's loops are bounded by a number that the reading carries, more than the tokens of its text
  (`Stream.length_tokens_le`).  Every round of a loop takes a token (`Language.Reads.shrinks`), and so the failure
  of a loop that is cut short is never met: not by a phrase (`Language.lasts_parseWithin`), and not by a whole
  text (`Language.parseUnits_ne_unfinished`).
-/
import StoneLang.Proofs.Grammar.Completeness

namespace StoneLang

/-! ## The tokens of a text -/

namespace Token

theorem length_scanFrom_le (line : Int) (covered : Nat) (content : Text) :
    (scanFrom line covered content).1.length ≤ content.length := by
  induction content generalizing covered with
  | nil => cases covered <;> exact Nat.le_refl _
  | cons b rest ih =>
    cases covered with
    | succ covered => exact Nat.le_succ_of_le (ih covered)
    | zero =>
      unfold scanFrom
      split
      · exact Nat.le_succ_of_le (ih 0)
      · split
        · exact Nat.zero_le _
        · split
          · exact Nat.zero_le _
          · rename_i lexeme _ _ token _
            have hmore := ih (lexeme.length - 1)
            have htoken : token.toList.length ≤ 1 := by cases token <;> simp
            simp only [List.length_append, List.length_cons]
            omega

theorem length_scanLine_le (line : Int) (content : Text) : (scanLine line content).1.length ≤ content.length := by
  have hchomp : content.chomp.length ≤ content.length := by
    have hdropped := (List.dropWhile_sublist (l := content.reverse) Text.isLineEnd).length_le
    simpa [Text.chomp, Text.dropTrailing] using hdropped
  exact Nat.le_trans (length_scanFrom_le line 0 content.chomp) hchomp

end Token

namespace Stream

theorem length_tokensOf_le (line : Nat) (pending : List Text) :
    (tokensOf line pending).length ≤ pending.flatten.length + pending.length := by
  induction pending generalizing line with
  | nil => exact Nat.le_refl _
  | cons content rest ih =>
    have hrest := ih (line + 1)
    have hline := Token.length_scanLine_le (line + 1) content
    unfold tokensOf
    cases hscan : Token.scanLine (line + 1) content with
    | mk scanned fault =>
      rw [hscan] at hline
      change scanned.length ≤ content.length at hline
      cases fault <;> simp only [List.length_append, List.flatten_cons, List.length_cons, List.length_nil] <;> omega

theorem fillFrom_ne_unfinished {broken : Option Text} {i : Nat} {pending : List Text} {queue : List Token}
    {line : Nat} {s : Stream} : fillFrom broken i pending queue line ≠ .error .unfinished s := by
  fun_induction fillFrom broken i pending queue line <;> simp_all [Failure.atLine]

theorem fill_ne_unfinished : fill i s ≠ .error .unfinished s' := fillFrom_ne_unfinished

theorem length_tokens_le (s : Stream) : s.tokens.length ≤ s.size := by
  have hpending := length_tokensOf_le s.line s.pending
  simp only [tokens, size, List.length_append]
  omega

end Stream

/-! ## Loops with enough rounds -/

namespace Parse

variable {α β : Type} {bound n m k : Nat}

/-- From less than `n` tokens the action leaves less than `m`, and it is not cut short. -/
def Lasts (bound n m : Nat) (x : Parse α) : Prop :=
  ∀ r : Reading, r.bound = bound → r.stream.tokens.length < n →
    match x r with
    | .ok _ r' => r'.bound = bound ∧ r'.stream.tokens.length < m
    | .error e _ => e ≠ .unfinished

theorem Lasts.pure : Lasts bound n n (Pure.pure a) := fun _ hbound hr => ⟨hbound, hr⟩

theorem Lasts.throw : Lasts bound n m (MonadExcept.throw (.atLine cause line) : Parse α) :=
  fun _ _ _ => nofun

theorem Lasts.bind (hx : Lasts bound n m x) (hf : ∀ a, Lasts bound m k (f a)) :
    Lasts bound n k (x >>= f) := by
  intro r hbound hr
  have hfirst := hx r hbound hr
  rw [bind_apply]
  generalize x r = res at hfirst ⊢
  cases res with
  | ok a r' => exact hf a r' hfirst.1 hfirst.2
  | error e r' => exact hfirst

theorem Lasts.le (h : Lasts bound n m x) (hle : m ≤ k) : Lasts bound n k x := by
  intro r hbound hr
  have hres := h r hbound hr
  generalize x r = result at hres
  cases result with
  | ok a r' => exact ⟨hres.1, Nat.lt_of_lt_of_le hres.2 hle⟩
  | error e r' => exact hres

theorem Lasts.shrink (h : Lasts bound (n + 1) (n + 1) x)
    (hshrinks : ∀ r a r', x r = .ok a r' → r'.stream.tokens.length < r.stream.tokens.length) :
    Lasts bound (n + 1) n x := by
  intro r hbound hr
  have hres := h r hbound hr
  cases hx : x r with
  | ok a r' =>
    rw [hx] at hres
    have := hshrinks r a r' hx
    exact ⟨hres.1, by omega⟩
  | error e r' =>
    rw [hx] at hres
    exact hres

theorem lasts_peek : Lasts bound n n peek := by
  intro r hbound hr
  have htokens := Stream.tokens_fill 0 r.stream
  unfold peek onStream
  rw [Stream.peek_eq]
  cases hfill : Stream.fill 0 r.stream with
  | error e s =>
    intro he
    exact absurd (he ▸ hfill) Stream.fill_ne_unfinished
  | ok _ s =>
    rw [hfill] at htokens
    change s.tokens = r.stream.tokens at htokens
    rw [← htokens] at hr
    exact ⟨hbound, hr⟩

theorem lasts_read : Lasts bound n n read := by
  intro r hbound hr
  have htokens := Stream.tokens_fill 0 r.stream
  unfold read onStream
  rw [Stream.read_eq]
  cases hfill : Stream.fill 0 r.stream with
  | error e s =>
    intro he
    exact absurd (he ▸ hfill) Stream.fill_ne_unfinished
  | ok _ s =>
    rw [hfill] at htokens
    change s.tokens = r.stream.tokens at htokens
    rw [← htokens] at hr
    refine ⟨hbound, ?_⟩
    simp only [Stream.tokens, List.length_append, List.length_tail] at hr ⊢
    omega

theorem lasts_asks (h : Asks x answer) : Lasts bound n n x := by
  rw [h]
  exact lasts_peek.bind fun _ => .pure

theorem lasts_freshSite : Lasts bound n n freshSite := fun _ hbound hr => ⟨hbound, hr⟩

theorem lasts_mismatch (expected : Text) : Lasts bound n m (mismatch expected : Parse α) := lasts_peek.bind fun _ => .throw

theorem lasts_build (shape : Shape) (children : List Node) : Lasts bound n n (build shape children) := by
  refine lasts_freshSite.bind fun site => ?_
  cases hbuilt : shape.build site children with
  | ok node => exact .pure
  | error d => exact Lasts.throw

theorem lasts_repeatWhile {fits : Parse Bool} {parse : Parse Node} {starts : Token → Bool} (hfits : Asks fits starts)
    (hparse : ∀ n, n ≤ bound → Lasts bound n n parse)
    (hshrinks : ∀ r node r', parse r = .ok node r' → r'.stream.tokens.length < r.stream.tokens.length) {rounds : Nat}
    (hrounds : n ≤ rounds) (hbound : n ≤ bound) (before : List Node) :
    Lasts bound n n (repeatWhile fits parse rounds before) := by
  induction rounds generalizing n before with
  | zero =>
    intro r _ hr
    omega
  | succ rounds ih =>
    cases n with
    | zero =>
      intro r _ hr
      omega
    | succ n =>
      unfold repeatWhile
      refine (lasts_asks hfits).bind fun fit => ?_
      cases fit with
      | false => exact .pure
      | true =>
        refine ((hparse (n + 1) hbound).shrink hshrinks).bind fun node => ?_
        exact (ih (by omega) (by omega) _).le (Nat.le_succ n)

theorem lasts_climb {operand : Parse Node} {operators : Operators} {shape : Shape}
    (hoperand : ∀ n, n ≤ bound → Lasts bound n n operand)
    (hshrinks : ∀ r node r', operand r = .ok node r' → r'.stream.tokens.length < r.stream.tokens.length) {rounds : Nat}
    (hrounds : n ≤ rounds) (hbound : n ≤ bound) (takes : Precedence → Bool) (left : Node) :
    Lasts bound n n (climb operand operators shape rounds takes left) := by
  induction rounds generalizing n takes left with
  | zero =>
    intro r _ hr
    omega
  | succ rounds ih =>
    cases n with
    | zero =>
      intro r _ hr
      omega
    | succ n =>
      have hasks : Asks (nextOperator operators) (operatorOf operators) := rfl
      unfold climb
      refine (lasts_asks hasks).bind fun next => ?_
      cases next with
      | none => exact .pure
      | some precedence =>
        dsimp only
        split
        · refine lasts_read.bind fun token => ((hoperand (n + 1) hbound).shrink hshrinks).bind fun right => ?_
          refine (ih (by omega) (by omega) _ right).bind fun right' => (lasts_build _ _).bind fun joined => ?_
          exact (ih (by omega) (by omega) _ joined).le (Nat.le_succ n)
        · exact .pure

end Parse

namespace Language

open Parse

variable {l : Layers} {bound n : Nat} {recur : Phrase → Parse Node}

theorem lasts_parseElement (hrecur : ∀ q n, n ≤ bound → Lasts bound n n (recur q))
    (hshrinks : ∀ q r node r', recur q r = .ok node r' → q.isBlank = false →
      r'.stream.tokens.length < r.stream.tokens.length)
    {element : Element Phrase} (hregular : Regular element)
    (hbound : n ≤ bound) (children : List Node) :
    Lasts bound n n ((grammar l).parseElement recur children element) := by
  cases element with
  | phrase q => exact (hrecur q n hbound).bind fun _ => .pure
  | choice rules =>
    refine (lasts_asks (asks_choice hregular)).bind fun chosen => ?_
    cases chosen with
    | none => exact lasts_mismatch _
    | some q => exact (hrecur q n hbound).bind fun _ => .pure
  | repeated q =>
    intro r hr htokens
    have hloop := lasts_repeatWhile (asks_fits l hregular.repeated) (hrecur q)
      (fun r node r' hq => hshrinks q r node r' hq hregular.repeated) (hr ▸ hbound) hbound []
    exact hloop.bind (fun nodes => Lasts.pure) r hr htokens
  | optional q =>
    refine (lasts_asks (asks_fits l hregular.optional)).bind fun fit => ?_
    cases fit with
    | false => exact .pure
    | true => exact (hrecur q n hbound).bind fun _ => .pure
  | token accepted maker =>
    refine lasts_peek.bind fun t => ?_
    split
    · refine lasts_read.bind fun _ => lasts_freshSite.bind fun site => ?_
      cases maker with
      | refuse cause => cases hregular.makes
      | _ => exact .pure
    · exact lasts_mismatch _
  | spelling spellings keep =>
    refine lasts_peek.bind fun t => ?_
    split
    · exact lasts_read.bind fun _ => .pure
    · exact lasts_mismatch _
  | expression q table shape =>
    intro r hr htokens
    have hclimb := fun left => @lasts_climb bound n (recur q) table shape (hrecur q)
      (fun r node r' hq => hshrinks q r node r' hq hregular.expression) r.bound (hr ▸ hbound) hbound (fun _ => true) left
    exact ((hrecur q n hbound).bind fun left => (hclimb left).bind fun node => Lasts.pure) r hr htokens

theorem lasts_parseElements (hrecur : ∀ q n, n ≤ bound → Lasts bound n n (recur q))
    (hshrinks : ∀ q r node r', recur q r = .ok node r' → q.isBlank = false →
      r'.stream.tokens.length < r.stream.tokens.length)
    (hregular : ∀ element ∈ elements, Regular element) (hbound : n ≤ bound) (children : List Node) :
    Lasts bound n n ((grammar l).parseElements recur elements children) := by
  induction elements generalizing children with
  | nil => exact .pure
  | cons element rest ih =>
    exact (lasts_parseElement hrecur hshrinks (hregular element List.mem_cons_self)
      hbound children).bind fun nodes => ih (List.forall_mem_cons.mp hregular).2 nodes

theorem lasts_peekAnyway : Lasts bound n n peekAnyway := by
  intro r hbound hr
  have htokens := Stream.tokens_peek r.stream
  unfold peekAnyway peek onStream
  cases hres : Stream.peek 0 r.stream with
  | ok t s | error e s =>
    rw [hres] at htokens
    change s.tokens = r.stream.tokens at htokens
    rw [← htokens] at hr
    exact ⟨hbound, hr⟩

theorem lasts_noteEntry (settings : ParseSettings) (title : Text) (depth : Nat) :
    Lasts bound n n (Grammar.noteEntry settings title depth) := by
  unfold Grammar.noteEntry
  split
  · exact lasts_peekAnyway.bind fun _ _ hbound hr => ⟨hbound, hr⟩
  · exact .pure

theorem lasts_parseWithin (settings : ParseSettings) (levels : Nat) (p : Phrase) (hbound : n ≤ bound) :
    Lasts bound n n ((grammar l).parseWithin settings levels p) := by
  induction levels generalizing p n with
  | zero => exact lasts_peekAnyway.bind fun _ => .throw
  | succ levels ih =>
    have hshrinks : ∀ q r node r', (grammar l).parseWithin settings levels q r = .ok node r' → q.isBlank = false →
        r'.stream.tokens.length < r.stream.tokens.length :=
      fun q r node r' hq hblank => (reads_of_parseWithin hq).shrinks.2 hblank
    refine (lasts_noteEntry settings _ _).bind fun _ => ?_
    refine (lasts_parseElements (fun q n hn => ih q hn) hshrinks (regular_elements l p) hbound []).bind
      fun children => ?_
    cases ((grammar l).rule p).shape with
    | none => exact .pure
    | some shape => exact lasts_build shape children

theorem lasts_parseUnit (settings : ParseSettings) : Lasts bound bound bound (parseUnit l settings) :=
  lasts_parseWithin settings settings.maxDepth .program (Nat.le_refl _)

theorem parseUnit_ne_unfinished (hbound : r.stream.tokens.length < r.bound) :
    parseUnit l settings r ≠ .error .unfinished r' := by
  intro h
  have hlasts := lasts_parseUnit (l := l) settings r rfl hbound
  rw [h] at hlasts
  exact hlasts rfl

theorem bound_parseUnit (hbound : r.stream.tokens.length < r.bound) (h : parseUnit l settings r = .ok unit r') :
    r'.bound = r.bound := by
  have hlasts := lasts_parseUnit (l := l) settings r rfl hbound
  rw [h] at hlasts
  exact hlasts.1

theorem lasts_turn (settings : ParseSettings) : Lasts bound bound bound (turn l settings) := by
  refine (lasts_asks (show Asks atEnd Token.isEndOfInput from rfl)).bind fun finished => ?_
  cases finished with
  | true => exact .pure
  | false => exact (lasts_parseUnit settings).bind fun _ => .pure

/-- No text is cut short: with a bound above the number of its tokens, it is read to its end or refused. -/
theorem parseUnits_ne_unfinished (settings : ParseSettings) {rounds : Nat} {r : Reading}
    (hrounds : r.stream.tokens.length < rounds) (hbound : r.stream.tokens.length < r.bound) :
    (parseUnits l settings rounds r).1.failure ≠ some .unfinished := by
  induction rounds generalizing r with
  | zero => omega
  | succ rounds ih =>
    have hlasts := @lasts_turn l r.bound settings r rfl hbound
    rw [parseUnits_turn]
    cases hturn : turn l settings r with
    | error e r' =>
      rw [hturn] at hlasts
      exact fun h => hlasts (Option.some.inj h)
    | ok found r' =>
      rw [hturn] at hlasts
      cases found with
      | none => nofun
      | some unit =>
        have hless : r'.stream.tokens.length < r.stream.tokens.length := (reads_of_turn hturn).shrinks.2 rfl
        exact ih (by omega) (by rw [hlasts.1]; exact hlasts.2)

end Language

end StoneLang
