/-
  Reading a text ends.

  PROGRAM: `Language.parseAll`, whose loops carry a bound because a round that takes no token would never
  end.

  SPEC: the bound is never what ends a loop.  The failure of a loop that is cut short is never the answer,
  and a larger bound gives the same answer (`Parse.Extends`), so the loops end by their own conditions alone.
  The reasons: a unit, a round of a repetition and an operator each take a token; the rules that are asked
  one after another whether they fit have falling ranks, and asking takes nothing; and a look at the stream
  scans lines from the front of those that are left.
-/
import Mathlib.Logic.Relation
import StoneLang.Proofs.Grammar.Programs
import StoneLang.Proofs.Grammar.Watching

namespace StoneLang

/-! ## Lines that a look scans -/

namespace Stream

/-- A look at any place scans lines from the front of those that are left, and no others. -/
theorem advances_peek (i : Nat) (s : Stream) : s.Advances (finalState (peek i s)) := by
  have hfill : s.Advances (finalState (fill i s)) := took_fillFrom ..
  unfold peek
  rw [bind_apply]
  cases hres : fill i s with
  | ok _ s' | error e s' =>
    rw [hres] at hfill
    exact hfill

theorem advances_read (s : Stream) : s.Advances (finalState (read s)) := by
  have hfill := s.advances_fill
  rw [read_eq]
  generalize fill 0 s = res at hfill ⊢
  cases res with
  | ok _ s' => exact hfill.trans ⟨[], rfl, rfl⟩
  | error e s' => exact hfill

end Stream

/-! ## Larger bounds -/

namespace Parse

variable {α β : Type}

/-- The second action, begun with a larger bound, does what the first one does, unless that is cut short. -/
def Extends (x y : Parse α) : Prop :=
  ∀ (r : Reading) (bound : Nat), r.bound ≤ bound →
    match x r with
    | .ok a r' => r'.bound = r.bound ∧ y { r with bound } = .ok a { r' with bound }
    | .error e r' => e = .unfinished ∨ y { r with bound } = .error e { r' with bound }

theorem Extends.pure (a : α) : Extends (Pure.pure a) (Pure.pure a) := fun _ _ _ => ⟨rfl, rfl⟩

theorem Extends.throw (e : Failure) : Extends (MonadExcept.throw e : Parse α) (MonadExcept.throw e) :=
  fun _ _ _ => .inr rfl

theorem Extends.bind (hx : Extends x y) (hf : ∀ a, Extends (f a) (g a)) :
    Extends (x >>= f) (y >>= g) := by
  intro r bound hle
  have hfirst := hx r bound hle
  rw [bind_apply]
  generalize x r = res at hfirst ⊢
  cases res with
  | error e r' =>
    refine hfirst.imp_right fun hy => ?_
    exact bind_eq_error.mpr (.inl hy)
  | ok a r' =>
    obtain ⟨hbound, hy⟩ := hfirst
    have hsecond := hf a r' bound (hbound ▸ hle)
    dsimp only
    generalize f a r' = res at hsecond ⊢
    cases res with
    | error e r'' => exact hsecond.imp_right fun hg => bind_eq_error.mpr (.inr ⟨a, _, hy, hg⟩)
    | ok b r'' => exact ⟨hsecond.1.trans hbound, bind_eq_ok.mpr ⟨a, _, hy, hsecond.2⟩⟩

theorem extends_onStream (action : EStateM Failure Stream α) : Extends (onStream action) (onStream action) := by
  intro r bound _
  unfold onStream
  cases action r.stream with
  | ok a s => exact ⟨rfl, rfl⟩
  | error e s => exact .inr rfl

theorem extends_peekAnyway : Extends peekAnyway peekAnyway := by
  intro r bound _
  unfold peekAnyway peek onStream
  cases Stream.peek 0 r.stream with
  | ok t s => exact ⟨rfl, rfl⟩
  | error e s => exact ⟨rfl, rfl⟩

theorem paired_extends : Paired Extends (· ≤ ·) where
  pure := .pure
  throw _ := .throw _
  bind := .bind
  peek := extends_onStream _
  peekAnyway := extends_peekAnyway
  read := extends_onStream _
  freshSite := fun _ _ _ => ⟨rfl, rfl⟩
  -- the bound of the reading is the number of rounds of a loop
  rounds h := fun r bound hle => h r.bound bound hle r bound hle
  cut _ := .inr fun _ _ _ _ => .inl rfl
  round {n n'} h := ⟨n' - 1, by omega, by omega⟩

end Parse

open Parse

namespace Language

variable {l : Layers} {settings : ParseSettings}

theorem extends_turn : Extends (turn l settings) (turn l settings) := by
  have hnote : ∀ title depth, Extends (Grammar.noteEntry settings title depth) (Grammar.noteEntry settings title depth) := by
    intro title depth
    unfold Grammar.noteEntry
    split
    · exact extends_peekAnyway.bind fun _ _ _ _ => ⟨rfl, rfl⟩
    · exact .pure _
  have hunit : Extends (parseUnit l settings) (parseUnit l settings) :=
    paired_extends.parseWithin (grammar l) (fun _ _ _ => .inr .throw) rfl hnote _ .program
  refine (paired_extends.peek.bind fun _ => .pure _ : Extends atEnd atEnd).bind fun finished => ?_
  cases finished with
  | true => exact .pure none
  | false => exact hunit.bind fun _ => .pure _

variable {r : Reading} {p : Phrase}

theorem parseUnits_extends {rounds rounds' bound : Nat} (hrounds : rounds ≤ rounds') (hbound : r.bound ≤ bound)
    (hends : (parseUnits l settings rounds r).1.failure ≠ some .unfinished) :
    (parseUnits l settings rounds' { r with bound }).1 = (parseUnits l settings rounds r).1 := by
  induction rounds generalizing rounds' r with
  | zero => exact absurd rfl hends
  | succ rounds ih =>
    obtain ⟨rounds', rfl⟩ : ∃ n, rounds' = n + 1 := ⟨rounds' - 1, by omega⟩
    have hturn := @extends_turn l settings r bound hbound
    rw [parseUnits_turn] at hends ⊢
    rw [parseUnits_turn]
    generalize turn l settings r = res at hturn hends ⊢
    cases res with
    | error e r' =>
      rcases hturn with rfl | hturn
      · exact absurd rfl hends
      · rw [hturn]
    | ok found r' =>
      obtain ⟨hsame, hturn⟩ := hturn
      rw [hturn]
      cases found with
      | none => rfl
      | some unit =>
        dsimp only
        rw [ih (Nat.le_of_succ_le_succ hrounds) (hsame ▸ hbound) hends]

/-! ## Asking which rule fits -/

/-- Asking whether the first rule fits begins with asking whether the second one does. -/
def AsksFirst (l : Layers) (p q : Phrase) : Prop :=
  ∃ element rest, ((grammar l).rule p).elements = element :: rest ∧ q ∈ element.references

theorem AsksFirst.rank_lt (h : AsksFirst l p q) : rank q < rank p := by
  obtain ⟨element, rest, hel, hq⟩ := h
  have hblank : p.isBlank = false := by
    cases hp : p.isBlank with
    | false => rfl
    | true =>
      rw [elements_blank hp] at hel
      cases hel
  obtain ⟨element', rest', hel', hleads⟩ := elements_leads l hblank
  rw [hel] at hel'
  cases hel'
  exact of_decide_eq_true (leadsTo_references hleads q hq)

theorem not_asksFirst_cycle (p : Phrase) : ¬ Relation.TransGen (AsksFirst l) p p := by
  have hfalls : ∀ {q}, Relation.TransGen (AsksFirst l) p q → rank q < rank p := by
    intro q h
    induction h with
    | single h => exact h.rank_lt
    | tail _ h ih => exact Nat.lt_trans h.rank_lt ih
  intro h
  exact Nat.lt_irrefl _ (hfalls h)

theorem fits_takes_nothing (l : Layers) (p : Phrase) (r : Reading) :
    (finalState ((grammar l).fits p r)).stream.tokens = r.stream.tokens ∧
      ∀ r', (grammar l).fits p r ≠ .error .unfinished r' := by
  cases hblank : p.isBlank with
  | true =>
    rw [fits_blank hblank]
    exact ⟨rfl, nofun⟩
  | false =>
    have htokens := Stream.tokens_peek r.stream
    have hlasts := @lasts_peek r.bound (r.stream.tokens.length + 1) r rfl (Nat.lt_succ_self _)
    rw [asks_apply (asks_fits l hblank)]
    unfold peek onStream at hlasts ⊢
    cases hres : Stream.peek 0 r.stream with
    | ok t s =>
      rw [hres] at htokens
      exact ⟨htokens, nofun⟩
    | error e s =>
      rw [hres] at htokens hlasts
      refine ⟨htokens, ?_⟩
      intro r' h
      cases h
      exact hlasts rfl

/-! ## What every step takes -/

/-- From the first reading to the second, tokens have been taken, at least one. -/
def TakesSome (r r' : Reading) : Prop := ∃ first more, r.stream.tokens = first :: more ++ r'.stream.tokens

theorem takesSome_parseWithin (hblank : p.isBlank = false)
    (h : (grammar l).parseWithin settings levels p r = .ok node r') : TakesSome r r' := by
  have hreads := reads_of_parseWithin h
  obtain ⟨taken, htaken⟩ := hreads.suffix
  have hless := hreads.shrinks.2 hblank
  rw [← htaken, List.length_append] at hless
  cases taken with
  | nil => simp at hless
  | cons first more => exact ⟨first, more, htaken.symm⟩

theorem takesSome_operator
    (hnext : nextOperator table r = .ok (some precedence) r₁) (hread : read r₁ = .ok token r₂) : TakesSome r r₂ := by
  have hasks : Asks (nextOperator table) (operatorOf table) := rfl
  obtain ⟨t, hpeek, hoperator⟩ := asks_eq_ok hasks hnext
  have hkind : t.kind = .identifier := by
    by_contra hother
    simp [operatorOf, hother] at hoperator
  obtain ⟨r'', rest, hread', htokens, hcursor, -⟩ := read_seen hpeek (by simp [hkind])
  rw [hread'] at hread
  cases hread
  have hrest : r₂.stream.tokens = rest := congrArg Cursor.tokens hcursor
  exact ⟨token, [], by rw [hrest]; exact htokens⟩

/-- What an element reads again and again takes a token every time: a rule that fits and succeeds, and an operator. -/
def RoundsTake (l : Layers) (settings : ParseSettings) : Element Phrase → Prop
  | .repeated q => ∀ levels r r₁ node r₂, (grammar l).fits q r = .ok true r₁ →
      (grammar l).parseWithin settings levels q r₁ = .ok node r₂ → TakesSome r r₂
  | .expression _ table _ => ∀ r r₁ precedence token r₂, nextOperator table r = .ok (some precedence) r₁ →
      read r₁ = .ok token r₂ → TakesSome r r₂
  | _ => True

theorem roundsTake_element (h : element ∈ ((grammar l).rule p).elements) :
    RoundsTake l settings element := by
  have hregular := regular_elements l p element h
  cases element with
  | repeated q =>
    intro levels r r₁ node r₂ hfits hparse
    have hsame := (fits_takes_nothing l q r).1
    rw [hfits] at hsame
    obtain ⟨first, more, htokens⟩ := takesSome_parseWithin hregular.repeated hparse
    exact ⟨first, more, hsame.symm.trans htokens⟩
  | expression q table shape =>
    intro r r₁ precedence token r₂ hnext hread
    exact takesSome_operator hnext hread
  | _ => trivial

/-- Reading ends, for all layers and settings and whatever the stream gives.  The failure of a loop that is cut short
is never the answer, and larger bounds give the same one.  Every unit takes a token, and so does every round of
every loop.  The rules that are asked whether they fit never come back to one of them, and asking takes nothing.  Every
look at the stream, at whatever place, and every token that is taken scan some of the lines that are left. -/
theorem reading_ends (l : Layers) (settings : ParseSettings) (s : Stream) (site : Site) :
    (parseAll l settings (.start s site)).1.failure ≠ some .unfinished ∧
    (∀ rounds bound, s.size < rounds → s.size < bound →
      (parseUnits l settings rounds ⟨s, bound, site, #[]⟩).1 = (parseAll l settings (.start s site)).1) ∧
    (∀ r unit r', parseUnit l settings r = .ok unit r' → TakesSome r r') ∧
    (∀ p, ∀ element ∈ ((grammar l).rule p).elements, RoundsTake l settings element) ∧
    (∀ p, ¬ Relation.TransGen (AsksFirst l) p p) ∧
    (∀ p r, (finalState ((grammar l).fits p r)).stream.tokens = r.stream.tokens ∧
      ∀ r', (grammar l).fits p r ≠ .error .unfinished r') ∧
    (∀ i (s : Stream), s.Advances (finalState (Stream.peek i s))) ∧
    ∀ s : Stream, s.Advances (finalState (Stream.read s)) := by
  have hroom := Reading.length_tokens_start s site
  have hends := parseUnits_ne_unfinished (l := l) settings hroom hroom
  refine ⟨hends, ?_, ?_, ?_, not_asksFirst_cycle, fits_takes_nothing l, Stream.advances_peek, Stream.advances_read⟩
  · intro rounds bound hrounds hbound
    exact parseUnits_extends (r := .start s site) hrounds hbound hends
  · intro r unit r' h
    exact takesSome_parseWithin rfl h
  · intro p element h
    exact roundsTake_element h

end Language

end StoneLang
