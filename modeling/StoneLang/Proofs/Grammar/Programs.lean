/-
  Whole texts.

  A text is read unit by unit (`Language.ReadsUnits`).  What can be read in this way the parser reads
  (`Language.parseUnits_of_reads`), unless it is too deep; and what the parser reads can be read.

  The beginning of a text and the text itself are read side by side (`Language.began_parseUnits`): either the
  beginning settles the result, units and fault; or it is over between two units; or it is over within a unit.
-/
import StoneLang.Proofs.Grammar.Beginnings
import StoneLang.Proofs.Grammar.Bounds
import StoneLang.Proofs.Grammar.Conservation

namespace StoneLang

namespace Stream

theorem isEndOfInput_tokensOf (line : Nat) (pending : List Text) :
    ∀ t ∈ tokensOf line pending, t.isEndOfInput = false := by
  intro t ht
  rcases mem_tokensOf ht with ⟨line, content, ht⟩ | ⟨line, rfl⟩
  · exact Token.isEndOfInput_scanLine rfl t ht
  · rfl

theorem isEndOfInput_ofText (source : Text) (broken : Option Text) :
    ∀ t ∈ (ofText source broken).tokens, t.isEndOfInput = false :=
  isEndOfInput_tokensOf 0 (deliveredLines source broken)

theorem stands_of_queue {s : Stream} (h : s.queue = []) : s.Stands false :=
  ⟨⟨by simp [h], by simp [h]⟩, by simp⟩

end Stream

theorem Reading.length_tokens_start (s : Stream) (site : Site) :
    (Reading.start s site).stream.tokens.length < (Reading.start s site).bound :=
  Nat.lt_succ_of_le s.length_tokens_le

namespace Language

open Parse

variable {l : Layers} {settings settings' : ParseSettings} {levels : Nat} {c c' : Cursor} {units : List Node}

/-! ## Units -/

/-- What is read unit by unit. -/
inductive ReadsUnits (l : Layers) (levels : Nat) : Cursor → List Node → Cursor → Prop where
  | nil {c : Cursor} : ReadsUnits l levels c [] c
  | cons {c c₁ c₂ : Cursor} {unit : Node} {units : List Node} (first : Reads l levels .program c unit c₁)
      (rest : ReadsUnits l levels c₁ units c₂) : ReadsUnits l levels c (unit :: units) c₂

theorem Reads.suffix (h : Reads l levels p c node c') : c'.tokens <:+ c.tokens := by
  obtain ⟨taken, hsplit, -⟩ := conserves_reads h
  exact ⟨taken, hsplit.symm⟩

variable {r r' : Reading} {rounds : Nat}

theorem atEnd_eq (r : Reading) :
    atEnd r = match Stream.fill 0 r.stream with
      | .ok _ s => .ok (s.queue.head?.getD (.endOfInput s.line)).isEndOfInput { r with stream := s }
      | .error e s => .error e { r with stream := s } := by
  have hasks : Asks atEnd Token.isEndOfInput := rfl
  rw [asks_apply hasks]
  unfold peek onStream
  rw [Stream.peek_eq]
  cases Stream.fill 0 r.stream <;> rfl

/-- What the parser reads of a text can be read; if it finds no fault, that is the whole text. -/
theorem reads_of_parseUnits (hinside : ∀ t ∈ r.cursor.tokens, t.isEndOfInput = false) :
    ∃ c, ReadsUnits l settings.maxDepth r.cursor (parseUnits l settings rounds r).1.units c ∧
      ((parseUnits l settings rounds r).1.failure = none → c.tokens = [] ∧ ∃ t, c.Sees t) := by
  induction rounds generalizing r with
  | zero => exact ⟨r.cursor, .nil, fun h => by cases h⟩
  | succ rounds ih =>
    rw [parseUnits_turn]
    cases hturn : turn l settings r with
    | error e r' => exact ⟨r.cursor, .nil, by simp⟩
    | ok found r' =>
      cases found with
      | none =>
        obtain ⟨-, t, hsees, hfinished⟩ := atEnd_cases (turn_eq_none hturn)
        refine ⟨r.cursor, .nil, fun _ => ⟨?_, t, hsees⟩⟩
        rcases hsees with hhead | ⟨hnil, -⟩
        · rw [hinside t (List.mem_of_mem_head? hhead)] at hfinished
          cases hfinished
        · exact hnil
      | some unit =>
        have hfirst := reads_of_turn hturn
        obtain ⟨c, hrest, hwhole⟩ := ih fun t ht => hinside t (hfirst.suffix.subset ht)
        exact ⟨c, .cons hfirst hrest, hwhole⟩

theorem parseUnits_of_reads (h : ReadsUnits l levels c units c') (hwhole : c'.tokens = [])
    (hinside : ∀ t ∈ c.tokens, t.isEndOfInput = false) (hrounds : c.tokens.length < rounds)
    (hshows : r.Shows c limit) :
    (parseUnits l settings rounds r).1 = ⟨units, none⟩ ∨
      settings.maxDepth < levels ∧ ∃ e, (parseUnits l settings rounds r).1.failure = some e ∧ e.IsTooDeep := by
  have hasks : Asks atEnd Token.isEndOfInput := rfl
  induction h generalizing rounds r with
  | @nil c =>
    obtain ⟨rounds, rfl⟩ : ∃ n, rounds = n + 1 := ⟨rounds - 1, by omega⟩
    obtain ⟨t, r₁, hend, hsees, -⟩ := asks_shows hasks hshows
    have hinput : t.isEndOfInput = true := by
      rcases hsees with hhead | ⟨-, -, line, rfl⟩
      · rw [hwhole] at hhead
        cases hhead
      · rfl
    rw [hinput] at hend
    refine .inl ?_
    unfold parseUnits
    rw [hend]
  | @cons c c₁ c₂ unit units first rest ih =>
    obtain ⟨rounds, rfl⟩ : ∃ n, rounds = n + 1 := ⟨rounds - 1, by omega⟩
    have hless : c₁.tokens.length < c.tokens.length := first.shrinks.2 rfl
    obtain ⟨t, more, htokens⟩ : ∃ t more, c.tokens = t :: more := by
      cases htokens : c.tokens with
      | nil => rw [htokens] at hless; cases hless
      | cons t more => exact ⟨t, more, rfl⟩
    obtain ⟨r₁, hpeek, hshows₁⟩ := peek_token hshows htokens
    have hend : atEnd r = .ok false r₁ := by
      rw [asks_apply hasks, hpeek]
      dsimp only
      rw [hinside t (by rw [htokens]; exact List.mem_cons_self)]
    unfold parseUnits
    rw [hend]
    dsimp only
    rcases gives_parseWithin settings settings.maxDepth first hshows₁ with ⟨r₂, hparse, hshows₂⟩ | ⟨hshort, e, r₂, hparse, hdeep⟩
    · rw [show parseUnit l settings r₁ = _ from hparse]
      dsimp only
      rcases ih hwhole (fun t ht => hinside t (first.suffix.subset ht)) (show c₁.tokens.length < rounds by omega) hshows₂ with
        hrest | ⟨hshort, e, herror, hdeep⟩
      · exact .inl (by rw [hrest])
      · exact .inr ⟨hshort, e, herror, hdeep⟩
    · rw [show parseUnit l settings r₁ = _ from hparse]
      exact .inr ⟨hshort, e, rfl, hdeep⟩

/-! ## The beginning of a text -/

/-- How the reading of the beginning of a text, from `r`, and the reading of the longer text end. -/
inductive Began (l : Layers) (settings : ParseSettings) (reason : Text) (extra : List Text) (r : Reading) :
    Units → Units → Prop where
  | fault {units : List Node} {cause : Cause} {line : Int} (settled : cause.isSettled = true) :
      Began l settings reason extra r ⟨units, some (.atLine cause line)⟩ ⟨units, some (.atLine cause line)⟩
  | between {units : List Node} {longer : Units} (scanned : r.stream.Scannable) (starts : units <+: longer.units)
      (ends : extra = [] → longer = ⟨units, none⟩) :
      Began l settings reason extra r ⟨units, some (.plain reason)⟩ longer
  | within {units : List Node} {longer : Units} {r₁ r₂ : Reading} (scanned : r.stream.Scannable)
      (reads : ReadsUnits l settings.maxDepth r.cursor units r₁.cursor) (stands : r₁.stream.Stands true)
      (starved : parseUnit l settings r₁ = .error (.plain reason) r₂) (starts : units <+: longer.units)
      (ends : extra = [] → ∃ e, longer = ⟨units, some e⟩ ∧ e.isIncomplete = true) :
      Began l settings reason extra r ⟨units, some (.plain reason)⟩ longer

/-- The units from a reading on, the first one starting there. -/
def unitsFrom (l : Layers) (settings : ParseSettings) (rounds : Nat) (r : Reading) : Units :=
  match parseUnit l settings r with
  | .error failure _ => ⟨[], some failure⟩
  | .ok unit r =>
    let rest := (parseUnits l settings rounds r).1
    ⟨unit :: rest.units, rest.failure⟩

theorem parseUnits_succ (rounds : Nat) (r : Reading) :
    (parseUnits l settings (rounds + 1) r).1 = match Stream.fill 0 r.stream with
      | .error e _ => ⟨[], some e⟩
      | .ok _ s =>
        if (s.queue.head?.getD (.endOfInput s.line)).isEndOfInput then ⟨[], none⟩
        else unitsFrom l settings rounds { r with stream := s } := by
  unfold parseUnits unitsFrom
  rw [atEnd_eq]
  cases Stream.fill 0 r.stream with
  | error e s => rfl
  | ok _ s =>
    dsimp only
    cases (s.queue.head?.getD (.endOfInput s.line)).isEndOfInput with
    | true => rfl
    | false =>
      dsimp only
      cases parseUnit l settings { r with stream := s } <;> rfl

variable {reason : Text} {extra : List Text}

theorem began_unitsFrom (hdepth : settings.maxDepth = settings'.maxDepth)
    (hbegins : r.Begins reason extra r') (hstands : r.stream.Stands true) (hbound : r.stream.tokens.length < r.bound)
    (hbound' : r'.stream.tokens.length < r'.bound)
    (hrest : ∀ unit s s', parseUnit l settings r = .ok unit s → parseUnit l settings' r' = .ok unit s' →
      s.Begins reason extra s' → s.stream.Stands false →
      Began l settings reason extra s (parseUnits l settings rounds s).1 (parseUnits l settings' rounds' s').1) :
    Began l settings reason extra r (unitsFrom l settings rounds r) (unitsFrom l settings' rounds' r') := by
  have hunit := @follows_parseUnit l reason extra _ _ hdepth r r' hbegins hstands
  have hlasts := fun s => @parseUnit_ne_unfinished l settings r s hbound
  have hlasts' := fun s => @parseUnit_ne_unfinished l settings' r' s hbound'
  unfold unitsFrom
  cases hleft : parseUnit l settings r with
  | error e s =>
    rw [hleft] at hunit
    cases hright : parseUnit l settings' r' with
    | error e' s' =>
      rw [hright] at hunit
      cases hunit with
      | fault settled => exact .fault settled
      | cut => exact absurd hleft (hlasts s)
      | starved scanned incomplete =>
        refine .within scanned .nil hstands hleft List.nil_prefix fun hextra => ⟨e', rfl, ?_⟩
        exact (incomplete hextra).resolve_right fun he => hlasts' s' (he ▸ hright)
    | ok unit s' =>
      rw [hright] at hunit
      cases hunit with
      | cut => exact absurd hleft (hlasts s)
      | stopped scanned exhausted =>
        exact .within scanned .nil hstands hleft List.nil_prefix fun hextra => (exhausted hextra).1.elim
  | ok unit s =>
    rw [hleft] at hunit
    cases hright : parseUnit l settings' r' with
    | error e' s' =>
      rw [hright] at hunit
      cases hunit
    | ok unit' s' =>
      rw [hright] at hunit
      cases hunit with
      | both begins holds =>
        have hfirst : Reads l settings.maxDepth .program r.cursor unit s.cursor := reads_of_parseWithin hleft
        have hothers := hrest unit s s' hleft hright begins holds.1
        dsimp only
        generalize (parseUnits l settings rounds s).1 = rest at hothers
        generalize (parseUnits l settings' rounds' s').1 = rest' at hothers
        cases hothers with
        | fault settled => exact .fault settled
        | between scanned starts ends =>
          refine .between (holds.2 scanned) (List.cons_prefix_cons.mpr ⟨rfl, starts⟩) fun hextra => ?_
          rw [ends hextra]
        | within scanned reads stands starved starts ends =>
          refine .within (holds.2 scanned) (.cons hfirst reads) stands starved
            (List.cons_prefix_cons.mpr ⟨rfl, starts⟩) fun hextra => ?_
          obtain ⟨e, hlonger, hincomplete⟩ := ends hextra
          exact ⟨e, by rw [hlonger], hincomplete⟩

theorem began_parseUnits (hdepth : settings.maxDepth = settings'.maxDepth) (hle : rounds ≤ rounds')
    (hbegins : r.Begins reason extra r') (hstands : r.stream.Stands false) (hrounds : r.stream.tokens.length < rounds)
    (hbound : r.stream.tokens.length < r.bound) (hbound' : r'.stream.tokens.length < r'.bound) :
    Began l settings reason extra r (parseUnits l settings rounds r).1 (parseUnits l settings' rounds' r').1 := by
  induction rounds generalizing rounds' r r' with
  | zero => omega
  | succ rounds ih =>
    obtain ⟨rounds', rfl⟩ : ∃ n, rounds' = n + 1 := ⟨rounds' - 1, by omega⟩
    have htokens := Stream.tokens_fill 0 r.stream
    have htokens' := Stream.tokens_fill 0 r'.stream
    have hbroken := Stream.broken_fill 0 r.stream
    have hfilled := Stream.filled_fill hbegins.stream hstands
    rw [parseUnits_succ, parseUnits_succ]
    generalize Stream.fill 0 r.stream = left at hfilled htokens hbroken
    generalize Stream.fill 0 r'.stream = right at hfilled htokens'
    cases hfilled with
    | fault settled => exact .fault settled
    | @starved s _ loose reflects spent ended =>
      have hscanned : r.stream.Scannable := reflects (by rw [Stream.Scannable, spent]; trivial)
      refine .between hscanned List.nil_prefix fun hextra => ?_
      obtain ⟨s', rfl, hexhausted⟩ := ended hextra
      dsimp only
      rw [hexhausted.queue]
      rfl
    | @next s s' begins stands reflects =>
      change s.tokens = r.stream.tokens at htokens
      change s.broken = r.stream.broken at hbroken
      change s'.tokens = r'.stream.tokens at htokens'
      obtain ⟨t, rest, hqueue⟩ : ∃ t rest, s.queue = t :: rest := by
        cases hqueue : s.queue with
        | nil => exact absurd hqueue (stands.2 rfl)
        | cons t rest => exact ⟨t, rest, rfl⟩
      have hinside : t.isEndOfInput = false := stands.1.inside t (by rw [hqueue]; exact List.mem_cons_self)
      have hcursor : Reading.cursor { r with stream := s } = r.cursor := by
        simp only [Reading.cursor, htokens, hbroken]
      dsimp only
      rw [begins.queue, hqueue]
      simp only [List.head?_cons, Option.getD_some, hinside, Bool.false_eq_true, if_false]
      have hunits : Began l settings reason extra { r with stream := s }
          (unitsFrom l settings rounds { r with stream := s })
          (unitsFrom l settings' rounds' { r' with stream := s' }) := by
        have hroom : s.tokens.length < r.bound := htokens ▸ hbound
        have hroom' : s'.tokens.length < r'.bound := htokens' ▸ hbound'
        refine began_unitsFrom hdepth ⟨begins, hbegins.site, hbegins.bound⟩ stands hroom hroom' fun unit s₁ s₁' hleft hright hbegins₁ hstands₁ => ?_
        have hless : s₁.stream.tokens.length < s.tokens.length := (reads_of_parseWithin hleft).shrinks.2 rfl
        have hless' : s₁'.stream.tokens.length < s'.tokens.length := (reads_of_parseWithin hright).shrinks.2 rfl
        have hsame : s₁.bound = r.bound := bound_parseUnit (r := { r with stream := s }) hroom hleft
        have hsame' : s₁'.bound = r'.bound := bound_parseUnit (r := { r' with stream := s' }) hroom' hright
        rw [htokens] at hless
        rw [htokens'] at hless'
        exact ih (by omega) hbegins₁ hstands₁ (by omega) (by omega) (by omega)
      generalize unitsFrom l settings rounds { r with stream := s } = units at hunits
      generalize unitsFrom l settings' rounds' { r' with stream := s' } = units' at hunits
      cases hunits with
      | fault settled => exact .fault settled
      | between scanned starts ends => exact .between (reflects scanned) starts ends
      | within scanned reads stands starved starts ends =>
        rw [hcursor] at reads
        exact .within (reflects scanned) reads stands starved starts ends

/-- The units of a text, its sites numbered from the given one. -/
def unitsOf (l : Layers) (settings : ParseSettings) (source : Text) (site : Site) : Units :=
  (parseAll l settings (.start (.ofSource source) site)).1

theorem clean_of_unitsOf {source : Text} {site : Site} (h : (unitsOf l settings source site).failure = none) :
    (Stream.ofSource source).Clean := by
  let r := Reading.start (.ofSource source) site
  -- read as the beginning of itself, it breaks off between two units
  let broken : Reading := { r with stream := { r.stream with broken := some [] } }
  have hroom : r.stream.tokens.length < r.bound := Reading.length_tokens_start _ _
  have hbegins : broken.Begins [] [] r := ⟨⟨rfl, rfl, rfl, rfl, (List.append_nil _).symm⟩, rfl, Nat.le_refl _⟩
  have hstands : broken.stream.Stands false := Stream.stands_of_queue rfl
  have hdepth : settings.maxDepth = settings.maxDepth := rfl
  have hbegan := began_parseUnits (l := l) hdepth (Nat.le_refl r.bound) hbegins hstands hroom hroom hroom
  change (parseUnits l settings r.bound r).1.failure = none at h
  generalize (parseUnits l settings r.bound broken).1 = left at hbegan
  generalize (parseUnits l settings r.bound r).1 = right at hbegan h
  cases hbegan with
  | fault settled => cases h
  | between scanned starts ends => exact ⟨rfl, scanned⟩
  | within scanned reads stands starved starts ends => exact ⟨rfl, scanned⟩

end Language

end StoneLang
