/-
  When a text wants more.

  PROGRAM: `Language.unitsOf` reads a text of whole lines, and `Failure.isIncomplete` tells from the failure whether
           more lines may mend it.
  SPEC:    the test is exact.  A text that is read has settled its units; a text that is incomplete can be continued
           to one that is read; any other failure stays, whatever comes after it
           (`Language.continuation_is_exact`).

  The crux is that a text and all its continuations are compared with one reading: that of the text as the beginning
  of a longer one, which breaks off where the text ends (`Language.began`).  Where it breaks off within a unit,
  closing brackets complete the unit (`Language.closable_unit`).
-/
import StoneLang.Proofs.Grammar.Closing
import StoneLang.Proofs.Grammar.Programs

namespace StoneLang

/-! ## Closing words as a line -/

namespace Token

theorem alone_of_closingMark : ∀ word ∈ closingMarks, ∃ b, word = [b] ∧ standsAlone b = true := by
  have hmarks : closingMarks = [[0x7b], [0x7d], [0x29], [0x5d]] := by decide
  rw [hmarks]
  intro word hword
  simp only [List.mem_cons, List.not_mem_nil, or_false] at hword
  rcases hword with rfl | rfl | rfl | rfl <;> exact ⟨_, rfl, by decide⟩

theorem scanFrom_marks {words : List Text} (h : ∀ word ∈ words, word ∈ closingMarks) (line : Int) :
    scanFrom line 0 words.flatten = (words.map (Token.mark line), none) := by
  induction words with
  | nil => rfl
  | cons word rest ih =>
    obtain ⟨b, rfl, hb⟩ := alone_of_closingMark word (h word List.mem_cons_self)
    have hrest := ih fun other hother => h other (List.mem_cons_of_mem _ hother)
    rw [List.flatten_cons, List.singleton_append, scanFrom_standsAlone hb, hrest]
    rfl

theorem chomp_marks {words : List Text} (h : ∀ word ∈ words, word ∈ closingMarks) :
    Text.chomp words.flatten = words.flatten := by
  have hends : ∀ b ∈ words.flatten.reverse, Text.isLineEnd b = false := by
    intro b hb
    obtain ⟨word, hword, hmem⟩ := List.mem_flatten.mp (List.mem_reverse.mp hb)
    obtain ⟨c, rfl, hc⟩ := alone_of_closingMark word (h word hword)
    obtain rfl := List.mem_singleton.mp hmem
    have hone := checkedBytes (fun b => !standsAlone b || !Text.isLineEnd b) (by decide) b
    simpa [hc] using hone
  unfold Text.chomp Text.dropTrailing
  cases hreverse : words.flatten.reverse with
  | nil => rw [List.dropWhile_nil, ← hreverse, List.reverse_reverse]
  | cons b rest =>
    have hb := hends b (by rw [hreverse]; exact List.mem_cons_self)
    rw [List.dropWhile_cons_of_neg (by simp [hb]), ← hreverse, List.reverse_reverse]

theorem scanLine_marks {words : List Text} (h : ∀ word ∈ words, word ∈ closingMarks) (line : Int) :
    scanLine line words.flatten = (words.map (Token.mark line), none) := by
  unfold scanLine
  rw [chomp_marks h, scanFrom_marks h]

end Token

theorem Stream.deliveredLines_marks {words : List Text} (h : ∀ word ∈ words, word ∈ closingMarks) :
    deliveredLines (words.flatten ++ [Text.newline]) none = [words.flatten] := by
  have hbytes : ∀ b ∈ words.flatten, b ≠ Text.newline := by
    rintro b hb rfl
    obtain ⟨word, hword, hmem⟩ := List.mem_flatten.mp hb
    obtain ⟨c, rfl, hc⟩ := Token.alone_of_closingMark word (h word hword)
    rw [← List.mem_singleton.mp hmem] at hc
    cases hc
  have hsplit : ∀ line : Text, (∀ b ∈ line, b ≠ Text.newline) → (line ++ [Text.newline]).splitLines = ([line], []) := by
    intro line hline
    induction line with
    | nil => rfl
    | cons b rest ih =>
      rw [List.cons_append, Text.splitLines_cons, ih fun c hc => hline c (List.mem_cons_of_mem _ hc),
        if_neg (hline b List.mem_cons_self)]
  simp [deliveredLines, hsplit _ hbytes]

namespace Language

open Parse

variable {l : Layers} {settings : ParseSettings} {source : Text} {site : Site}

/-! ## The text as a beginning -/

/-- The reading of a text that is the beginning of a longer one. -/
def beginning (source : Text) (site : Site) : Reading :=
  { Reading.start (.ofSource source) site with stream := { Stream.ofSource source with broken := some [] } }

theorem began (l : Layers) (settings : ParseSettings) (site : Site) (h : source.EndsLine) (more : Text) :
    Began l settings [] (Stream.deliveredLines more none) (beginning source site)
      (parseUnits l settings (beginning source site).bound (beginning source site)).1
      (unitsOf l settings (source ++ more) site) := by
  have hlines := Stream.deliveredLines_append h more
  have hbegins : (beginning source site).Begins [] (Stream.deliveredLines more none)
      (.start (.ofSource (source ++ more)) site) :=
    ⟨⟨rfl, rfl, rfl, rfl, hlines⟩, rfl, Nat.succ_le_succ (Stream.size_le_append h more)⟩
  have hroom : (beginning source site).stream.tokens.length < (beginning source site).bound :=
    Reading.length_tokens_start (.ofSource source) site
  exact began_parseUnits rfl hbegins.bound hbegins (Stream.stands_of_queue rfl) hroom hroom
    (Reading.length_tokens_start _ _)

/-! ## Units in a longer text -/

theorem ReadsUnits.prolong (h : ReadsUnits l levels c units c')
    (hopen : c.finished = false) :
    c'.finished = false ∧ ∀ more, ReadsUnits l levels (c.upTo more) units (c'.upTo more) := by
  induction h with
  | nil => exact ⟨hopen, fun _ => .nil⟩
  | cons first rest ih =>
    obtain ⟨hopen₁, hfirst⟩ := prolongs_reads l levels .program first hopen
    obtain ⟨hopen₂, hrest⟩ := ih hopen₁
    exact ⟨hopen₂, fun more => .cons (hfirst more) (hrest more)⟩

theorem ReadsUnits.snoc
    (h : ReadsUnits l levels c units c₁) (hlast : Reads l levels .program c₁ unit c₂) :
    ReadsUnits l levels c (units ++ [unit]) c₂ := by
  induction h with
  | nil => exact .cons hlast .nil
  | cons first rest ih => exact .cons first (ih hlast)

theorem exists_completion (h : source.EndsLine) {units : List Node} {r₁ r₂ : Reading}
    (hscans : (Stream.ofSource source).Scannable)
    (hreads : ReadsUnits l settings.maxDepth (beginning source site).cursor units r₁.cursor)
    (hstands : r₁.stream.Stands true) (hstarved : parseUnit l settings r₁ = .error (.plain []) r₂) :
    ∃ more, (unitsOf l settings (source ++ more) site).failure = none := by
  obtain ⟨hopen, hlonger⟩ := hreads.prolong rfl
  have hbroken : r₁.stream.broken ≠ none := by
    intro hnone
    simp [Reading.cursor, hnone] at hopen
  obtain ⟨words, hwords, hcloses⟩ := closable_unit ⟨hbroken, hstands⟩ ⟨[], r₂, hstarved⟩
  let lines := Stream.deliveredLines source none
  obtain ⟨unit, c', hunit, hends⟩ := hcloses (lines.length + 1)
  refine ⟨words.flatten ++ [Text.newline], ?_⟩
  let stream := Stream.ofSource (source ++ (words.flatten ++ [Text.newline]))
  have hpending : stream.pending = lines ++ [words.flatten] := by
    show Stream.deliveredLines _ none = _
    rw [Stream.deliveredLines_append h, Stream.deliveredLines_marks hwords]
  have hline : Token.scanLine ((lines.length + 1 : Nat) : Int) words.flatten = _ := Token.scanLine_marks hwords _
  -- the tokens of the longer text are those of the text, the closing words and the end of their line
  have htokens : stream.tokens = (Stream.ofSource source).tokens
      ++ (words.map (Token.mark (lines.length + 1 : Nat)) ++ [Token.endOfLine (lines.length + 1 : Nat)]) := by
    show Stream.tokensOf 0 stream.pending = _
    rw [hpending, Stream.tokensOf_append]
    simp only [Stream.tokensOf, Nat.zero_add]
    rw [show ((lines.length : Int) + 1) = ((lines.length + 1 : Nat) : Int) by omega, hline]
    simp
    rfl
  have hclean : stream.Clean := by
    refine ⟨rfl, ?_⟩
    rw [hpending]
    refine Stream.scans_append.mpr ⟨hscans, ?_, trivial⟩
    show (Token.scanLine (((0 + lines.length : Nat) : Int) + 1) words.flatten).2 = none
    rw [Token.scanLine_marks hwords]
  let start := Reading.start stream site
  have hcursor : start.cursor = (beginning source site).cursor.upTo
      (words.map (Token.mark (lines.length + 1 : Nat)) ++ [Token.endOfLine (lines.length + 1 : Nat)]) := by
    show Cursor.mk stream.tokens site true = _
    rw [htokens]
    rfl
  have hroom : start.stream.tokens.length < start.bound := Reading.length_tokens_start _ _
  have hinside : ∀ t ∈ start.cursor.tokens, t.isEndOfInput = false := Stream.isEndOfInput_ofText _ none
  have hall : ReadsUnits l settings.maxDepth start.cursor (units ++ [unit]) c' := by
    rw [hcursor]
    exact (hlonger _).snoc hunit
  have hread : (parseUnits l settings start.bound start).1 = ⟨units ++ [unit], none⟩ :=
    (parseUnits_of_reads hall hends hinside hroom ⟨hclean, rfl, rfl, hroom⟩).resolve_right fun hdeep =>
      Nat.lt_irrefl _ hdeep.1
  show (parseUnits l settings start.bound start).1.failure = none
  rw [hread]

/-! ## The test -/

/-- The test whether a text of whole lines wants more is exact.  If the text is read, its units are the first units of
every continuation.  If it is incomplete, some continuation is read.  If it fails in any other way, every
continuation has the same units and the same failure. -/
theorem continuation_is_exact (l : Layers) (settings : ParseSettings) (source : Text) (site : Site)
    (h : source.EndsLine) :
    match (unitsOf l settings source site).failure with
    | none => ∀ more, (unitsOf l settings source site).units <+: (unitsOf l settings (source ++ more) site).units
    | some e =>
      if e.isIncomplete then ∃ more, (unitsOf l settings (source ++ more) site).failure = none
      else ∀ more, unitsOf l settings (source ++ more) site = unitsOf l settings source site := by
  have hbegan := began l settings site h
  have hself := hbegan []
  rw [List.append_nil] at hself
  generalize (parseUnits l settings (beginning source site).bound (beginning source site)).1 = left at hbegan hself
  -- what the text itself does decides which of the three it is
  generalize hread : unitsOf l settings source site = whole at hself ⊢
  cases hself with
  | @fault units cause line settled =>
    have hcomplete : (Failure.atLine cause line).isIncomplete = false := by
      show (cause.kind == .syntaxError && cause.atEnd) = false
      have hinside : cause.atEnd = false := by simpa using (Bool.and_eq_true_iff.mp settled).2
      rw [hinside, Bool.and_false]
    dsimp only
    rw [hcomplete, if_neg Bool.false_ne_true]
    intro more
    have hmore := hbegan more
    generalize unitsOf l settings (source ++ more) site = longer at hmore
    cases hmore with
    | fault => rfl
  | between scanned starts ends =>
    obtain rfl := ends rfl
    intro more
    have hmore := hbegan more
    generalize unitsOf l settings (source ++ more) site = longer at hmore
    cases hmore with
    | between scanned starts ends => exact starts
    | within scanned reads stands starved starts ends => exact starts
  | within scanned reads stands starved starts ends =>
    obtain ⟨e, rfl, hincomplete⟩ := ends rfl
    dsimp only
    rw [hincomplete, if_pos rfl]
    exact exists_completion h scanned reads stands starved

/-- An open block is incomplete, and there is a text that completes it. -/
theorem continuation_is_exact_block :
    (text "while i < 10 \x7b\n").EndsLine ∧
      (unitsOf .full ⟨100, false⟩ (text "while i < 10 \x7b\n") 0).failure.map Failure.isIncomplete = some true ∧
      ∃ more, (unitsOf .full ⟨100, false⟩ (text "while i < 10 \x7b\n" ++ more) 0).failure = none := by
  generalize hsource : text "while i < 10 \x7b\n" = source
  have hends : source.EndsLine := by
    rw [← hsource]
    decide
  have hwants : (unitsOf .full ⟨100, false⟩ source 0).failure.map Failure.isIncomplete = some true := by
    rw [← hsource]
    decide +kernel
  have hexact := continuation_is_exact .full ⟨100, false⟩ source 0 hends
  obtain ⟨e, he, hincomplete⟩ := Option.map_eq_some_iff.mp hwants
  rw [he] at hexact
  simp only [hincomplete, if_true] at hexact
  exact ⟨hends, hwants, hexact⟩

end Language

end StoneLang
