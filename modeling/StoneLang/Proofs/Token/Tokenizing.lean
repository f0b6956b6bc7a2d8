/-
  The tokens of a text, line by line.

  PROGRAM: `Token.tokenize`, the tokens of a whole text up to its first bad line.

  SPEC: the tokens of a text of whole lines with more text after it are its own tokens and then those of the other text,
  as many lines further down; and it makes no difference how the lines end, nor whether the last one does
  (`Token.tokenize_line_by_line`).

  A line is scanned without a look at the others, and its number goes into its tokens and its fault only
  (`Token.scanFrom_moved`); of its end the scan sees nothing (`Token.tokenizeLines_congr`).
-/
import StoneLang.Proofs.Token.Beginnings

namespace StoneLang

/-- The failure with its line `n` lines further down. -/
def Failure.moved (n : Nat) : Failure → Failure
  | .diagnostic d => .diagnostic { d with line := d.line + n }
  | failure => failure

namespace Token

/-- The token `n` lines further down. -/
def moved (n : Nat) (t : Token) : Token := { t with line := t.line + n }

/-! ## Lines further down -/

theorem Lexeme.token?_moved (line : Int) (n : Nat) (lexeme : Lexeme) :
    lexeme.token? (line + n) = (lexeme.token? line).map (Option.map (moved n)) := by
  cases lexeme with
  | comment | string => rfl
  | number digits => cases hn : Decimal.unsigned? digits <;> simp only [token?, hn] <;> rfl
  | symbol spelling => by_cases hquote : spelling = [Text.quoteMark] <;> simp only [token?, hquote, if_true, if_false] <;> rfl

theorem scanFrom_moved (line : Int) (n covered : Nat) (content : Text) :
    scanFrom (line + n) covered content = (scanFrom line covered content).map (List.map (moved n)) id := by
  induction content generalizing covered with
  | nil => cases covered <;> rfl
  | cons b rest ih =>
    cases covered with
    | succ covered => exact ih covered
    | zero =>
      unfold scanFrom
      split
      · exact ih 0
      · cases lexeme? b rest with
        | none => rfl
        | some lexeme =>
          dsimp only
          rw [Lexeme.token?_moved]
          cases lexeme.token? line with
          | error cause => rfl
          | ok token =>
            simp only [Except.map, ih]
            cases token <;> simp [Prod.map]

theorem scanLine_moved (line : Int) (n : Nat) (content : Text) :
    scanLine (line + n) content = (scanLine line content).map (List.map (moved n)) id :=
  scanFrom_moved line n 0 content.chomp

theorem tokenizeLines_moved (line n : Nat) (lines : List Text) : tokenizeLines none (line + n) lines
    = (tokenizeLines none line lines).map (List.map (moved n)) (Option.map (Failure.moved n)) := by
  induction lines generalizing line with
  | nil => simp [tokenizeLines, moved, endOfInput]
  | cons content rest ih =>
    have hnext : line + n + 1 = line + 1 + n := by omega
    have hline : ((line + n : Nat) : Int) + 1 = (line : Int) + 1 + n := by omega
    rw [tokenizeLines, tokenizeLines, hnext, ih, hline, scanLine_moved]
    cases scanLine (line + 1) content with
    | mk tokens fault =>
      cases fault with
      | none => simp [moved, endOfLine]
      | some cause => simp [Failure.moved, Failure.atLine]

/-! ## More lines -/

/-- Lines without a fault end with the end of the input, and then go on with the tokens of more lines instead. -/
theorem tokenizeLines_append {line : Nat} {lines : List Text} (h : (tokenizeLines none line lines).2 = none) (more : List Text) :
    ∃ tokens, (tokenizeLines none line lines).1 = tokens ++ [endOfInput ((line + lines.length : Nat) : Int)] ∧
      tokenizeLines none line (lines ++ more) = (tokenizeLines none (line + lines.length) more).map (tokens ++ ·) id := by
  induction lines generalizing line with
  | nil => exact ⟨[], rfl, rfl⟩
  | cons content rest ih =>
    have hlines : line + (content :: rest).length = line + 1 + rest.length := by
      rw [List.length_cons]
      omega
    rw [tokenizeLines] at h
    rw [List.cons_append, tokenizeLines, tokenizeLines, hlines]
    cases hscan : scanLine (line + 1) content with
    | mk tokens fault =>
      rw [hscan] at h
      cases fault with
      | some cause => cases h
      | none =>
        obtain ⟨others, htokens, happend⟩ := ih h
        refine ⟨tokens ++ endOfLine (line + 1) :: others, ?_, ?_⟩
        · simp [htokens]
        · simp [happend, Prod.map]

/-! ## The ends of lines -/

theorem tokenizeLines_congr {broken : Option Text} {line : Nat} {lines others : List Text}
    (h : lines.map Text.chomp = others.map Text.chomp) : tokenizeLines broken line lines = tokenizeLines broken line others := by
  induction lines generalizing line others with
  | nil => rw [List.map_eq_nil_iff.mp h.symm]
  | cons content rest ih =>
    obtain ⟨other, others, rfl, hhead, htail⟩ := List.map_eq_cons_iff.mp h.symm
    rw [tokenizeLines, tokenizeLines, scanLine, scanLine, hhead, ih htail.symm]

end Token

namespace Text

/-- The text with a carriage return before every line feed. -/
def withReturns (t : Text) : Text := t.flatMap fun b => if b = newline then [carriageReturn, newline] else [b]

theorem splitLines_withReturns (t : Text) :
    t.withReturns.splitLines = (t.splitLines.1.map (· ++ [carriageReturn]), t.splitLines.2) := by
  induction t with
  | nil => rfl
  | cons b rest ih =>
    rw [withReturns] at ih
    rw [withReturns, List.flatMap_cons, splitLines_cons b]
    have hreturn : carriageReturn ≠ newline := by decide
    by_cases hb : b = newline
    · simp [splitLines_cons, hb, ih, hreturn]
    · cases hlines : (splitLines rest).1 <;> simp [splitLines_cons, hb, ih, hlines]

theorem splitLines_newline (t : Text) : (t ++ [newline]).splitLines = (t.splitLines.1 ++ [t.splitLines.2], []) := by
  induction t with
  | nil => rfl
  | cons b rest ih =>
    rw [List.cons_append, splitLines_cons, splitLines_cons, ih]
    by_cases hb : b = newline
    · simp [hb]
    · cases (splitLines rest).1 <;> simp [hb]

theorem length_splitLines (t : Text) : t.splitLines.1.length = t.count newline := by
  induction t with
  | nil => rfl
  | cons b rest ih =>
    rw [splitLines_cons]
    by_cases hb : b = newline
    · simp [hb, ih]
    · rw [if_neg hb, List.count_cons_of_ne hb, ← ih]
      cases (splitLines rest).1 <;> rfl

theorem chomp_return (t : Text) : (t ++ [carriageReturn]).chomp = t.chomp := by
  have hend : isLineEnd carriageReturn = true := by decide
  simp [chomp, dropTrailing, hend]

theorem splitLines_last {t : Text} (hne : t ≠ []) (hends : ¬t.EndsLine) : t.splitLines.2 ≠ [] := by
  induction t with
  | nil => exact absurd rfl hne
  | cons b rest ih =>
    rw [splitLines_cons]
    cases hrest : rest with
    | nil =>
      have hb : b ≠ newline := by
        rintro rfl
        exact hends (by simp [EndsLine, hrest])
      simp [hb, splitLines]
    | cons c others =>
      rw [← hrest]
      have hlast : (splitLines rest).2 ≠ [] := by
        refine ih (by simp [hrest]) ?_
        rwa [EndsLine, hrest, List.getLast?_cons_cons, ← hrest] at hends
      by_cases hb : b = newline
      · simpa [hb] using hlast
      · cases (splitLines rest).1 <;> simp [hb, hlast]

end Text

namespace Token

open Text (newline carriageReturn)

theorem tokenize_withReturns (source : Text) : tokenize source.withReturns = tokenize source := by
  refine tokenizeLines_congr ?_
  rw [Stream.deliveredLines, Stream.deliveredLines, Text.splitLines_withReturns]
  dsimp only
  split <;> simp [Function.comp_def, Text.chomp_return]

theorem tokenize_newline {source : Text} (hne : source ≠ []) (hends : ¬source.EndsLine) :
    tokenize (source ++ [newline]) = tokenize source := by
  rw [tokenize, tokenize, Stream.deliveredLines, Stream.deliveredLines, Text.splitLines_newline]
  have hlast := Text.splitLines_last hne hends
  simp [hlast]

/-- The tokens of a text of whole lines, then those of the text after it as many lines further down, with its failure;
whatever ends the lines. -/
theorem tokenize_line_by_line :
    (∀ first more : Text, first.EndsLine → (tokenize first).2 = none →
      tokenize (first ++ more)
        = ((tokenize first).1.dropLast ++ (tokenize more).1.map (moved (first.count newline)),
          (tokenize more).2.map (Failure.moved (first.count newline))) ∧
      (tokenize first).1.getLast? = some (endOfInput (first.count newline))) ∧
    (∀ source : Text, tokenize source.withReturns = tokenize source) ∧
    ∀ source : Text, source ≠ [] → ¬source.EndsLine → tokenize (source ++ [newline]) = tokenize source := by
  refine ⟨?_, tokenize_withReturns, fun source => tokenize_newline⟩
  intro first more hends hok
  obtain ⟨tokens, htokens, happend⟩ := tokenizeLines_append hok (Stream.deliveredLines more none)
  have hlines : (Stream.deliveredLines first none).length = first.count newline := by
    rw [Stream.deliveredLines_endsLine hends, Text.length_splitLines]
  rw [hlines, Nat.zero_add] at htokens happend
  have hmoved := tokenizeLines_moved 0 (first.count newline) (Stream.deliveredLines more none)
  rw [Nat.zero_add] at hmoved
  constructor
  · rw [tokenize, Stream.deliveredLines_append hends, happend, hmoved, tokenize, htokens, tokenize]
    simp [Prod.map]
  · rw [tokenize, htokens]
    simp

end Token

/-- A second line with a fault. -/
theorem tokenize_second_line :
    (Text.EndsLine (text "a // b\n") ∧ (Token.tokenize (text "a // b\n")).2 = none) ∧
    Token.tokenize (text "a // b\n" ++ text "c\n\"")
      = ([⟨.identifier, text "a", 0, 1⟩, Token.endOfLine 1, ⟨.identifier, text "c", 0, 2⟩, Token.endOfLine 2],
        some (.atLine .unterminatedString 3)) := by
  refine ⟨by decide, ?_⟩
  rw [(Token.tokenize_line_by_line.1 (text "a // b\n") (text "c\n\"") (by decide) (by decide)).1]
  decide

end StoneLang
