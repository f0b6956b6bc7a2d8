/-
  String literals.

  PROGRAM: `closing` finds the end of a literal, `unescape` its value, and `scanFrom` goes on after it.

  SPEC: the end of a literal is its first quote that is no part of a pair `\"` or `\\` (`bareQuote`).  A text
  written with its quotes, backslashes and line feeds escaped (`literal`) holds no such quote but its last byte, so
  scanning gives the text back and goes on behind it (`scan_literal`).

  The one departure is a literal whose quotes are all escaped.  It is not refused: the last quote of the line ends it,
  and the backslash before that quote stands for itself (`string_ends`).
-/
import StoneLang.Token.Scan

namespace StoneLang.Token

open StoneLang.Text (quoteMark backslash letterN newline)

/-! ## Bytes that stand alone -/

def mark (line : Int) (spelling : Text) : Token := ⟨.identifier, spelling, 0, line⟩

theorem checkedBytes (check : UInt8 → Bool)
    (h : ((List.range 16).all fun high => (List.range 16).all fun low => check (UInt8.ofNat (16 * high + low))) = true)
    (b : UInt8) : check b = true := by
  have hlt := b.toNat_lt
  have hhigh : b.toNat / 16 ∈ List.range 16 := List.mem_range.mpr (by omega)
  have hlow : b.toNat % 16 ∈ List.range 16 := List.mem_range.mpr (by omega)
  have hone := List.all_eq_true.mp (List.all_eq_true.mp h _ hhigh) _ hlow
  rwa [Nat.div_add_mod, UInt8.ofNat_toNat] at hone

def standsAlone (b : UInt8) : Bool :=
  isPunctuation b && !isNameStart b && b != 0x2F && b != Text.quoteMark &&
    pairs.all fun pair => pair.head? != some b

theorem lexeme?_of_standsAlone (h : standsAlone b = true) (rest : Text) :
    lexeme? b rest = some (.symbol [b]) := by
  simp only [standsAlone, Bool.and_eq_true, Bool.not_eq_true', bne_iff_ne, ne_eq] at h
  obtain ⟨⟨⟨⟨hpunctuation, hname⟩, hslash⟩, hquote⟩, hpairs⟩ := h
  have hdigit : Decimal.isDigit b = false := by
    have hone := checkedBytes (fun b => !isPunctuation b || !Decimal.isDigit b) (by decide) b
    simpa [hpunctuation] using hone
  have hpair : pairs.contains (b :: rest.take 1) = false := by
    rw [Bool.eq_false_iff]
    intro hcontains
    have hone := List.all_eq_true.mp hpairs _ (List.contains_iff_mem.mp hcontains)
    simp at hone
  unfold lexeme?
  rw [if_neg (fun h => hslash h.1), hdigit, if_neg Bool.false_ne_true, if_neg hquote, hname, if_neg Bool.false_ne_true,
    hpair, if_neg Bool.false_ne_true, hpunctuation, if_pos rfl]

theorem scanFrom_standsAlone (h : standsAlone b = true) (line : Int) (rest : Text) :
    scanFrom line 0 (b :: rest) = (mark line [b] :: (scanFrom line 0 rest).1, (scanFrom line 0 rest).2) := by
  have hblank : Text.isTokenBlank b = false := by
    have hone := checkedBytes (fun b => !standsAlone b || !Text.isTokenBlank b) (by decide) b
    simpa [h] using hone
  have hquote : ([b] : Text) ≠ [Text.quoteMark] := by
    simp only [standsAlone, Bool.and_eq_true, bne_iff_ne, ne_eq] at h
    simpa using h.1.2
  have htoken : (Lexeme.symbol [b]).token? line = .ok (some (mark line [b])) := by
    simp only [Lexeme.token?, if_neg hquote]
    rfl
  rw [scanFrom, hblank, if_neg Bool.false_ne_true, lexeme?_of_standsAlone h]
  simp only [htoken, Lexeme.length, List.length_singleton, Nat.sub_self]
  rfl

/-! ## Where a scan passes -/

/-- Scanning `content` arrives at `rest` with `tokens` behind it. -/
inductive Reaches (line : Int) (content : Text) : List Token → Text → Prop
  | start : Reaches line content [] content
  | blank {tokens : List Token} {b : UInt8} {rest : Text} (before : Reaches line content tokens (b :: rest))
      (isBlank : Text.isTokenBlank b = true) : Reaches line content tokens rest
  | lexeme {tokens : List Token} {b : UInt8} {rest : Text} {lexeme : Lexeme} {token : Option Token}
      (before : Reaches line content tokens (b :: rest)) (notBlank : Text.isTokenBlank b = false)
      (found : lexeme? b rest = some lexeme) (read : lexeme.token? line = .ok token) :
      Reaches line content (tokens ++ token.toList) (rest.drop (lexeme.length - 1))

theorem scanFrom_covered (line : Int) (covered : Nat) (t : Text) :
    scanFrom line covered t = scanFrom line 0 (t.drop covered) := by
  induction t generalizing covered with
  | nil => simp [scanFrom]
  | cons b rest ih =>
    cases covered with
    | zero => rfl
    | succ n => rw [scanFrom, ih, List.drop_succ_cons]

variable {line : Int} {b : UInt8} {rest content t body after : Text} {tokens : List Token}

theorem scanFrom_lexeme (hblank : Text.isTokenBlank b = false)
    (hlexeme : lexeme? b rest = some lexeme) (htoken : lexeme.token? line = .ok token) :
    scanFrom line 0 (b :: rest)
      = (token.toList ++ (scanFrom line 0 (rest.drop (lexeme.length - 1))).1,
          (scanFrom line 0 (rest.drop (lexeme.length - 1))).2) := by
  rw [scanFrom, hblank, if_neg Bool.false_ne_true, hlexeme]
  simp only [htoken, scanFrom_covered line (lexeme.length - 1) rest]

theorem Reaches.scan (h : Reaches line content tokens rest) :
    scanFrom line 0 content = (tokens ++ (scanFrom line 0 rest).1, (scanFrom line 0 rest).2) := by
  induction h with
  | start => rfl
  | blank _ hblank ih => rw [ih, scanFrom, if_pos hblank]
  | lexeme _ hblank hlexeme htoken ih =>
    rw [ih, scanFrom_lexeme hblank hlexeme htoken, List.append_assoc]

/-! ## Where a literal ends -/

theorem isEscapable_of_pair (h : c = quoteMark ∨ c = backslash) : isEscapable c = true := by
  rcases h with rfl | rfl <;> decide

/-- The cut of a text at its first quote that no backslash escapes. -/
@[grind =] def bareQuote : Text → Option (Text × Text)
  | [] => none
  | [b] => if b = quoteMark then some ([], []) else none
  | b :: c :: rest =>
    if b = quoteMark then some ([], c :: rest)
    else if b = backslash ∧ (c = quoteMark ∨ c = backslash) then
      (bareQuote rest).map fun (body, after) => (b :: c :: body, after)
    else (bareQuote (c :: rest)).map fun (body, after) => (b :: body, after)

theorem bareQuote_quote (rest : Text) : bareQuote (quoteMark :: rest) = some ([], rest) := by
  cases rest <;> simp [bareQuote]

theorem bareQuote_plain (hquote : b ≠ quoteMark) (hslash : b ≠ backslash) (rest : Text) :
    bareQuote (b :: rest) = (bareQuote rest).map fun (body, after) => (b :: body, after) := by
  cases rest <;> simp [bareQuote, hquote, hslash]

theorem bareQuote_unit (hb : b = backslash) (c : UInt8) (rest : Text) :
    bareQuote (b :: c :: rest) = (bareQuote rest).map fun (body, after) => (b :: c :: body, after) := by
  subst hb
  by_cases hpair : c = quoteMark ∨ c = backslash
  · rw [bareQuote, if_neg (by decide), if_pos ⟨rfl, hpair⟩]
  · rw [bareQuote, if_neg (by decide), if_neg fun e => hpair e.2,
      bareQuote_plain (fun e => hpair (.inl e)) (fun e => hpair (.inr e)), Option.map_map]
    rfl

theorem quote_mem_of_bareQuote (h : (bareQuote t).isSome) : quoteMark ∈ t := by
  fun_induction bareQuote t with
  | case1 | case3 => cases h
  | case2 | case4 => simp
  | case5 b c rest _ _ ih | case6 b c rest _ _ ih =>
    rw [Option.isSome_map] at h
    simp [ih h]

theorem closing_eq_none_iff (t : Text) : closing t = none ↔ quoteMark ∉ t := by
  fun_induction closing t with
  | case1 => simp
  | case2 => simp
  | case3 b h => simp [Ne.symm h]
  | case4 => simp
  | case5 b c rest _ hunit ih => simp [ih, hunit.2.2]
  | case6 b c rest hquote _ ih => simp [ih, Ne.symm hquote]

theorem closing_of_bareQuote (h : (bareQuote t).isSome) : closing t = bareQuote t := by
  fun_induction closing t with
  | case1 => rfl
  | case2 | case4 => simp [bareQuote]
  | case3 b hquote => simp [bareQuote, hquote]
  | case5 b c rest hquote hunit ih =>
    rw [bareQuote_unit hunit.1, Option.isSome_map] at h
    rw [bareQuote_unit hunit.1, ih h]
  | case6 b c rest hquote hunit ih =>
    by_cases hpair : b = backslash ∧ (c = quoteMark ∨ c = backslash)
    · -- The pair is no unit for the scan because no quote follows it: then there is no bare quote either.
      rw [bareQuote, if_neg hquote, if_pos hpair, Option.isSome_map] at h
      exact absurd ⟨hpair.1, isEscapable_of_pair hpair.2, quote_mem_of_bareQuote h⟩ hunit
    · rw [bareQuote, if_neg hquote, if_neg hpair, Option.isSome_map] at h
      rw [bareQuote, if_neg hquote, if_neg hpair, ih h]

theorem closing_of_last (hbare : bareQuote t = none) (hcut : t = body ++ quoteMark :: after)
    (hlast : quoteMark ∉ after) : closing t = some (body, after) := by
  fun_induction closing t generalizing body with
  | case1 => simp at hcut
  | case2 => simp [bareQuote] at hbare
  | case3 b hquote =>
    have hmem : quoteMark ∈ ([b] : Text) := by rw [hcut]; simp
    exact absurd (List.mem_singleton.mp hmem).symm hquote
  | case4 => simp [bareQuote] at hbare
  | case5 b c rest hquote hunit ih =>
    -- A quote is left behind the unit, so the last quote is not the unit's own.
    obtain ⟨inner, rfl, hrest⟩ : ∃ inner, body = b :: c :: inner ∧ rest = inner ++ quoteMark :: after := by
      match body, hcut with
      | [], hcut => exact absurd (List.cons.inj hcut).1 hquote
      | [_], hcut =>
        obtain ⟨_, htail⟩ := List.cons.inj hcut
        obtain ⟨_, rfl⟩ := List.cons.inj htail
        exact absurd hunit.2.2 hlast
      | _ :: _ :: inner, hcut =>
        obtain ⟨rfl, htail⟩ := List.cons.inj hcut
        obtain ⟨rfl, hrest⟩ := List.cons.inj htail
        exact ⟨inner, rfl, hrest⟩
    rw [bareQuote_unit hunit.1] at hbare
    rw [ih (Option.map_eq_none_iff.mp hbare) hrest, Option.map_some]
  | case6 b c rest hquote hunit ih =>
    obtain ⟨inner, rfl, hrest⟩ : ∃ inner, body = b :: inner ∧ c :: rest = inner ++ quoteMark :: after := by
      match body, hcut with
      | [], hcut => exact absurd (List.cons.inj hcut).1 hquote
      | _ :: inner, hcut =>
        obtain ⟨rfl, hrest⟩ := List.cons.inj hcut
        exact ⟨inner, rfl, hrest⟩
    by_cases hpair : b = backslash ∧ (c = quoteMark ∨ c = backslash)
    · -- No quote follows the pair, so its own second byte is the last quote.
      have hnone : quoteMark ∉ rest := fun hmem => hunit ⟨hpair.1, isEscapable_of_pair hpair.2, hmem⟩
      cases inner with
      | nil =>
        obtain ⟨rfl, rfl⟩ := List.cons.inj hrest
        cases rest <;> simp [closing]
      | cons d inner =>
        obtain ⟨_, rfl⟩ := List.cons.inj hrest
        simp at hnone
    · have hnone : bareQuote (c :: rest) = none := by
        rw [bareQuote, if_neg hquote, if_neg hpair] at hbare
        exact Option.map_eq_none_iff.mp hbare
      rw [ih hnone hrest, Option.map_some]

theorem closing_cut (h : closing t = some (body, after)) : t = body ++ quoteMark :: after := by
  fun_induction closing t generalizing body with
  | case1 => cases h
  | case2 => cases h; rfl
  | case3 => cases h
  | case4 => cases h; rfl
  | case5 b c rest _ _ ih | case6 b c rest _ _ ih =>
    obtain ⟨⟨inner, tail⟩, hinner, heq⟩ := Option.map_eq_some_iff.mp h
    cases heq
    rw [ih hinner]
    rfl

theorem lexeme?_quote (rest : Text) :
    lexeme? quoteMark rest
      = match closing rest with
        | some (body, _) => some (.string body)
        | none => some (.symbol [quoteMark]) := by
  have hslash : ¬(quoteMark = 0x2F ∧ rest.head? = some 0x2F) := fun h => absurd h.1 (by decide)
  unfold lexeme?
  exact (if_neg hslash).trans ((if_neg (by decide)).trans (if_pos rfl))

theorem Reaches.stops (h : Reaches line content tokens (b :: rest)) (hblank : Text.isTokenBlank b = false)
    (hfound : lexeme? b rest = some found) (hfails : found.token? line = .error cause) :
    scanFrom line 0 content = (tokens, some cause) := by
  rw [h.scan, scanFrom, hblank, if_neg Bool.false_ne_true, hfound]
  simp only [hfails, List.append_nil]

/-- A scan that comes upon a literal reads its value and goes on behind its closing quote. -/
theorem Reaches.string (h : Reaches line content tokens (quoteMark :: rest))
    (hclosing : closing rest = some (body, after)) :
    Reaches line content (tokens ++ [⟨.string, unescape body, 0, line⟩]) after := by
  have hfound : lexeme? quoteMark rest = some (.string body) := by rw [lexeme?_quote, hclosing]
  have hdrop : rest.drop ((Lexeme.string body).length - 1) = after := by
    rw [closing_cut hclosing]
    simp [Lexeme.length]
  rw [← hdrop]
  exact h.lexeme (by decide) hfound rfl

theorem Reaches.unterminated (h : Reaches line content tokens (quoteMark :: rest)) (hnone : quoteMark ∉ rest) :
    scanFrom line 0 content = (tokens, some .unterminatedString) := by
  have hfound : lexeme? quoteMark rest = some (.symbol [quoteMark]) := by
    rw [lexeme?_quote, (closing_eq_none_iff rest).mpr hnone]
  exact h.stops (by decide) hfound rfl

/-- How a literal ends: never, when no quote follows, which is a syntax error; at its first bare quote, when there is
one; and at the last quote of the line, when all that follow are escaped. -/
theorem string_ends {line : Int} {content : Text} {tokens : List Token} {rest : Text}
    (h : Reaches line content tokens (quoteMark :: rest)) :
    (quoteMark ∉ rest → scanFrom line 0 content = (tokens, some .unterminatedString)
      ∧ Cause.unterminatedString.kind = .syntaxError
      ∧ Cause.unterminatedString.message = StoneLang.text "unterminated string literal") ∧
    (∀ body after, bareQuote rest = some (body, after) →
      Reaches line content (tokens ++ [⟨.string, unescape body, 0, line⟩]) after) ∧
    (∀ body after, bareQuote rest = none → rest = body ++ quoteMark :: after → quoteMark ∉ after →
      Reaches line content (tokens ++ [⟨.string, unescape body, 0, line⟩]) after) := by
  refine ⟨?_, ?_, ?_⟩
  · intro hnone
    exact ⟨h.unterminated hnone, rfl, rfl⟩
  · intro body after hbare
    exact h.string ((closing_of_bareQuote (by rw [hbare]; rfl)).trans hbare)
  · intro body after hbare hcut hlast
    exact h.string (closing_of_last hbare hcut hlast)

/-- The line `"a\"` has no quote that could end its literal but an escaped one, and it is the string `a\`. -/
theorem string_ends_escaped :
    bareQuote (StoneLang.text "a\\\"") = none ∧
      scanLine 1 (StoneLang.text "\"a\\\"") = ([⟨.string, StoneLang.text "a\\", 0, 1⟩], none) := by
  have hbare : bareQuote (StoneLang.text "a\\\"") = none := by decide
  have hreach : Reaches 1 (StoneLang.text "\"a\\\"") [⟨.string, StoneLang.text "a\\", 0, 1⟩] [] :=
    (string_ends .start).2.2 (StoneLang.text "a\\") [] hbare (by decide) (by decide)
  exact ⟨hbare, hreach.scan⟩

/-! ## Literals that are written -/

/-- A text with its quotes, backslashes and line feeds escaped. -/
def escape : Text → Text
  | [] => []
  | b :: rest =>
    if b = quoteMark ∨ b = backslash then backslash :: b :: escape rest
    else if b = newline then backslash :: letterN :: escape rest
    else b :: escape rest

/-- The literal of a text. -/
def literal (s : Text) : Text := quoteMark :: (escape s ++ [quoteMark])

theorem bareQuote_escape (s after : Text) : bareQuote (escape s ++ quoteMark :: after) = some (escape s, after) := by
  induction s with
  | nil => exact bareQuote_quote after
  | cons b s ih =>
    by_cases hpair : b = quoteMark ∨ b = backslash
    · rw [escape, if_pos hpair, List.cons_append, List.cons_append, bareQuote, if_neg (by decide),
        if_pos ⟨rfl, hpair⟩, ih, Option.map_some]
    by_cases hline : b = newline
    · rw [escape, if_neg hpair, if_pos hline, List.cons_append, List.cons_append, bareQuote, if_neg (by decide),
        if_neg (by decide), bareQuote_plain (by decide) (by decide), ih, Option.map_some, Option.map_some]
    · rw [escape, if_neg hpair, if_neg hline, List.cons_append,
        bareQuote_plain (fun e => hpair (.inl e)) (fun e => hpair (.inr e)), ih, Option.map_some]

theorem unescape_plain (h : b ≠ backslash) (rest : Text) : unescape (b :: rest) = b :: unescape rest := by
  cases rest <;> simp [unescape, h]

theorem unescape_escape (s : Text) : unescape (escape s) = s := by
  induction s with
  | nil => rfl
  | cons b s ih =>
    by_cases hpair : b = quoteMark ∨ b = backslash
    · rw [escape, if_pos hpair, unescape, if_pos ⟨rfl, hpair⟩, ih]
    by_cases hline : b = newline
    · rw [escape, if_neg hpair, if_pos hline, unescape, if_neg (by decide), if_pos ⟨rfl, rfl⟩, ih, hline]
    · rw [escape, if_neg hpair, if_neg hline, unescape_plain (fun e => hpair (.inr e)), ih]

theorem newline_notMem_escape (s : Text) : newline ∉ escape s := by
  induction s with
  | nil => simp [escape]
  | cons b s ih =>
    by_cases hpair : b = quoteMark ∨ b = backslash
    · have hb : newline ≠ b := by rcases hpair with rfl | rfl <;> decide
      rw [escape, if_pos hpair]
      simpa [ih, hb] using (by decide : newline ≠ backslash)
    by_cases hline : b = newline
    · rw [escape, if_neg hpair, if_pos hline]
      simpa [ih] using (by decide : newline ≠ backslash ∧ newline ≠ letterN)
    · rw [escape, if_neg hpair, if_neg hline]
      simpa [ih] using Ne.symm hline

theorem newline_notMem_literal (s : Text) : newline ∉ literal s := by
  have hquote : newline ≠ quoteMark := by decide
  simp [literal, newline_notMem_escape s, hquote]

theorem Reaches.literal (h : Reaches line content tokens (literal s ++ rest)) :
    Reaches line content (tokens ++ [⟨.string, s, 0, line⟩]) rest := by
  have hcut : Token.literal s ++ rest = quoteMark :: (escape s ++ quoteMark :: rest) := by simp [Token.literal]
  rw [hcut] at h
  have hbare := bareQuote_escape s rest
  have hstep := h.string ((closing_of_bareQuote (by rw [hbare]; rfl)).trans hbare)
  rwa [unescape_escape] at hstep

/-- A literal, wherever on a line it is reached and whatever follows it, is one string token with its text, and the
scan goes on at what follows.  It takes no more than its line. -/
theorem scan_literal {line : Int} {content : Text} {tokens : List Token} {s rest : Text}
    (h : Reaches line content tokens (literal s ++ rest)) :
    Reaches line content (tokens ++ [⟨.string, s, 0, line⟩]) rest ∧
    scanFrom line 0 content
      = (tokens ++ ⟨.string, s, 0, line⟩ :: (scanFrom line 0 rest).1, (scanFrom line 0 rest).2) ∧
    newline ∉ literal s := by
  have hstep := h.literal
  refine ⟨hstep, ?_, newline_notMem_literal s⟩
  rw [hstep.scan, List.append_assoc]
  rfl

/-- A quote, a backslash, a line feed, two slashes, a carriage return and a byte that is no text, assigned to a name. -/
theorem scan_literal_assigned :
    scanFrom 3 0
        (StoneLang.text "x=" ++ (literal [0x22, 0x5C, 0x0A, 0x2F, 0x2F, 0x0D, 0xFF] ++ StoneLang.text "+\"y\""))
      = ([⟨.identifier, StoneLang.text "x", 0, 3⟩, ⟨.identifier, StoneLang.text "=", 0, 3⟩,
          ⟨.string, [0x22, 0x5C, 0x0A, 0x2F, 0x2F, 0x0D, 0xFF], 0, 3⟩,
          ⟨.identifier, StoneLang.text "+", 0, 3⟩, ⟨.string, StoneLang.text "y", 0, 3⟩], none) := by
  have hname : ∀ rest, Reaches 3 (0x78 :: 0x3D :: rest) [⟨.identifier, [0x78], 0, 3⟩] (0x3D :: rest) :=
    fun rest => @Reaches.lexeme 3 _ [] 0x78 (0x3D :: rest) (.symbol [0x78]) (some ⟨.identifier, [0x78], 0, 3⟩)
      .start rfl rfl rfl
  have hequals : ∀ rest, Reaches 3 (0x78 :: 0x3D :: quoteMark :: rest)
      [⟨.identifier, [0x78], 0, 3⟩, ⟨.identifier, [0x3D], 0, 3⟩] (quoteMark :: rest) :=
    fun rest => @Reaches.lexeme 3 _ [⟨.identifier, [0x78], 0, 3⟩] 0x3D (quoteMark :: rest) (.symbol [0x3D])
      (some ⟨.identifier, [0x3D], 0, 3⟩) (hname _) rfl rfl rfl
  exact (scan_literal (hequals _)).2.1

end StoneLang.Token
