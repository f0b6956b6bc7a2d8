/-
  Integers in text.

  PROGRAM: the text of an integer (`Machine.render`), the native that reads one (`Run.callNative`), and the scan of
  digits on a line (`Token.scanFrom`).

  SPEC: the native reads back what is written, with white space around it or not; it succeeds on exactly the texts that
  write an integer in the signed 64-bit range (`Decimal.Writes`); and digits on a line are one token if they denote a
  number below 2^63, and an error if they do not (`Token.integers_round_trip`).

  What digits denote is the polynomial in ten of their values (`Decimal.denoted`), so leading zeros count for nothing.
  The range is tested on that number, and the least integer is written with its exact magnitude.
-/
import Mathlib.Data.List.Induction
import Mathlib.Data.Nat.Digits.Defs
import StoneLang.Eval.Natives
import StoneLang.Proofs.Token.Literals

namespace StoneLang

namespace Decimal

/-- The number that digits denote. -/
def denoted (digits : Text) : Nat := Nat.ofDigits 10 (digits.reverse.map fun d => d.toNat - 0x30)

/-- One or more digits. -/
def IsNumeral (digits : Text) : Prop := digits ≠ [] ∧ ∀ d ∈ digits, isDigit d = true

/-- The text writes the integer: one or more digits, and a sign before them or none. -/
def Writes (t : Text) (z : Int) : Prop :=
  ∃ sign digits, t = sign ++ digits ∧ IsNumeral digits ∧
    ((sign = [] ∨ sign = text "+") ∧ z = denoted digits ∨ sign = text "-" ∧ z = -denoted digits)

theorem isNumeral_iff : (digits ≠ [] ∧ digits.all isDigit = true) ↔ IsNumeral digits := by
  rw [List.all_eq_true]
  rfl

theorem denoted_append (digits : Text) (d : UInt8) : denoted (digits ++ [d]) = 10 * denoted digits + (d.toNat - 0x30) := by
  rw [denoted, List.reverse_append, List.reverse_singleton, List.singleton_append, List.map_cons, Nat.ofDigits_cons,
    Nat.add_comm]
  rfl

theorem value_eq_denoted (digits : Text) : value digits = denoted digits := by
  induction digits using List.reverseRecOn with
  | nil => rfl
  | append_singleton digits d ih =>
    rw [denoted_append, ← ih, value, List.foldl_append]
    rfl

/-! ## Writing -/

theorem digit_of_lt (h : n < 10) : isDigit (digit n) = true ∧ (digit n).toNat - 0x30 = n := by
  have hall : ∀ n : Fin 10, isDigit (digit n) = true ∧ (digit n).toNat - 0x30 = n := by decide
  exact hall ⟨n, h⟩

theorem isNumeral_append (h : IsNumeral digits) (hd : isDigit d = true) : IsNumeral (digits ++ [d]) := by
  exact ⟨by simp, List.forall_mem_append.mpr ⟨h.2, by simpa using hd⟩⟩

theorem ofNat_spec (n : Nat) : IsNumeral (ofNat n) ∧ denoted (ofNat n) = n := by
  induction n using Nat.strongRecOn with
  | ind n ih =>
    rw [ofNat]
    split
    · rename_i hlt
      obtain ⟨hdigit, hvalue⟩ := digit_of_lt hlt
      refine ⟨⟨by simp, fun d hd => by rwa [List.mem_singleton.mp hd]⟩, ?_⟩
      rw [← List.nil_append [digit n], denoted_append, hvalue]
      exact Nat.zero_add n
    · obtain ⟨hnumeral, hdenoted⟩ := ih (n / 10) (by omega)
      obtain ⟨hdigit, hvalue⟩ := digit_of_lt (Nat.mod_lt n (by decide : 10 > 0))
      refine ⟨isNumeral_append hnumeral hdigit, ?_⟩
      rw [denoted_append, hdenoted, hvalue]
      omega

theorem zeros_spec (zeros : Nat) (h : IsNumeral digits) :
    IsNumeral (List.replicate zeros 0x30 ++ digits) ∧ denoted (List.replicate zeros 0x30 ++ digits) = denoted digits := by
  refine ⟨⟨by simp [h.1], List.forall_mem_append.mpr ⟨fun d hd => ?_, h.2⟩⟩, ?_⟩
  · rw [List.eq_of_mem_replicate hd]
    decide
  · simp [denoted, Nat.ofDigits_append_replicate_zero]

theorem ofInt_writes (z : Int) : Writes (ofInt z) z := by
  obtain ⟨hnumeral, hdenoted⟩ := ofNat_spec z.natAbs
  unfold ofInt
  split
  · exact ⟨text "-", _, rfl, hnumeral, .inr ⟨rfl, by omega⟩⟩
  · exact ⟨[], _, rfl, hnumeral, .inl ⟨.inl rfl, by omega⟩⟩

/-! ## Reading -/

theorem natural_eq (h : IsNumeral digits) : int?.natural digits = some (denoted digits : Int) := by
  rw [int?.natural, if_pos (isNumeral_iff.mpr h), value_eq_denoted]

theorem isNumeral_of_natural (h : int?.natural digits = some z) : IsNumeral digits ∧ z = denoted digits := by
  unfold int?.natural at h
  split at h
  · rename_i hdigits
    rw [value_eq_denoted, Option.some.injEq] at h
    exact ⟨isNumeral_iff.mp hdigits, h.symm⟩
  · cases h

theorem int?_eq_some : int? t = some z ↔ Writes t z := by
  constructor
  · intro h
    cases t with
    | nil => cases h
    | cons b rest =>
      rw [int?] at h
      split at h
      · rename_i hplus
        obtain ⟨hnumeral, hz⟩ := isNumeral_of_natural h
        exact ⟨text "+", rest, congrArg (· :: rest) hplus, hnumeral, .inl ⟨.inr rfl, hz⟩⟩
      · split at h
        · rename_i hminus
          obtain ⟨magnitude, hmagnitude, rfl⟩ := Option.map_eq_some_iff.mp h
          obtain ⟨hnumeral, rfl⟩ := isNumeral_of_natural hmagnitude
          exact ⟨text "-", rest, congrArg (· :: rest) hminus, hnumeral, .inr ⟨rfl, rfl⟩⟩
        · obtain ⟨hnumeral, hz⟩ := isNumeral_of_natural h
          exact ⟨[], b :: rest, rfl, hnumeral, .inl ⟨.inl rfl, hz⟩⟩
  · rintro ⟨sign, digits, rfl, hnumeral, ⟨rfl | rfl, rfl⟩ | ⟨rfl, rfl⟩⟩
    · -- a digit is no sign
      obtain ⟨d, rest, rfl⟩ := List.exists_cons_of_ne_nil hnumeral.1
      have hd := hnumeral.2 d List.mem_cons_self
      have hplus : d ≠ 0x2B := by rintro rfl; exact absurd hd (by decide)
      have hminus : d ≠ 0x2D := by rintro rfl; exact absurd hd (by decide)
      rw [List.nil_append, int?, if_neg hplus, if_neg hminus, natural_eq hnumeral]
    · exact natural_eq hnumeral
    · show (int?.natural digits).map (- ·) = _
      rw [natural_eq hnumeral]
      rfl

theorem toInt64?_eq_some : toInt64? z = some n ↔ n.toInt = z := by
  have hleast : Int64.minValue.toInt = -2 ^ 63 := by decide
  have hgreatest : Int64.maxValue.toInt = 2 ^ 63 - 1 := by decide
  unfold toInt64?
  rw [hleast, hgreatest]
  split
  · rename_i hrange
    rw [Option.some.injEq]
    have hz : (Int64.ofInt z).toInt = z := Int64.toInt_ofInt_of_le hrange.1 (by omega)
    exact ⟨fun h => h ▸ hz, fun h => by rw [← h, Int64.ofInt_toInt]⟩
  · rename_i hrange
    refine ⟨nofun, ?_⟩
    rintro rfl
    exact absurd ⟨n.le_toInt, Int.le_sub_one_of_lt n.toInt_lt⟩ hrange

theorem int64?_eq_some : int64? t = some n ↔ Writes t n.toInt := by
  rw [int64?, Option.bind_eq_some_iff]
  simp only [int?_eq_some, toInt64?_eq_some]
  exact ⟨fun ⟨z, hwrites, hz⟩ => hz ▸ hwrites, fun h => ⟨_, h, rfl⟩⟩

end Decimal

/-! ## White space -/

namespace Text

/-- An ASCII white space byte. -/
def isAsciiBlank (b : UInt8) : Bool := (0x09 ≤ b && b ≤ 0x0D) || b == 0x20

theorem pieces_of_ascii (h : ∀ b ∈ t, b < 0x80) : pieces t = t.map fun b => .scalar b.toNat [b] := by
  induction t with
  | nil => rfl
  | cons b rest ih =>
    obtain ⟨hb, hrest⟩ := List.forall_mem_cons.mp h
    have hpiece : headPiece b rest = .scalar b.toNat [b] := by
      unfold headPiece
      rw [if_pos hb]
    rw [pieces, piecesFrom, hpiece]
    exact congrArg (_ :: ·) (ih hrest)

theorem dropWhile_ascii {t : Text} (h : ∀ b ∈ t, b < 0x80) :
    (t.map fun b => Piece.scalar b.toNat [b]).dropWhile Piece.isBlank
      = (t.dropWhile isAsciiBlank).map fun b => .scalar b.toNat [b] := by
  induction t with
  | nil => rfl
  | cons b rest ih =>
    obtain ⟨hb, hrest⟩ := List.forall_mem_cons.mp h
    have hblank : (Piece.scalar b.toNat [b]).isBlank = isAsciiBlank b := by
      have hone := Token.checkedBytes
        (fun b => !decide (b < 0x80) || (Piece.scalar b.toNat [b]).isBlank == isAsciiBlank b) (by decide) b
      simpa [hb] using hone
    rw [List.map_cons, List.dropWhile_cons, List.dropWhile_cons, hblank]
    split
    · exact ih hrest
    · rfl

theorem trim_blanks {before t after : Text} (hbefore : ∀ b ∈ before, isAsciiBlank b = true)
    (hafter : ∀ b ∈ after, isAsciiBlank b = true) (ht : ∀ b ∈ t, b < 0x80 ∧ isAsciiBlank b = false) (hne : t ≠ []) :
    (before ++ (t ++ after)).trim = t := by
  have hblank : ∀ b, isAsciiBlank b = true → b < 0x80 := fun b hb => by
    have hone := Token.checkedBytes (fun b => !isAsciiBlank b || decide (b < 0x80)) (by decide) b
    simpa [hb] using hone
  have hinner : ∀ b ∈ t ++ after, b < 0x80 :=
    List.forall_mem_append.mpr ⟨fun b hb => (ht b hb).1, fun b hb => hblank b (hafter b hb)⟩
  have hall : ∀ b ∈ before ++ (t ++ after), b < 0x80 :=
    List.forall_mem_append.mpr ⟨fun b hb => hblank b (hbefore b hb), hinner⟩
  -- at either end, what is dropped stops at the text
  have hstop : ∀ u rest : Text, u ≠ [] → (∀ b ∈ u, isAsciiBlank b = false) → ∀ blanks : Text,
      (∀ b ∈ blanks, isAsciiBlank b = true) → (blanks ++ (u ++ rest)).dropWhile isAsciiBlank = u ++ rest := by
    intro u rest hu hnone blanks hblanks
    obtain ⟨b, others, rfl⟩ := List.exists_cons_of_ne_nil hu
    rw [List.dropWhile_append_of_pos hblanks, List.cons_append, List.dropWhile_cons_of_neg]
    rw [hnone b List.mem_cons_self]
    exact Bool.false_ne_true
  have hfront := hstop t after hne (fun b hb => (ht b hb).2) before hbefore
  have hback : (t ++ after).reverse.dropWhile isAsciiBlank = t.reverse := by
    have hrest := hstop t.reverse [] (by simpa using hne) (fun b hb => (ht b (List.mem_reverse.mp hb)).2)
      after.reverse fun b hb => hafter b (List.mem_reverse.mp hb)
    rwa [List.append_nil, ← List.reverse_append] at hrest
  rw [trim, pieces_of_ascii hall, dropWhile_ascii hall, hfront, ← List.map_reverse,
    dropWhile_ascii fun b hb => hinner b (List.mem_reverse.mp hb), hback, ← List.map_reverse, List.reverse_reverse]
  simp [ofPieces, Piece.bytes, List.flatMap_map]

end Text

theorem Decimal.Writes.trim_blanks (h : Decimal.Writes t z) (hbefore : ∀ b ∈ before, Text.isAsciiBlank b = true)
    (hafter : ∀ b ∈ after, Text.isAsciiBlank b = true) : (before ++ (t ++ after)).trim = t := by
  obtain ⟨sign, digits, rfl, ⟨hne, hdigits⟩, hsign⟩ := h
  refine Text.trim_blanks hbefore hafter (List.forall_mem_append.mpr ⟨?_, fun b hb => ?_⟩) (by simp [hne])
  · rcases hsign with ⟨rfl | rfl, -⟩ | ⟨rfl, -⟩ <;> decide +kernel
  · have hone := Token.checkedBytes
      (fun b => !isDigit b || (decide (b < 0x80) && !Text.isAsciiBlank b)) (by decide) b
    simpa [hdigits b hb] using hone

/-! ## The native -/

namespace Run

variable {m m' : Machine} {native : Native}

theorem callNative_toInt (h : native.action = .toInt) (env : Env) (line : Int) (t : Text) :
    callNative native env line [.string t] m = .ok v m' ↔ ∃ n, v = .integer n ∧ m' = m ∧ Decimal.Writes t.trim n.toInt := by
  have haction : nativeAction native.action env line [.string t] m = integerOf (.string t) line m := by rw [h]; rfl
  simp only [callNative, haction, ← Decimal.int64?_eq_some]
  cases hread : Decimal.int64? t.trim with
  | none =>
    have hfails : integerOf (.string t) line m = .error (.atLine (.notAnInteger t) line) m := by
      simp only [integerOf, hread]
      rfl
    simp [hfails]
  | some n =>
    have hgives : integerOf (.string t) line m = .ok (.integer n) m := by
      simp only [integerOf, hread]
      rfl
    simp [hgives, eq_comm]

end Run

/-! ## The scan -/

namespace Token

open Decimal

variable {line : Int} {content rest digits : Text} {tokens : List Token}

theorem lexeme?_digits (h : IsNumeral (d :: digits)) (hrest : ∀ b, rest.head? = some b → isDigit b = false) :
    lexeme? d (digits ++ rest) = some (.number (d :: digits)) := by
  obtain ⟨hd, hdigits⟩ := List.forall_mem_cons.mp h.2
  have hslash : d ≠ 0x2F := by rintro rfl; exact absurd hd (by decide)
  have hstop : rest.takeWhile isDigit = [] := by
    cases rest with
    | nil => rfl
    | cons b others => rw [List.takeWhile_cons_of_neg]; simp [hrest b rfl]
  rw [lexeme?, if_neg (fun h => hslash h.1), if_pos hd, List.takeWhile_append_of_pos hdigits, hstop, List.append_nil]

/-- Digits, wherever on a line they are reached, are a token of what they denote, or stop the scan. -/
theorem Reaches.numeral (h : Reaches line content tokens (digits ++ rest)) (hdigits : IsNumeral digits)
    (hrest : ∀ b, rest.head? = some b → isDigit b = false) :
    (∀ n : Int64, n.toInt = denoted digits → Reaches line content (tokens ++ [⟨.number, digits, n, line⟩]) rest) ∧
      (2 ^ 63 ≤ denoted digits → scanFrom line 0 content = (tokens, some (.integerTooLarge digits))) := by
  obtain ⟨d, others, rfl⟩ := List.exists_cons_of_ne_nil hdigits.1
  have hfound := lexeme?_digits hdigits hrest
  have hblank : Text.isTokenBlank d = false := by
    have hone := checkedBytes (fun b => !isDigit b || !Text.isTokenBlank b) (by decide) d
    simpa [hdigits.2 d List.mem_cons_self] using hone
  have hvalue : unsigned? (d :: others) = toInt64? (denoted (d :: others)) := by
    rw [unsigned?, if_pos (isNumeral_iff.mpr hdigits), value_eq_denoted]
  refine ⟨fun n hn => ?_, fun hrange => ?_⟩
  · have htoken : (Lexeme.number (d :: others)).token? line = .ok (some ⟨.number, d :: others, n, line⟩) := by
      simp only [Lexeme.token?, hvalue, toInt64?_eq_some.mpr hn]
    simpa [Lexeme.length] using h.lexeme hblank hfound htoken
  · have hnone : toInt64? (denoted (d :: others)) = none := by
      refine Option.eq_none_iff_forall_ne_some.mpr fun n hn => ?_
      have hlt := n.toInt_lt
      rw [toInt64?_eq_some.mp hn] at hlt
      omega
    refine h.stops hblank hfound ?_
    simp only [Lexeme.token?, hvalue, hnone]

end Token

/-- An integer is read back from its text with white space around it; a text is read as an integer exactly if it writes
one that is in range; and digits on a line are a token of their number below 2^63, and a syntax error above. -/
theorem integers_round_trip (native : Native) (hnative : native.action = .toInt) (m : Machine) (env : Env) (line : Int) :
    (∀ (n : Int64) (before after : Text), (∀ b ∈ before, Text.isAsciiBlank b = true) →
      (∀ b ∈ after, Text.isAsciiBlank b = true) →
      Run.callNative native env line [.string (before ++ (m.render (.integer n) ++ after))] m = .ok (.integer n) m) ∧
    (∀ t : Text, (∃ v m', Run.callNative native env line [.string t] m = .ok v m') ↔
      ∃ z, Decimal.Writes t.trim z ∧ -2 ^ 63 ≤ z ∧ z < 2 ^ 63) ∧
    (∀ {content rest digits : Text} {tokens : List Token}, Token.Reaches line content tokens (digits ++ rest) →
      Decimal.IsNumeral digits → (∀ b, rest.head? = some b → Decimal.isDigit b = false) →
      (Decimal.denoted digits < 2 ^ 63 → ∃ n : Int64, n.toInt = Decimal.denoted digits ∧
        Token.scanFrom line 0 content = (tokens ++ ⟨.number, digits, n, line⟩ :: (Token.scanFrom line 0 rest).1,
          (Token.scanFrom line 0 rest).2)) ∧
      (2 ^ 63 ≤ Decimal.denoted digits → ∃ cause : Cause, cause.kind = .syntaxError ∧
        Token.scanFrom line 0 content = (tokens, some cause))) ∧
    ∀ n zeros : Nat, Decimal.IsNumeral (List.replicate zeros 0x30 ++ Decimal.ofNat n) ∧
      Decimal.denoted (List.replicate zeros 0x30 ++ Decimal.ofNat n) = n := by
  refine ⟨fun n before after hbefore hafter => ?_, fun t => ?_, fun h hdigits hrest => ⟨fun hrange => ?_, fun hrange => ?_⟩,
    fun n zeros => ?_⟩
  · have hwrites := Decimal.ofInt_writes n.toInt
    refine (Run.callNative_toInt hnative env line _).mpr ⟨n, rfl, rfl, ?_⟩
    rwa [show m.render (.integer n) = Decimal.ofInt n.toInt from rfl, hwrites.trim_blanks hbefore hafter]
  · constructor
    · rintro ⟨v, m', h⟩
      obtain ⟨n, -, -, hwrites⟩ := (Run.callNative_toInt hnative env line t).mp h
      exact ⟨n.toInt, hwrites, n.le_toInt, n.toInt_lt⟩
    · rintro ⟨z, hwrites, hleast, hgreatest⟩
      refine ⟨_, m, (Run.callNative_toInt hnative env line t).mpr ⟨Int64.ofInt z, rfl, rfl, ?_⟩⟩
      rwa [Int64.toInt_ofInt_of_le hleast hgreatest]
  · have hvalue := Int64.toInt_ofNat_of_lt hrange
    refine ⟨_, hvalue, ?_⟩
    rw [((h.numeral hdigits hrest).1 _ hvalue).scan, List.append_assoc, List.singleton_append]
  · exact ⟨_, rfl, (h.numeral hdigits hrest).2 hrange⟩
  · obtain ⟨hnumeral, hdenoted⟩ := Decimal.ofNat_spec n
    obtain ⟨hzeros, hsame⟩ := Decimal.zeros_spec zeros hnumeral
    exact ⟨hzeros, hsame.trans hdenoted⟩

/-- The least integer is read back, from between a tab and a line feed; a greater number on a line is an error. -/
theorem least_integer_round_trip :
    let m := Machine.start ⟨9, true, false, 0⟩ (.ofText []) none 0
    Run.callNative ⟨text "to_int", 1, .toInt⟩ [] 1 [.string (text "\t-9223372036854775808\n")] m
      = .ok (.integer Int64.minValue) m ∧
    ∃ cause : Cause, cause.kind = .syntaxError ∧
      Token.scanFrom 1 0 (text "09223372036854775808 + 1") = ([], some cause) := by
  intro m
  obtain ⟨hread, -, hscan, -⟩ := integers_round_trip ⟨text "to_int", 1, .toInt⟩ rfl m [] 1
  have hleast : m.render (.integer Int64.minValue) = text "-9223372036854775808" :=
    show Decimal.ofInt64 Int64.minValue = _ by decide +kernel
  have hback := hread Int64.minValue (text "\t") (text "\n") (by decide +kernel) (by decide +kernel)
  rw [hleast] at hback
  refine ⟨hback, ?_⟩
  have hline := @hscan _ (text " + 1") (text "09223372036854775808") _ .start ⟨by decide, by decide +kernel⟩
    (by decide +kernel)
  exact hline.2 (by decide)

end StoneLang
