/-
  Reading YAML.

  The reader covers what configurations are written in: block and flow mappings and sequences, plain,
  single-quoted and double-quoted scalars, comments, and the marks that begin and end a document.  Only
  the first document of a text is read.

  A position knows its line and its column, because the nesting of block collections is written in
  columns: the entries of one collection start in one column, and what belongs to an entry starts to
  the right of it, except that the dashes of a sequence may stand right below the key of its mapping.

  The first document ends at a mark, or where something follows that cannot belong to it: a block
  collection ends before content to the left of it, and any other value right after itself.  What follows
  is not read.

  Every reader gives nothing where the text is malformed.
-/
import StoneLang.Yaml.Basic
import StoneLang.Yaml.Characters

namespace StoneLang.Yaml

/-! ## Characters and positions -/

/-- A space or a tab, or the carriage return of a line end. -/
def isBlank (c : Char) : Bool := c == ' ' || c == '\t' || c == '\r'

/-- The text ends here, or a blank or a line end stands here. -/
def breaksOff : List Char → Bool
  | [] => true
  | c :: _ => isBlank c || isBreak c

/-- A character that has a meaning of its own inside a flow collection. -/
def isFlowMark (c : Char) : Bool := [',', '[', ']', '\x7b', '\x7d'].contains c

def isMark (c : Char) : Bool :=
  isFlowMark c ||
    ['-', '?', ':', '#', '&', '*', '!', '|', '>', '\'', '"', '%', '@', '\x60'].contains c

/-- A position in a text: what is left from there on, the line from one, the column from zero. -/
structure Position where
  rest : List Char
  line : Nat
  column : Nat
  /-- A token ends before here on this line, so that a comment on this line belongs to it. -/
  afterToken : Bool
  /-- The text starts with a byte order mark that is not the one of its encoding, and no look ahead has
  left its first part yet; so many characters come after that part.  Such a mark is no content, and
  neither is any other character at the start of a line in that part where content is looked for. -/
  marked : Option Nat

namespace Position

/-- The position `count` characters further on the same line, after a token. -/
def skip (p : Position) (count : Nat) : Position :=
  { p with rest := p.rest.drop count, column := p.column + count, afterToken := true }

/-- The position after a dash, to which no comment belongs. -/
def skipDash (p : Position) : Position := { p.skip 1 with afterToken := false }

/-- The position after a look ahead to the last of `count` characters from `rest` on. -/
def look (p : Position) (count : Nat) (rest : List Char) : Position :=
  { p with marked := p.marked.filter fun beyond => beyond + count ≤ rest.length }

/-- The position after the look ahead at the start of a token or of a word in a scalar. -/
def lookHere (p : Position) : Position := p.look 4 p.rest

/-- Where `rest` starts a line, its first character is no content. -/
def passesOver (p : Position) (rest : List Char) : Bool :=
  p.marked.any fun beyond => beyond < rest.length

/-- The position after blanks and line ends, and the line ends. -/
def skipSpace (p : Position) : List Char × Position := go p.rest p.line p.column
where
  /-- Walks over blanks and line ends. -/
  go : List Char → Nat → Nat → List Char × Position
    | [], line, column => ([], { p with rest := [], line, column })
    | c :: rest, line, column =>
      if isBreak c then
        let (breaks, q) := go rest (line + 1) 0
        (breakValue c :: breaks, { q with afterToken := false })
      else if isBlank c then go rest line (column + 1)
      else ([], { p with rest := c :: rest, line, column })

/-- The position after the look ahead of a comment from the line end at the head of `rest` on, and whether
a comment follows.  It goes over blanks and line feeds, and ends inside a wide line end. -/
def lookAfterComment (p : Position) (rest : List Char) : Position × Bool :=
  let following := rest.dropWhile fun c => isBlank c || c == '\n'
  (p.look (if following.head?.any isWideBreak then 2 else 1) following, following.head? == some '#')

/-- The position of what comes next, after blanks, line ends and comments. -/
def next (p : Position) : Position := (go p false p.rest p.line p.column).lookHere
where
  /-- Walks over what carries no content; `comment` says whether a comment is under way.  One that belongs
  to no token looks ahead to what follows it: if that is found to be a comment, the two are one. -/
  go (p : Position) : Bool → List Char → Nat → Nat → Position
    | _, [], line, column => { p with rest := [], line, column }
    | comment, c :: rest, line, column =>
      if !comment && column == 0 && p.passesOver (c :: rest) then go p false rest line 1
      else if isBreak c then
        if comment && !p.afterToken then
          let (p, goesOn) := p.lookAfterComment (c :: rest)
          go p goesOn rest (line + 1) 0
        else go { p with afterToken := false } false rest (line + 1) 0
      else if comment || isBlank c then go p comment rest line (column + 1)
      else if c = '#' then go p true rest line (column + 1)
      else { p with rest := c :: rest, line, column }

def skipBlanks (p : Position) : Position := p.skip (p.rest.takeWhile isBlank).length

/-- A mark of three characters stands here, alone, at the start of a line. -/
def hasMark (p : Position) (mark : List Char) : Bool :=
  p.column == 0 && mark.isPrefixOf p.rest && breaksOff (p.rest.drop 3)

def atDocumentStart (p : Position) : Bool := p.hasMark ['-', '-', '-']

def atDocumentEnd (p : Position) : Bool :=
  p.rest == [] || p.atDocumentStart || p.hasMark ['.', '.', '.']

def atDash (p : Position) : Bool :=
  match p.rest with
  | c :: rest => c == '-' && breaksOff rest
  | [] => false

def atColon (p : Position) : Bool := p.rest.head? == some ':'

/-- A colon that ends a key of a block mapping stands here. -/
def atKeyEnd (p : Position) : Bool := p.atColon && breaksOff (p.rest.drop 1)

end Position

/-! ## Scalars -/

/-- What a gap in a scalar is worth: its blanks if it stays on one line.  A gap that starts with a line
feed is worth the line ends after it, or a space if there is none; other line ends count themselves. -/
def folded (blanks breaks : List Char) : List Char :=
  match breaks with
  | [] => blanks
  | first :: more => if first = '\n' then if more = [] then [' '] else more else first :: more

def plainWord (inFlow : Bool) : List Char → List Char
  | [] => []
  | c :: rest =>
    if isBlank c || isBreak c || (c == ':' && breaksOff rest) || (inFlow && isFlowMark c) then []
    else c :: plainWord inFlow rest

/-- The words of a plain scalar that go on after `p`, joined to `value`; on later lines they stand at
column `least` or further right.  The blanks and line ends after the last word are passed over, too. -/
def plainTail (inFlow : Bool) (least : Nat) : Nat → List Char → Position → List Char × Position
  | 0, value, p => (value, p)
  | bound + 1, value, p =>
    let (breaks, q) := p.skipSpace
    if !inFlow && breaks != [] && q.column < least then (value, q)
    else
      let q := q.lookHere
      let word := plainWord inFlow q.rest
      if word = [] || q.rest.head? == some '#' || q.atDocumentEnd then (value, q)
      else
        let gap := folded (p.rest.takeWhile isBlank) breaks
        plainTail inFlow least bound (value ++ gap ++ word) (q.skip word.length)

def startsPlain (inFlow : Bool) (p : Position) : Bool :=
  match p.rest with
  | [] => false
  | c :: rest =>
    !isMark c || (c == '-' && !breaksOff rest) || (!inFlow && (c == '?' || c == ':') && !breaksOff rest)

def plain? (inFlow : Bool) (least : Nat) (p : Position) : Option (Yaml × Position) :=
  if startsPlain inFlow p then
    let word := plainWord inFlow p.rest
    let (value, q) := plainTail inFlow least p.rest.length word (p.skip word.length)
    some (.scalar p.line false (toText value), q)
  else none

/-- A quoted scalar as it is read. -/
structure Quoted where
  value : List Char
  /-- The text from the last word of the scalar on. -/
  lastWord : List Char
  /-- The text after the scalar, with its line and column. -/
  rest : List Char
  line : Nat
  column : Nat

/-- A single-quoted scalar after its opening quote: a quote inside is written twice.  `value` is what has
been read, the last character first, and `word` the text from the last word on. -/
def singleQuoted : List Char → List Char → List Char → List Char → List Char → Nat → Nat → Option Quoted
  | [], _, _, _, _, _, _ => none
  | c :: rest, value, word, blanks, breaks, line, column =>
    if isBreak c then singleQuoted rest value word [] (breaks ++ [breakValue c]) (line + 1) 0
    else if isBlank c then
      singleQuoted rest value word (if breaks = [] then blanks ++ [c] else []) breaks line (column + 1)
    else
      let word := if blanks = [] && breaks = [] then word else c :: rest
      let value := (folded blanks breaks).reverse ++ value
      if c = '\'' then
        match rest with
        | d :: more =>
          if d = '\'' then singleQuoted more (c :: value) word [] [] line (column + 2)
          else some ⟨value.reverse, word, rest, line, column + 1⟩
        | [] => some ⟨value.reverse, word, [], line, column + 1⟩
      else singleQuoted rest (c :: value) word [] [] line (column + 1)

def escape? : Char → Option Char
  | '0' => some '\x00'
  | 'a' => some '\x07'
  | 'b' => some '\x08'
  | 't' => some '\t'
  | '\t' => some '\t'
  | 'n' => some '\n'
  | 'v' => some '\x0B'
  | 'f' => some '\x0C'
  | 'r' => some '\r'
  | 'e' => some '\x1B'
  | ' ' => some ' '
  | '"' => some '"'
  | '\'' => some '\''
  | '/' => some '/'
  | '\\' => some '\\'
  | 'N' => some '\u0085'
  | '_' => some '\u00A0'
  | 'L' => some lineSeparator
  | 'P' => some paragraphSeparator
  | _ => none

def escapeWidth? : Char → Option Nat
  | 'x' => some 2
  | 'u' => some 4
  | 'U' => some 8
  | _ => none

def hexValue? (c : Char) : Option Nat :=
  if '0' ≤ c ∧ c ≤ '9' then some (c.toNat - 0x30)
  else if 'a' ≤ c ∧ c ≤ 'f' then some (c.toNat - 0x57)
  else if 'A' ≤ c ∧ c ≤ 'F' then some (c.toNat - 0x37)
  else none

/-- The character of an escape, given what follows its backslash, and the number of characters that the
escape takes. -/
def escaped? : List Char → Option (Char × Nat)
  | [] => none
  | letter :: rest =>
    match escapeWidth? letter with
    | some width => do
      let digits := rest.take width
      if digits.length ≠ width then none
      let code ← digits.foldlM (fun n c => (hexValue? c).map (16 * n + ·)) 0
      if (0xD800 ≤ code ∧ code ≤ 0xDFFF) ∨ 0x10FFFF < code then none
      some (Char.ofNat code, width + 1)
    | none => (escape? letter).map fun c => (c, 1)

def afterLineEnd? : List Char → Option (List Char)
  | '\r' :: '\n' :: rest => some rest
  | c :: rest => if isBreak c then some rest else none
  | [] => none

/-- A double-quoted scalar after its opening quote.  `value` is what has been read, the last character
first, and `word` the text from the last word on.  A backslash at the end of a line joins the lines
without a space: then `joined` is true and only further line ends count. -/
def doubleQuoted : Nat → List Char → List Char → List Char → List Char → List Char → Bool → Nat → Nat →
    Option Quoted
  | 0, _, _, _, _, _, _, _, _ => none
  | _, [], _, _, _, _, _, _, _ => none
  | bound + 1, c :: rest, value, word, blanks, breaks, joined, line, column =>
    if isBreak c then doubleQuoted bound rest value word [] (breaks ++ [breakValue c]) joined (line + 1) 0
    else if isBlank c then
      let blanks := if breaks = [] && !joined then blanks ++ [c] else []
      doubleQuoted bound rest value word blanks breaks joined line (column + 1)
    else
      let word := if blanks = [] && breaks = [] && !joined then word else c :: rest
      let value := (if joined then breaks else folded blanks breaks).reverse ++ value
      if c = '"' then some ⟨value.reverse, word, rest, line, column + 1⟩
      else if c = '\\' then
        match afterLineEnd? rest with
        | some more => doubleQuoted bound more value word [] [] true (line + 1) 0
        | none =>
          match escaped? rest with
          | some (e, taken) =>
            doubleQuoted bound (rest.drop taken) (e :: value) word [] [] false line (column + 1 + taken)
          | none => none
      else doubleQuoted bound rest (c :: value) word [] [] false line (column + 1)

def quoted? (p : Position) : Option (Yaml × Position) :=
  match p.rest with
  | [] => none
  | c :: rest =>
    let found :=
      if c = '\'' then singleQuoted rest [] rest [] [] p.line (p.column + 1)
      else if c = '"' then doubleQuoted (rest.length + 1) rest [] rest [] [] false p.line (p.column + 1)
      else none
    found.map fun q =>
      let after : Position := { p with rest := q.rest, line := q.line, column := q.column, afterToken := true }
      (.scalar p.line true (toText q.value), after.look 4 q.lastWord)

def scalar? (inFlow : Bool) (least : Nat) (p : Position) : Option (Yaml × Position) :=
  match p.rest.head? with
  | some c => if c = '\'' ∨ c = '"' then quoted? p else plain? inFlow least p
  | none => none

/-! ## Flow collections -/

/-- What follows a comma; the closing mark stays where it is. -/
def separator? (p : Position) (closing : Char) : Option Position :=
  match p.rest.head? with
  | some c => if c = ',' then some (p.skip 1).next else if c = closing then some p else none
  | none => none

mutual

/-- A value inside a flow collection, at most `bound` values deep and long. -/
def flow? : Nat → Position → Option (Yaml × Position)
  | 0, _ => none
  | bound + 1, p =>
    match p.rest.head? with
    | some c =>
      if c = '[' then (flowItems? bound (p.skip 1).next).map fun (items, q) => (.sequence p.line items, q)
      else if c = '\x7b' then
        (flowEntries? bound (p.skip 1).next).map fun (entries, q) => (.mapping p.line entries, q)
      else scalar? true 0 p
    | none => none

def flowValue? : Nat → Position → Option (Yaml × Position)
  | 0, _ => none
  | bound + 1, p =>
    match p.rest.head? with
    | some c =>
      if c = ',' ∨ c = ']' ∨ c = '\x7d' then some (absent p.line, p) else flow? bound p
    | none => none

/-- The items of a flow sequence, up to its bracket.  An item with a colon is a mapping of one entry. -/
def flowItems? : Nat → Position → Option (List Yaml × Position)
  | 0, _ => none
  | bound + 1, p =>
    if p.rest.head? = some ']' then some ([], p.skip 1)
    else do
      let (item, q) ← flow? bound p
      let q := q.next
      let (item, q) ←
        if q.atColon then
          (flowValue? bound (q.skip 1).next).map fun (value, r) => (.mapping p.line [(item, value)], r.next)
        else some (item, q)
      let (items, q) ← flowItems? bound (← separator? q ']')
      some (item :: items, q)

/-- The entries of a flow mapping, up to its brace.  A key without a colon has no value. -/
def flowEntries? : Nat → Position → Option (List (Yaml × Yaml) × Position)
  | 0, _ => none
  | bound + 1, p =>
    if p.rest.head? = some '\x7d' then some ([], p.skip 1)
    else do
      let (key, q) ← flow? bound p
      let q := q.next
      let (value, q) ←
        if q.atColon then (flowValue? bound (q.skip 1).next).map fun (value, r) => (value, r.next)
        else some (absent q.line, q)
      let (entries, q) ← flowEntries? bound (← separator? q '\x7d')
      some ((key, value) :: entries, q)

end

def inline? (bound least : Nat) (p : Position) : Option (Yaml × Position) :=
  match p.rest.head? with
  | some c => if c = '[' ∨ c = '\x7b' then flow? bound p else scalar? false least p
  | none => none

/-! ## Block collections -/

mutual

/-- The value at `p`, which is the next content.  Content in a column before `least` belongs to an outer
collection, so the value is absent then. -/
def block? : Nat → Nat → Position → Option (Yaml × Position)
  | 0, _, _ => none
  | bound + 1, least, p =>
    if p.atDocumentEnd || p.column < least then some (absent p.line, p)
    else if p.atDash then
      (blockItems? bound p.column p).map fun (items, q) => (.sequence p.line items, q)
    else do
      let (first, q) ← inline? bound least p
      if q.line = p.line ∧ q.skipBlanks.atKeyEnd then
        let (entries, q) ← blockEntries? bound p.column first (q.skipBlanks.lookHere.skip 1)
        some (.mapping p.line entries, q)
      else some (first, q)

/-- The items of a block sequence whose dashes stand in `column`. -/
def blockItems? : Nat → Nat → Position → Option (List Yaml × Position)
  | 0, _, _ => none
  | bound + 1, column, p => do
    let (item, q) ← block? bound (column + 1) p.skipDash.next
    let q := q.next
    if q.column = column ∧ q.atDash ∧ !q.atDocumentEnd then
      let (items, r) ← blockItems? bound column q
      some (item :: items, r)
    else some ([item], q)

/-- The entries of a block mapping whose keys stand in `column`, from after the colon of `key` on. -/
def blockEntries? : Nat → Nat → Yaml → Position → Option (List (Yaml × Yaml) × Position)
  | 0, _, _, _ => none
  | bound + 1, column, key, p => do
    let q := p.next
    let (value, q) ←
      if q.line = p.line ∧ !q.atDocumentEnd then inline? bound (column + 1) q
      else if q.column = column ∧ q.atDash ∧ !q.atDocumentEnd then
        (blockItems? bound column q).map fun (items, r) => (.sequence q.line items, r)
      else block? bound (column + 1) q
    let q := q.next
    if q.column = column ∧ !q.atDocumentEnd then
      let (following, r) ← inline? bound column q
      let r := r.skipBlanks
      if r.line = q.line ∧ r.atKeyEnd then
        let (entries, r) ← blockEntries? bound column following (r.lookHere.skip 1)
        some ((key, value) :: entries, r)
      else none
    else some ([(key, value)], q)

end

/-! ## Documents -/

def startsBlock (bound : Nat) (p : Position) : Bool :=
  p.atDash || (inline? bound 0 p).any fun (_, q) => q.line == p.line && q.skipBlanks.atKeyEnd

def startsContent (bound : Nat) (p : Position) : Bool :=
  p.atDash || [',', ']', '\x7d'].any (p.rest.head? == some ·) || (inline? bound 0 p).isSome

/-- The document whose value starts at `p` ends before what comes next at `q`. -/
def endsBefore (bound : Nat) (p q : Position) : Bool :=
  q.atDocumentEnd || (startsContent bound q && (!startsBlock bound p || q.column < p.column))

/-- The first document of a text: nothing if it is malformed, and no value if there is no content. -/
def read? (t : Text) : Option (Option Yaml) := do
  let (cs, marked) ← characters? t
  let start : Position := ⟨cs, 1, 0, false, marked⟩
  let start := start.next
  let p := if start.atDocumentStart then (start.skip 3).next else start
  if p.atDocumentEnd then some none
  else
    let bound := 4 * p.rest.length + 4
    let (value, q) ← block? bound 0 p
    if endsBefore bound p q.next then some (some value) else none

end StoneLang.Yaml
