/-
  The names in a program.

  Variables, parameters, functions, classes and members are all named by identifier tokens that are no reserved words.
  But an identifier token is not always an identifier: keywords, operators and punctuation bytes are identifier tokens
  too, and the reserved words are a list of their own.

  SPEC:    a name is unreserved, and it is an identifier or one of the spellings that the scanner knows and the list of
           reserved words leaves out (`Language.strays`).
  PROGRAM: `Language.parseAll`, for all layers and settings, on any text.

  Names come from tokens (`Language.bears_reads`), by the table of rules; what an identifier token can look like is a
  matter of the scanner alone (`Token.spelled_scanFrom`).
-/
import StoneLang.Proofs.Grammar.Programs
import StoneLang.Proofs.Token.Literals

namespace StoneLang

/-! ## The names of a tree -/

mutual

/-- The names in a tree: variables, parameters, functions, classes and superclasses, bare words, and members other
than `new`. -/
@[simp] def Node.names : Node → List Text
  | .leaf word | .name _ word => [word.text]
  | .number .. | .string _ | .empty => []
  | .list children | .block children | .array children | .classBody children => allNames children
  | .binary left _ right => left.names ++ right.names
  | .negative operand => operand.names
  | .conditional condition consequence none => condition.names ++ consequence.names
  | .conditional condition consequence (some alternative) =>
    condition.names ++ consequence.names ++ alternative.names
  | .loop condition body => condition.names ++ body.names
  | .parameters labels => labels.map Label.text
  | .definition _ title params body => title.text :: (params.map Label.text ++ allNames body)
  | .closure _ params body => params.map Label.text ++ allNames body
  | .primary operand inner last => operand.names ++ allSuffixNames inner ++ last.names
  | .suffix s => s.names
  | .classDefinition _ title parent members =>
    title.text :: (parent.toList.map Label.text ++ allNames members)

/-- The names in a suffix. -/
@[simp] def Suffix.names : Suffix → List Text
  | .arguments values => allNames values
  | .member _ title => if title.text = text "new" then [] else [title.text]
  | .element index => index.names

@[simp] def allNames : List Node → List Text
  | [] => []
  | n :: rest => n.names ++ allNames rest

@[simp] def allSuffixNames : List Suffix → List Text
  | [] => []
  | s :: rest => s.names ++ allSuffixNames rest

end

theorem allNames_append (nodes more : List Node) : allNames (nodes ++ more) = allNames nodes ++ allNames more := by
  induction nodes with
  | nil => rfl
  | cons n rest ih => simp [ih]

@[simp] theorem Label.names_toNode (l : Label) : l.toNode.names = [l.text] := by
  cases l <;> rfl

theorem allNames_labels (labels : List Label) : allNames (labels.map Label.toNode) = labels.map Label.text := by
  induction labels with
  | nil => rfl
  | cons l rest ih => simp [ih]

theorem allNames_suffixes (suffixes : List Suffix) : allNames (suffixes.map .suffix) = allSuffixNames suffixes := by
  induction suffixes with
  | nil => rfl
  | cons s rest ih => simp [ih]

namespace Shape

theorem names_build {site : Site} {shape : Shape} {children : List Node} {node : Node}
    (h : shape.build site children = .ok node) : node.names ⊆ allNames children := by
  cases built_of_build h with
  | binary => simp
  | conditional => rename_i alternative; cases alternative <;> simp
  | member =>
    simp only [Node.names, Suffix.names]
    split <;> simp
  | _ => simp [allNames_append, allNames_labels, allNames_suffixes]

theorem names_binary
    (h : Shape.binary.build site [left, operator, right] = .ok node) : node.names = left.names ++ right.names := by
  obtain ⟨l, -, hnode⟩ := except_bind_eq_ok.mp h
  cases hnode
  rfl

theorem names_gather (children : List Node) : (gather children).names = allNames children := by
  rcases children with _ | ⟨child, _ | ⟨next, rest⟩⟩ <;> simp [gather]

end Shape

/-! ## Names come from tokens -/

namespace Language

variable {l : Layers} {levels : Nat} {c c' : Cursor} {nodes : List Node}

/-- The names in the nodes are those of tokens that a name can be read from. -/
def Bears (c : Cursor) (nodes : List Node) (c' : Cursor) : Prop :=
  c'.tokens <:+ c.tokens ∧
    ∀ name ∈ allNames nodes, ∃ t ∈ c.tokens, (TokenClass.identifier reserved).accepts t = true ∧ t.text = name

theorem Bears.of_silent (hsuffix : c'.tokens <:+ c.tokens) (h : allNames nodes = []) : Bears c nodes c' :=
  ⟨hsuffix, by simp [h]⟩

variable {c₁ : Cursor} {node : Node}

theorem Bears.append (h : Bears c nodes c₁) (hmore : Bears c₁ more c') :
    Bears c (nodes ++ more) c' := by
  refine ⟨hmore.1.trans h.1, fun name hname => ?_⟩
  rw [allNames_append, List.mem_append] at hname
  rcases hname with hname | hname
  · exact h.2 name hname
  · obtain ⟨t, ht, haccepts⟩ := hmore.2 name hname
    exact ⟨t, h.1.subset ht, haccepts⟩

theorem Bears.of_subset (h : Bears c nodes c₁) (hsame : c'.tokens = c₁.tokens)
    (hsubset : allNames more ⊆ allNames nodes) : Bears c more c' :=
  ⟨hsame ▸ h.1, fun name hname => h.2 name (hsubset hname)⟩

theorem additive_bears : Additive Bears where
  nil _ := .of_silent (List.suffix_refl _) rfl
  append h hmore := h.append hmore
  added h := by
    unfold added
    split
    · exact .of_silent h.1 rfl
    · exact h

/-- The element adds names only from tokens that a name can be read from, and never the word `new`. -/
def bearsNames (element : Element Phrase) : Bool :=
  element.references.all (· != .newName) &&
    match element with
    | .token (.identifier _) _ | .token _ .number | .token _ .string => true
    | .token _ _ => false
    | .spelling _ keep => !keep
    | .expression _ _ shape => shape == .binary
    | _ => true

theorem bearsNames_rule : ∀ l p, (p == .dot || p == .newName || (rule l p).elements.all bearsNames) = true :=
  checked (by decide)

theorem adds_bears (htells : tellsReserved element = true) (hbears : bearsNames element = true) :
    element.Adds Bears := by
  simp only [bearsNames, Bool.and_eq_true] at hbears
  cases element with
  | token accepted maker =>
    intro c t rest node next accepts made
    have hsuffix : rest <:+ c.tokens := next ▸ List.suffix_cons t rest
    cases accepted with
    | identifier words =>
      obtain rfl := beq_iff_eq.mp htells
      have hnames : node.names ⊆ [t.text] := by cases maker <;> cases made <;> simp
      refine ⟨hsuffix, fun name hname => ⟨t, next ▸ List.mem_cons_self, accepts, ?_⟩⟩
      exact (List.mem_singleton.mp (hnames (by simpa using hname))).symm
    | number | string =>
      refine .of_silent hsuffix ?_
      cases maker with
      | number | string =>
        cases made
        rfl
      | leaf | name | refuse reason => cases hbears.2
  | spelling spellings keep =>
    intro c t rest next _
    obtain rfl : keep = false := by simpa using hbears.2
    exact .of_silent (next ▸ List.suffix_cons t rest) rfl
  | expression q table shape =>
    -- an operator leaves no name
    intro c c₁ c₂ t rest left right joined hleft next hright built
    obtain rfl := beq_iff_eq.mp hbears.2
    have hoperator : Bears c₁ [] (c₁.withTokens rest) := .of_silent (next ▸ List.suffix_cons t rest) rfl
    refine (hleft.append (hoperator.append hright)).of_subset rfl ?_
    simp [Shape.names_binary built]
  | _ => trivial

theorem bears_finishes {shape : Option Shape} (h : Bears c nodes c₁) (hfinishes : Finishes nodes c₁ node c' shape) :
    Bears c [node] c' := by
  cases shape with
  | none =>
    obtain ⟨rfl, rfl⟩ := hfinishes
    exact h.of_subset rfl (by simp [Shape.names_gather])
  | some shape =>
    obtain ⟨hbuilt, rfl⟩ := hfinishes
    exact h.of_subset rfl (by simpa using Shape.names_build hbuilt)

theorem reads_newName (h : Reads l levels .newName c node c') : ∃ line, node = .leaf ⟨text "new", line⟩ := by
  cases levels with
  | zero => exact h.elim
  | succ levels =>
    obtain ⟨children, c₁, htakes, hfinishes⟩ := h
    cases htakes with
    | cons first others =>
      cases others
      cases first with
      | @spelling _ _ _ t rest next spelled =>
        obtain ⟨rfl, -⟩ := hfinishes
        have htext : t.text = text "new" := by
          rw [Parse.isSpelled_iff, List.mem_singleton] at spelled
          exact spelled.2
        exact ⟨t.line, by simp [Shape.gather, htext]⟩

theorem bears_reads (hp : p ≠ .newName) (h : Reads l levels p c node c') : Bears c [node] c' := by
  induction levels generalizing p c node c' with
  | zero => exact h.elim
  | succ levels ih =>
    have hsuffix := Reads.suffix h
    obtain ⟨children, c₁, htakes, hfinishes⟩ := h
    by_cases hdot : p = .dot
    · -- after the dot comes a name or the word `new`, which makes no name
      subst hdot
      cases htakes with
      | cons first others =>
        cases others with
        | cons second others =>
          cases others
          cases first with
          | @spelling _ _ _ t rest next spelled =>
            cases second with
            | @choice _ q _ _ t' node' sees chosen reads =>
              have hmem := List.mem_of_find?_eq_some chosen
              simp only [List.mem_cons, List.not_mem_nil, or_false] at hmem
              rcases hmem with rfl | rfl
              · have hmember : Bears (c.withTokens rest) [node'] c₁ := ih (by decide) reads
                have hdropped : Bears c [] (c.withTokens rest) :=
                  .of_silent (next ▸ List.suffix_cons t rest) rfl
                exact bears_finishes (hdropped.append hmember) hfinishes
              · obtain ⟨line, rfl⟩ := reads_newName reads
                obtain ⟨hbuilt, rfl⟩ := hfinishes
                cases hbuilt
                exact .of_silent hsuffix (by simp [Label.text, Label.word])
    · have htable := bearsNames_rule l.withNeeds p
      have hrule : ∀ element ∈ (rule l.withNeeds p).elements, bearsNames element = true := by
        simpa [hdot, hp] using htable
      refine bears_finishes (htakes.adds additive_bears (fun element helement => ?_) ?_) hfinishes
      · exact adds_bears (tellsReserved_element l p element helement) (hrule element helement)
      · intro element helement q hq c node c' hreads
        have hnames := (Bool.and_eq_true_iff.mp (hrule element helement)).1
        exact ih (by simpa using List.all_eq_true.mp hnames q hq) hreads

theorem bears_units (h : ReadsUnits l levels c units c') : Bears c units c' := by
  induction h with
  | nil => exact .of_silent (List.suffix_refl _) rfl
  | cons first rest ih => exact (bears_reads (by decide) first).append ih

end Language

/-! ## What identifier tokens look like -/

namespace Token

/-- The text is an identifier: a letter or an underscore, and then letters, digits and underscores. -/
def isIdentifier : Text → Bool
  | [] => false
  | b :: rest => isNameStart b && rest.all isNamePart

/-- The text can be an identifier token: an identifier, an operator of two bytes, or a punctuation byte that opens no
string. -/
def isSpelling (spelling : Text) : Bool :=
  isIdentifier spelling || pairs.contains spelling ||
    spelling.length == 1 && spelling.all isPunctuation && spelling != [Text.quoteMark]

theorem isSpelling_of_lexeme (h : lexeme? b rest = some (.symbol spelling))
    (hquote : spelling ≠ [Text.quoteMark]) : isSpelling spelling = true := by
  revert h
  fun_cases lexeme? b rest with
  | case1 | case2 | case3 | case8 => nofun
  | case4 _ _ hopen =>
    rintro ⟨⟩
    exact absurd (by rw [hopen]) hquote
  | case5 _ _ _ hname =>
    rintro ⟨⟩
    have hrest : (rest.takeWhile isNamePart).all isNamePart = true := List.all_takeWhile
    simp [isSpelling, isIdentifier, hname, hrest]
  | case6 _ _ _ _ hpair =>
    rintro ⟨⟩
    simp only [isSpelling, hpair, Bool.or_true, Bool.true_or]
  | case7 _ _ hopen _ _ hpunctuation =>
    rintro ⟨⟩
    simp [isSpelling, hpunctuation, hopen]

theorem spelled_scanFrom {line : Int} {covered : Nat} {content : Text} :
    ∀ t ∈ (scanFrom line covered content).1, t.kind = .identifier → isSpelling t.text = true := by
  fun_induction scanFrom line covered content with
  | case1 | case4 | case5 => exact List.forall_mem_nil _
  | case2 _ _ _ ih => exact ih
  | case3 _ _ _ ih => exact ih
  | case6 b rest _ lexeme hlexeme token htoken more fault hmore ih =>
    intro t ht hkind
    rw [hmore] at ih
    rcases List.mem_append.mp ht with ht | ht
    · obtain rfl : token = some t := Option.mem_toList.mp ht
      cases lexeme with
      | comment length => cases htoken
      | number digits =>
        simp only [Lexeme.token?] at htoken
        split at htoken <;> cases htoken
        cases hkind
      | string body =>
        cases htoken
        cases hkind
      | symbol spelling =>
        simp only [Lexeme.token?] at htoken
        split at htoken
        · cases htoken
        · rename_i hquote
          cases htoken
          exact isSpelling_of_lexeme hlexeme hquote
    · exact ih t ht hkind

end Token

theorem Stream.spelled_tokensOf (line : Nat) (pending : List Text) :
    ∀ t ∈ tokensOf line pending, t.kind = .identifier → t.isEndOfLine = true ∨ Token.isSpelling t.text = true := by
  intro t ht hkind
  rcases mem_tokensOf ht with ⟨line, content, ht⟩ | ⟨line, rfl⟩
  · exact .inr (Token.spelled_scanFrom t ht hkind)
  · exact .inl rfl

/-! ## The names of a program -/

namespace Language

/-- The spellings that are neither reserved nor identifiers, and are read as names. -/
def strays : List Text :=
  [text "<=", text ">=", text "&&", text "||", text "!", text "#", text "$", text "&", text "'", text ":", text "?",
    text "@", text "\\", text "^", text "\x60", text "|", text "~"]

theorem stray_of_unreserved (h : Token.isSpelling spelling = true)
    (hreserved : isReserved spelling = false) : Token.isIdentifier spelling = true ∨ spelling ∈ strays := by
  simp only [Token.isSpelling, Bool.or_eq_true, Bool.and_eq_true, beq_iff_eq, List.contains_iff_mem, bne_iff_ne,
    ne_eq] at h
  rcases h with (hword | hpair) | ⟨⟨hlength, hpunctuation⟩, hquote⟩
  · exact .inl hword
  · have hpairs : Token.pairs.all (fun pair => isReserved pair || strays.contains pair) = true := by decide
    have hone := List.all_eq_true.mp hpairs spelling hpair
    rw [hreserved, Bool.false_or, List.contains_iff_mem] at hone
    exact .inr hone
  · obtain ⟨b, rfl⟩ := List.length_eq_one_iff.mp hlength
    have hbyte := Token.checkedBytes (fun b => !Token.isPunctuation b || isReserved [b] || b == Text.quoteMark ||
      Token.isIdentifier [b] || strays.contains [b]) (by decide) b
    have hb : b ≠ Text.quoteMark := fun heq => hquote (by rw [heq])
    simp only [List.all_cons, List.all_nil, Bool.and_true] at hpunctuation
    simpa [hpunctuation, hreserved, hb] using hbyte

/-- A name in a program is unreserved, and it is an identifier or one of the stray spellings. -/
theorem names_parseAll (l : Layers) (settings : ParseSettings) (source : Text) (broken : Option Text) (site : Site) :
    ∀ unit ∈ (parseAll l settings (.start (.ofText source broken) site)).1.units, ∀ name ∈ unit.names,
      isReserved name = false ∧ (Token.isIdentifier name = true ∨ name ∈ strays) := by
  intro unit hunit name hname
  have hinside : ∀ t ∈ (Reading.start (.ofText source broken) site).cursor.tokens, t.isEndOfInput = false :=
    Stream.isEndOfInput_ofText source broken
  obtain ⟨c, hreads, -⟩ := reads_of_parseUnits hinside
  have hmem : name ∈ allNames (parseAll l settings (.start (.ofText source broken) site)).1.units := by
    obtain ⟨before, after, hsplit⟩ := List.append_of_mem hunit
    rw [hsplit, allNames_append]
    exact List.mem_append_right _ (List.mem_append_left _ hname)
  obtain ⟨t, ht, haccepts, rfl⟩ := (bears_units hreads).2 name hmem
  rw [accepts_name, Bool.and_eq_true, beq_iff_eq, Bool.not_eq_true'] at haccepts
  obtain ⟨hkind, hreserved⟩ := haccepts
  refine ⟨hreserved, ?_⟩
  rcases Stream.spelled_tokensOf _ _ t ht hkind with hend | hspelling
  · -- the end of a line is reserved
    have htext : t.text = Token.endOfLineText := by
      simp only [Token.isEndOfLine, Bool.and_eq_true, beq_iff_eq] at hend
      exact hend.2
    rw [htext] at hreserved
    exact absurd hreserved (by decide)
  · exact stray_of_unreserved hspelling hreserved

/-- All of the stray spellings are names: each can be assigned to. -/
theorem names_parseAll_assigned :
    (∀ spelling ∈ strays,
      (parseAll .full ⟨100, false⟩ (.start (.ofText (spelling ++ text " = 5\n") none) 0)).1.units.map Node.names
        = [[spelling]]) ∧
      isReserved (text "<=") = false ∧ (Token.isIdentifier (text "<=") = true ∨ text "<=" ∈ strays) := by
  have hassigned : ∀ spelling ∈ strays,
      (parseAll .full ⟨100, false⟩ (.start (.ofText (spelling ++ text " = 5\n") none) 0)).1.units.map Node.names
        = [[spelling]] := by decide +kernel
  refine ⟨hassigned, ?_⟩
  have hnames := hassigned (text "<=") (by decide)
  obtain ⟨unit, hunits, hunit⟩ := List.map_eq_singleton_iff.mp hnames
  exact names_parseAll .full ⟨100, false⟩ (text "<=" ++ text " = 5\n") none 0 unit (by simp [hunits]) (text "<=")
    (by simp [hunit])

end Language

end StoneLang
