/-
  Whatever a rule collects can be built.

  A shape asks for a number of children and, in some places, for a child of a certain kind: a label, a list of
  parameters, a block, a suffix, the body of a class (`Role`).  Every element of a rule says how many nodes it
  adds, and of which kind (`Slot`).  The table of rules is checked once: each shape gets what it asks for
  (`Shape.admits`).  So a row of elements that was read to its end always makes a node
  (`Language.reads_of_takesAll`), and the only faults of a text are those of its tokens.
-/
import Mathlib.Data.List.Basic
import StoneLang.Proofs.Grammar.Derivation

namespace StoneLang

/-! ## Kinds of children -/

/-- What a shape asks of a child. -/
inductive Role where
  | any | label | parameters | block | suffix | members
deriving DecidableEq

def Role.suits : Role → Node → Bool
  | .any, _ => true
  | .label, node => node.label?.isSome
  | .parameters, .parameters _ => true
  | .block, .block _ => true
  | .suffix, .suffix _ => true
  | .members, .classBody _ => true
  | _, _ => false

/-- How many nodes there are. -/
inductive Count where
  | one | maybe | many
deriving DecidableEq

/-- What one element adds to the children of its rule. -/
structure Slot where
  count : Count
  role : Role
deriving DecidableEq

/-- The nodes are what the slot says. -/
structure Slot.Takes (slot : Slot) (nodes : List Node) : Prop where
  role : ∀ node ∈ nodes, slot.role.suits node = true
  one : slot.count = .one → nodes.length = 1
  maybe : slot.count = .maybe → nodes.length ≤ 1

/-- The nodes are what a row of slots says. -/
inductive Fill : List Slot → List Node → Prop where
  | nil : Fill [] []
  | cons {slot : Slot} {rest : List Slot} {nodes more : List Node} (first : slot.Takes nodes) (others : Fill rest more) :
      Fill (slot :: rest) (nodes ++ more)

namespace Fill

variable {rest : List Slot} {nodes more : List Node} {role : Role}

theorem append (h : Fill slots nodes) (h' : Fill rest more) : Fill (slots ++ rest) (nodes ++ more) := by
  induction h with
  | nil => exact h'
  | cons first others ih =>
    rw [List.append_assoc]
    exact .cons first ih

theorem single (h : slot.Takes nodes) : Fill [slot] nodes := by
  have hfill : Fill [slot] (nodes ++ []) := .cons h .nil
  rwa [List.append_nil] at hfill

theorem one (h : Fill (⟨.one, role⟩ :: rest) nodes) :
    ∃ node more, nodes = node :: more ∧ role.suits node = true ∧ Fill rest more := by
  cases h with
  | @cons _ _ first more hfirst others =>
    obtain ⟨node, rfl⟩ := List.length_eq_one_iff.mp (hfirst.one rfl)
    exact ⟨node, more, rfl, hfirst.role node List.mem_cons_self, others⟩

theorem maybe (h : Fill (⟨.maybe, role⟩ :: rest) nodes) :
    Fill rest nodes ∨ ∃ node more, nodes = node :: more ∧ role.suits node = true ∧ Fill rest more := by
  cases h with
  | @cons _ _ first more hfirst others =>
    rcases first with _ | ⟨node, _ | ⟨next, others'⟩⟩
    · exact .inl others
    · exact .inr ⟨node, more, rfl, hfirst.role node List.mem_cons_self, others⟩
    · have hlength := hfirst.maybe rfl
      simp at hlength

theorem all (h : Fill slots nodes) (hrole : (slots.all fun slot => slot.role == role) = true) :
    ∀ node ∈ nodes, role.suits node = true := by
  induction h with
  | nil => simp
  | @cons slot rest first more hfirst others ih =>
    simp only [List.all_cons, Bool.and_eq_true, beq_iff_eq] at hrole
    exact List.forall_mem_append.mpr ⟨hrole.1 ▸ hfirst.role, ih hrole.2⟩

theorem empty (h : Fill [] nodes) : nodes = [] := by
  cases h
  rfl

end Fill

/-! ## Shapes -/

namespace Shape

def role : Shape → Role
  | .parameters => .parameters
  | .block => .block
  | .arguments | .member | .element => .suffix
  | .classBody => .members
  | _ => .any

def admits : Shape → List Slot → Bool
  | .list, _ | .block, _ | .arguments, _ | .array, _ | .classBody, _ => true
  | .negative, slots | .element, slots => slots == [⟨.one, .any⟩]
  | .conditional, slots => slots == [⟨.one, .any⟩, ⟨.one, .block⟩, ⟨.maybe, .any⟩]
  | .loop, slots => slots == [⟨.one, .any⟩, ⟨.one, .block⟩]
  | .empty, slots => slots == []
  | .parameters, slots => slots.all fun slot => slot.role == .label
  | .definition, slots => slots == [⟨.one, .label⟩, ⟨.one, .parameters⟩, ⟨.one, .block⟩]
  | .closure, slots => slots == [⟨.one, .parameters⟩, ⟨.one, .block⟩]
  | .primary, slots => slots.head? == some ⟨.one, .any⟩ && slots.tail.all fun slot => slot.role == .suffix
  | .member, slots => slots == [⟨.one, .label⟩]
  | .classDefinition, slots => slots == [⟨.one, .label⟩, ⟨.maybe, .label⟩, ⟨.one, .members⟩]
  | .binary, slots => slots == [⟨.one, .any⟩, ⟨.one, .label⟩, ⟨.one, .any⟩]

variable {node : Node}

theorem labelOf_suits (shape : Shape) (h : Role.suits .label node = true) :
    ∃ label, labelOf shape node = .ok label := by
  obtain ⟨label, hlabel⟩ := Option.isSome_iff_exists.mp h
  exact ⟨label, by rw [labelOf, hlabel]⟩

theorem parametersOf_suits (keyword : String) (h : Role.suits .parameters node = true) :
    ∃ names, parametersOf keyword node = .ok names := by
  cases node <;> first | exact ⟨_, rfl⟩ | cases h

theorem blockOf_suits (keyword : String) (h : Role.suits .block node = true) :
    ∃ statements, blockOf keyword node = .ok statements := by
  cases node <;> first | exact ⟨_, rfl⟩ | cases h

theorem suffixOf_suits (h : Role.suits .suffix node = true) : ∃ s, suffixOf node = .ok s := by
  cases node <;> first | exact ⟨_, rfl⟩ | cases h

theorem membersOf_suits (line : Int) (h : Role.suits .members node = true) :
    ∃ members, membersOf line node = .ok members := by
  cases node <;> first | exact ⟨_, rfl⟩ | cases h

theorem mapM_suits {α : Type} {f : Node → Except Diagnostic α} {role : Role}
    (hf : ∀ node, role.suits node = true → ∃ a, f node = .ok a) {nodes : List Node}
    (h : ∀ node ∈ nodes, role.suits node = true) : ∃ as, nodes.mapM f = .ok as := by
  induction nodes with
  | nil => exact ⟨[], rfl⟩
  | cons node rest ih =>
    obtain ⟨a, ha⟩ := hf node (h node List.mem_cons_self)
    obtain ⟨as, has⟩ := ih fun other hother => h other (List.mem_cons_of_mem _ hother)
    exact ⟨a :: as, by rw [List.mapM_cons, ha, has]; rfl⟩

theorem build_fill {shape : Shape} {slots : List Slot} {nodes : List Node} (h : shape.admits slots = true)
    (hfill : Fill slots nodes) (site : Site) :
    ∃ node, shape.build site nodes = .ok node ∧ shape.role.suits node = true := by
  cases shape with
  | list | block | arguments | array | classBody => exact ⟨_, rfl, rfl⟩
  | negative | element =>
    cases beq_iff_eq.mp h
    obtain ⟨operand, more, rfl, -, hfill⟩ := hfill.one
    cases hfill.empty
    exact ⟨_, rfl, rfl⟩
  | conditional =>
    cases beq_iff_eq.mp h
    obtain ⟨condition, more, rfl, -, hfill⟩ := hfill.one
    obtain ⟨consequence, more, rfl, -, hfill⟩ := hfill.one
    rcases hfill.maybe with hfill | ⟨alternative, more, rfl, -, hfill⟩
    · cases hfill.empty
      exact ⟨_, rfl, rfl⟩
    · cases hfill.empty
      exact ⟨_, rfl, rfl⟩
  | loop =>
    cases beq_iff_eq.mp h
    obtain ⟨condition, more, rfl, -, hfill⟩ := hfill.one
    obtain ⟨body, more, rfl, -, hfill⟩ := hfill.one
    cases hfill.empty
    exact ⟨_, rfl, rfl⟩
  | empty =>
    cases beq_iff_eq.mp h
    cases hfill.empty
    exact ⟨_, rfl, rfl⟩
  | parameters =>
    obtain ⟨names, hnames⟩ := mapM_suits (fun _ => labelOf_suits .parameters) (hfill.all h)
    exact ⟨.parameters names, by simp only [build, hnames]; rfl, rfl⟩
  | definition =>
    cases beq_iff_eq.mp h
    obtain ⟨title, more, rfl, htitle, hfill⟩ := hfill.one
    obtain ⟨params, more, rfl, hparams, hfill⟩ := hfill.one
    obtain ⟨body, more, rfl, hbody, hfill⟩ := hfill.one
    cases hfill.empty
    obtain ⟨label, hlabel⟩ := labelOf_suits .definition htitle
    obtain ⟨names, hnames⟩ := parametersOf_suits "def" hparams
    obtain ⟨statements, hstatements⟩ := blockOf_suits "def" hbody
    exact ⟨.definition site label names statements, by simp only [build, hlabel, hnames, hstatements]; rfl, rfl⟩
  | closure =>
    cases beq_iff_eq.mp h
    obtain ⟨params, more, rfl, hparams, hfill⟩ := hfill.one
    obtain ⟨body, more, rfl, hbody, hfill⟩ := hfill.one
    cases hfill.empty
    obtain ⟨names, hnames⟩ := parametersOf_suits "fun" hparams
    obtain ⟨statements, hstatements⟩ := blockOf_suits "fun" hbody
    exact ⟨.closure site names statements, by simp only [build, hnames, hstatements]; rfl, rfl⟩
  | primary =>
    simp only [admits, Bool.and_eq_true, beq_iff_eq] at h
    obtain ⟨rest, rfl⟩ : ∃ rest, slots = ⟨.one, .any⟩ :: rest := ⟨slots.tail, (List.eq_cons_of_mem_head? h.1)⟩
    obtain ⟨operand, more, rfl, -, hfill⟩ := hfill.one
    obtain ⟨suffixes, hsuffixes⟩ := mapM_suits (fun _ => suffixOf_suits) (hfill.all h.2)
    exact ⟨operandWith operand suffixes, by simp only [build, hsuffixes]; rfl, rfl⟩
  | member =>
    cases beq_iff_eq.mp h
    obtain ⟨title, more, rfl, htitle, hfill⟩ := hfill.one
    cases hfill.empty
    obtain ⟨label, hlabel⟩ := labelOf_suits .member htitle
    exact ⟨.suffix (.member site label), by simp only [build, hlabel]; rfl, rfl⟩
  | classDefinition =>
    cases beq_iff_eq.mp h
    obtain ⟨title, more, rfl, htitle, hfill⟩ := hfill.one
    obtain ⟨label, hlabel⟩ := labelOf_suits .classDefinition htitle
    rcases hfill.maybe with hfill | ⟨parent, more, rfl, hparent, hfill⟩
    · obtain ⟨body, more, rfl, hbody, hfill⟩ := hfill.one
      cases hfill.empty
      obtain ⟨members, hmembers⟩ := membersOf_suits title.line hbody
      exact ⟨.classDefinition site label none members, by simp only [build, hlabel, hmembers]; rfl, rfl⟩
    · obtain ⟨body, more, rfl, hbody, hfill⟩ := hfill.one
      cases hfill.empty
      obtain ⟨parentLabel, hparentLabel⟩ := labelOf_suits .classDefinition hparent
      obtain ⟨members, hmembers⟩ := membersOf_suits title.line hbody
      exact ⟨.classDefinition site label (some parentLabel) members,
        by simp only [build, hlabel, hparentLabel, hmembers]; rfl, rfl⟩
  | binary =>
    cases beq_iff_eq.mp h
    obtain ⟨left, more, rfl, -, hfill⟩ := hfill.one
    obtain ⟨operator, more, rfl, hoperator, hfill⟩ := hfill.one
    obtain ⟨right, more, rfl, -, hfill⟩ := hfill.one
    cases hfill.empty
    obtain ⟨label, hlabel⟩ := labelOf_suits .binary hoperator
    exact ⟨.binary left label right, by simp only [build, hlabel]; rfl, rfl⟩

end Shape

/-! ## Rules -/

namespace Language

def Phrase.role : Phrase → Role
  | .block => .block
  | .parameters | .noParameters | .parameterList => .parameters
  | .parameter | .parameterTail | .superclass | .memberName | .newName => .label
  | .arguments | .noArguments | .suffix | .call | .dot | .subscript => .suffix
  | .classBody => .members
  | _ => .any

def commonRole : List Phrase → Role
  | [] => .any
  | p :: rest => if rest.all fun q => q.role == p.role then p.role else .any

def slotsOf : Element Phrase → List Slot
  | .phrase q => [⟨.one, q.role⟩]
  | .choice rules => [⟨.one, commonRole rules⟩]
  | .repeated q => [⟨.many, q.role⟩]
  | .optional q => [⟨.maybe, q.role⟩]
  | .token _ .leaf | .spelling _ true => [⟨.one, .label⟩]
  | .token _ _ | .expression .. => [⟨.one, .any⟩]
  | .spelling _ false => []

/-- What is checked of a rule: its shape gets what it asks for, and gives what the phrase is used for. -/
def roleRule (l : Layers) (p : Phrase) : Bool :=
  let slots := (rule l p).elements.flatMap slotsOf
  match (rule l p).shape with
  | some shape => shape.admits slots && (p.role == .any || p.role == shape.role)
  | none => p.role == .any || slots == [⟨.one, p.role⟩]

theorem roleRule_eq_true : ∀ l p, roleRule l p = true := checked (by decide)

variable {l : Layers} {levels : Nat} {starts : Phrase → Token → Bool} {recur : Phrase → Piece} {c c' : Cursor}

theorem suits_common (hq : q ∈ rules) (h : q.role.suits node = true) :
    (commonRole rules).suits node = true := by
  cases rules with
  | nil => cases hq
  | cons p rest =>
    by_cases hall : (rest.all fun q => q.role == p.role) = true
    · rw [show commonRole (p :: rest) = p.role from if_pos hall]
      rcases List.mem_cons.mp hq with rfl | hrest
      · exact h
      · rw [← beq_iff_eq.mp (List.all_eq_true.mp hall q hrest)]
        exact h
    · rw [show commonRole (p :: rest) = .any from if_neg hall]
      rfl

section

variable (hrecur : ∀ q c node c', recur q c node c' → q.role.suits node = true)

include hrecur

theorem suits_repeats (h : Repeats fits (recur q) c nodes c') :
    ∀ node ∈ nodes, q.role.suits node = true := by
  induction h with
  | stop => simp
  | round sees goes first rest ih =>
    refine List.forall_mem_append.mpr ⟨?_, ih⟩
    unfold added
    split
    · exact List.forall_mem_nil _
    · exact List.forall_mem_singleton.mpr (hrecur _ _ _ _ first)

theorem fill_of_takes (h : Takes starts recur element c nodes c') :
    Fill (slotsOf element) nodes := by
  have hone : ∀ {role : Role} {node : Node}, role.suits node = true → Fill [⟨.one, role⟩] [node] := by
    intro role node hsuits
    refine .single ⟨?_, fun _ => rfl, fun _ => Nat.le_refl _⟩
    intro other hother
    rw [List.mem_singleton.mp hother]
    exact hsuits
  cases h with
  | phrase reads => exact hone (hrecur _ _ _ _ reads)
  | choice sees chosen reads => exact hone (suits_common (List.mem_of_find?_eq_some chosen) (hrecur _ _ _ _ reads))
  | repeated rounds =>
    exact .single ⟨suits_repeats hrecur rounds, (fun h => by cases h), (fun h => by cases h)⟩
  | absent sees ends => exact .single ⟨by simp, (fun h => by cases h), fun _ => Nat.zero_le _⟩
  | @present q _ _ _ node sees goes reads =>
    have hall : ∀ other ∈ added node, q.role.suits other = true := by
      unfold added
      split
      · simp
      · intro other hother
        rw [List.mem_singleton.mp hother]
        exact hrecur _ _ _ _ reads
    have hlength : (added node).length ≤ 1 := by
      unfold added
      split <;> simp
    exact .single ⟨hall, (fun h => by cases h), fun _ => hlength⟩
  | @token accepted maker _ t _ node next accepts made =>
    cases maker with
    | leaf =>
      cases made
      exact hone rfl
    | number | string | name | refuse reason => exact hone rfl
  | @spelling _ keep _ _ _ next spelled =>
    cases keep with
    | true => exact hone rfl
    | false => exact .nil
  | expression first rest => exact hone rfl

theorem fill_of_takesAll
    (h : TakesAll starts recur elements c nodes c') : Fill (elements.flatMap slotsOf) nodes := by
  induction h with
  | nil => exact .nil
  | cons first others ih => exact (fill_of_takes hrecur first).append ih

/-- The children that a rule collects make a node, which can be used for what the phrase is used for. -/
theorem finishes_of_takesAll {p : Phrase} {children : List Node}
    (h : TakesAll starts recur ((grammar l).rule p).elements c children c') :
    ∃ node c'', Finishes children c' node c'' ((grammar l).rule p).shape ∧ c''.tokens = c'.tokens := by
  have hfill := fill_of_takesAll hrecur h
  have htable := roleRule_eq_true l.withNeeds p
  unfold roleRule at htable
  change Fill ((rule l.withNeeds p).elements.flatMap slotsOf) children at hfill
  show ∃ node c'', Finishes children c' node c'' (rule l.withNeeds p).shape ∧ _
  cases hshape : (rule l.withNeeds p).shape with
  | none => exact ⟨_, _, ⟨rfl, rfl⟩, rfl⟩
  | some shape =>
    rw [hshape] at htable
    simp only [Bool.and_eq_true] at htable
    obtain ⟨node, hnode, -⟩ := Shape.build_fill htable.1 hfill c'.site
    exact ⟨node, c'.spend, ⟨hnode, rfl⟩, rfl⟩

end

theorem role_of_reads {p : Phrase} {node : Node} (h : Reads l levels p c node c') : p.role.suits node = true := by
  induction levels generalizing p c node c' with
  | zero => exact h.elim
  | succ levels ih =>
    obtain ⟨children, c₁, htakes, hfinishes⟩ := h
    have hfill := fill_of_takesAll (fun _ _ _ _ hreads => ih hreads) htakes
    have htable := roleRule_eq_true l.withNeeds p
    unfold roleRule at htable
    change Fill ((rule l.withNeeds p).elements.flatMap slotsOf) children at hfill
    change Finishes children c₁ node c' (rule l.withNeeds p).shape at hfinishes
    generalize (rule l.withNeeds p).shape = res at htable hfinishes ⊢
    cases res with
    | none =>
      obtain ⟨rfl, rfl⟩ := hfinishes
      rcases Bool.or_eq_true_iff.mp htable with hany | hslots
      · rw [beq_iff_eq.mp hany]
        rfl
      · rw [beq_iff_eq.mp hslots] at hfill
        obtain ⟨child, more, rfl, hsuits, hfill⟩ := hfill.one
        cases hfill.empty
        exact hsuits
    | some shape =>
      simp only [Bool.and_eq_true, Bool.or_eq_true, beq_iff_eq] at htable
      obtain ⟨built, hbuilt, hsuits⟩ := Shape.build_fill htable.1 hfill c₁.site
      obtain rfl : built = node := Except.ok.inj (hbuilt.symm.trans hfinishes.1)
      rcases htable.2 with hany | hrole
      · rw [hany]
        rfl
      · rw [hrole]
        exact hsuits

theorem reads_of_takesAll
    (h : ReadsRow l levels ((grammar l).rule p).elements c children c') :
    ∃ node c'', Reads l (levels + 1) p c node c'' ∧ c''.tokens = c'.tokens := by
  obtain ⟨node, c'', hfinishes, htokens⟩ := finishes_of_takesAll (fun _ _ _ _ => role_of_reads) h
  exact ⟨node, c'', ⟨children, c', h, hfinishes⟩, htokens⟩

end Language

end StoneLang
