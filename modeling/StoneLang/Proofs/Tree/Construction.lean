/-
  What a constructed node is made of.

  `Shape.build` checks the children that it is given and puts them into their places.  `Shape.Built` says what it can make
  of them, one case for each way to succeed, and `Shape.built_of_build` that it makes nothing else.  So a node has the
  children that it was built from (`Shape.children_build`); only an operand without suffixes gains no level.
-/
import StoneLang.Proofs.Result
import StoneLang.Tree.Build

namespace StoneLang

namespace Shape

/-- What a shape makes of its children, at a site. -/
inductive Built (site : Site) : Shape → List Node → Node → Prop where
  | list {children : List Node} : Built site .list children (.list children)
  | binary {left right : Node} {operator : Label} :
      Built site .binary [left, operator.toNode, right] (.binary left operator right)
  | negative {operand : Node} : Built site .negative [operand] (.negative operand)
  | block {children : List Node} : Built site .block children (.block children)
  | conditional {condition consequence : Node} {alternative : Option Node} :
      Built site .conditional (condition :: consequence :: alternative.toList)
        (.conditional condition consequence alternative)
  | loop {condition body : Node} : Built site .loop [condition, body] (.loop condition body)
  | empty : Built site .empty [] .empty
  | parameters {names : List Label} : Built site .parameters (names.map Label.toNode) (.parameters names)
  | arguments {children : List Node} : Built site .arguments children (.suffix (.arguments children))
  | definition {title : Label} {params : List Label} {body : List Node} :
      Built site .definition [title.toNode, .parameters params, .block body] (.definition site title params body)
  | closure {params : List Label} {body : List Node} :
      Built site .closure [.parameters params, .block body] (.closure site params body)
  | operand {operand : Node} : Built site .primary [operand] operand
  | primary {operand : Node} {inner : List Suffix} {last : Suffix} :
      Built site .primary (operand :: inner.map .suffix ++ [.suffix last]) (.primary operand inner last)
  | member {title : Label} : Built site .member [title.toNode] (.suffix (.member site title))
  | array {children : List Node} : Built site .array children (.array children)
  | element {index : Node} : Built site .element [index] (.suffix (.element index))
  | classDefinition {title : Label} {parent : Option Label} {members : List Node} :
      Built site .classDefinition (title.toNode :: (parent.toList.map Label.toNode ++ [.classBody members]))
        (.classDefinition site title parent members)
  | classBody {children : List Node} : Built site .classBody children (.classBody children)

variable {shape : Shape} {child : Node} {children : List Node}

theorem labelOf_eq (h : labelOf shape child = .ok l) : child = l.toNode := by
  cases child <;> simp_all [labelOf, Node.label?] <;> subst h <;> rfl

theorem suffixOf_eq (h : suffixOf child = .ok s) : child = .suffix s := by
  cases child <;> simp_all [suffixOf]

theorem parametersOf_eq (h : parametersOf keyword child = .ok names) : child = .parameters names := by
  cases child <;> simp_all [parametersOf]

theorem blockOf_eq (h : blockOf keyword child = .ok statements) : child = .block statements := by
  cases child <;> simp_all [blockOf]

theorem membersOf_eq (h : membersOf line child = .ok members) : child = .classBody members := by
  cases child <;> simp_all [membersOf]

theorem mapM_eq {α : Type} {f : Node → Except Diagnostic α} {back : α → Node}
    (hf : ∀ child a, f child = .ok a → child = back a) {as : List α} (h : children.mapM f = .ok as) :
    children = as.map back := by
  induction children generalizing as with
  | nil =>
    cases h
    rfl
  | cons child rest ih =>
    rw [List.mapM_cons] at h
    obtain ⟨a, ha, h⟩ := except_bind_eq_ok.mp h
    obtain ⟨more, hmore, h⟩ := except_bind_eq_ok.mp h
    cases h
    rw [List.map_cons, ← hf child a ha, ← ih hmore]

theorem built_of_build (h : shape.build site children = .ok node) : Built site shape children node := by
  unfold build at h
  split at h
  case h_2 left operator right =>
    obtain ⟨l, hl, hnode⟩ := except_bind_eq_ok.mp h
    cases hnode
    rw [labelOf_eq hl]
    exact .binary
  case h_14 =>
    obtain ⟨names, hnames, hnode⟩ := except_bind_eq_ok.mp h
    cases hnode
    rw [mapM_eq (fun _ _ => labelOf_eq) hnames]
    exact .parameters
  case h_16 title params body =>
    obtain ⟨l, hl, h⟩ := except_bind_eq_ok.mp h
    obtain ⟨names, hnames, h⟩ := except_bind_eq_ok.mp h
    obtain ⟨statements, hbody, hnode⟩ := except_bind_eq_ok.mp h
    cases hnode
    rw [labelOf_eq hl, parametersOf_eq hnames, blockOf_eq hbody]
    exact .definition
  case h_18 params body =>
    obtain ⟨names, hnames, h⟩ := except_bind_eq_ok.mp h
    obtain ⟨statements, hbody, hnode⟩ := except_bind_eq_ok.mp h
    cases hnode
    rw [parametersOf_eq hnames, blockOf_eq hbody]
    exact .closure
  case h_21 operand rest =>
    obtain ⟨suffixes, hsuffixes, hnode⟩ := except_bind_eq_ok.mp h
    cases hnode
    rw [mapM_eq (fun _ _ => suffixOf_eq) hsuffixes]
    unfold operandWith
    cases hlast : suffixes.getLast? with
    | none =>
      rw [List.getLast?_eq_none_iff.mp hlast]
      exact .operand
    | some last =>
      obtain ⟨inner, rfl⟩ := List.getLast?_eq_some_iff.mp hlast
      simpa using Built.primary
  case h_22 title =>
    obtain ⟨l, hl, hnode⟩ := except_bind_eq_ok.mp h
    cases hnode
    rw [labelOf_eq hl]
    exact .member
  case h_27 title body =>
    obtain ⟨l, hl, h⟩ := except_bind_eq_ok.mp h
    obtain ⟨members, hmembers, hnode⟩ := except_bind_eq_ok.mp h
    cases hnode
    rw [labelOf_eq hl, membersOf_eq hmembers]
    exact @Built.classDefinition site l none members
  case h_28 title parent body =>
    obtain ⟨l, hl, h⟩ := except_bind_eq_ok.mp h
    obtain ⟨p, hp, h⟩ := except_bind_eq_ok.mp h
    obtain ⟨members, hmembers, hnode⟩ := except_bind_eq_ok.mp h
    cases hnode
    rw [labelOf_eq hl, labelOf_eq hp, membersOf_eq hmembers]
    exact @Built.classDefinition site l (some p) members
  -- the children are put into their places as they are
  case h_7 =>
    cases h
    exact @Built.conditional site _ _ none
  case h_8 other =>
    cases h
    exact @Built.conditional site _ _ (some other)
  all_goals
    cases h
    try constructor

/-- A node has the children that it was built from; an operand without suffixes is the operand. -/
theorem children_build (h : shape.build site children = .ok node) :
    node.children = children ∨ shape = .primary ∧ children = [node] := by
  cases built_of_build h with
  | operand => exact .inr ⟨rfl, rfl⟩
  | _ => exact .inl rfl

end Shape

/-! ## Words -/

mutual

/-- The words at the leaves of a tree, in source order. -/
@[grind =] def Node.words : Node → List Word
  | .leaf word | .number word _ | .string word | .name _ word => [word]
  | .empty => []
  | .list children | .block children | .array children | .classBody children => allWords children
  | .binary left operator right => left.words ++ operator.word :: right.words
  | .negative operand => operand.words
  | .conditional condition consequence none => condition.words ++ consequence.words
  | .conditional condition consequence (some alternative) =>
    condition.words ++ consequence.words ++ alternative.words
  | .loop condition body => condition.words ++ body.words
  | .parameters names => names.map Label.word
  | .definition _ title params body => title.word :: (params.map Label.word ++ allWords body)
  | .closure _ params body => params.map Label.word ++ allWords body
  | .primary operand inner last => operand.words ++ allSuffixWords inner ++ last.words
  | .suffix s => s.words
  | .classDefinition _ title parent members =>
    title.word :: (parent.toList.map Label.word ++ allWords members)

/-- The words of a suffix. -/
@[grind =] def Suffix.words : Suffix → List Word
  | .arguments values => allWords values
  | .member _ title => [title.word]
  | .element index => index.words

@[grind =] def allWords : List Node → List Word
  | [] => []
  | n :: rest => n.words ++ allWords rest

@[grind =] def allSuffixWords : List Suffix → List Word
  | [] => []
  | s :: rest => s.words ++ allSuffixWords rest

end

theorem allWords_eq (nodes : List Node) : allWords nodes = nodes.flatMap Node.words := by
  induction nodes with
  | nil => rfl
  | cons n rest ih => simp [allWords, ih]

theorem allWords_append (nodes more : List Node) : allWords (nodes ++ more) = allWords nodes ++ allWords more := by
  simp [allWords_eq]

@[simp] theorem Label.words_toNode (l : Label) : l.toNode.words = [l.word] := by
  cases l <;> rfl

theorem allWords_labels (labels : List Label) : allWords (labels.map Label.toNode) = labels.map Label.word := by
  induction labels with
  | nil => rfl
  | cons l rest ih => simp [allWords, ih]

theorem allWords_suffixes (suffixes : List Suffix) : allWords (suffixes.map .suffix) = allSuffixWords suffixes := by
  induction suffixes with
  | nil => rfl
  | cons s rest ih => simp [allWords, allSuffixWords, Node.words, ih]

namespace Shape

theorem build_words {site : Site} {shape : Shape} {children : List Node} {node : Node}
    (h : shape.build site children = .ok node) : node.words = allWords children := by
  cases built_of_build h with
  | conditional => rename_i alternative; cases alternative <;> simp [Node.words, allWords]
  | _ => simp [Node.words, Suffix.words, allWords, allWords_append, allWords_labels, allWords_suffixes]

theorem gather_words (children : List Node) : (gather children).words = allWords children := by
  rcases children with _ | ⟨child, _ | ⟨next, rest⟩⟩ <;> simp [gather, Node.words, allWords]

end Shape

end StoneLang
