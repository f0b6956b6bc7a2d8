/-
  What units look like.

  Functions and classes are defined at the top only.  A unit is a plain statement, in which nothing is
  defined, or the definition of a function with a plain body, or a class whose members are plain or are
  such definitions (`Language.isUnit_turn`).

  Most phrases give plain pieces (`Phrase.isPlain`), because their rules refer to such phrases only; this
  is checked on the table of rules, and the six other phrases follow one by one.
-/
import Mathlib.Data.List.Basic
import StoneLang.Proofs.Grammar.Derivation
import StoneLang.Proofs.Tree.Construction
import StoneLang.Proofs.Tree.Every

namespace StoneLang

/-! ## Ascending rows -/

/-- The sites are in ascending order, from `a` on and below `b`. -/
structure Ascending (a b : Nat) (sites : List Nat) : Prop where
  ordered : sites.Pairwise (· < ·)
  within : ∀ site ∈ sites, a ≤ site ∧ site < b

namespace Ascending

variable {a b c : Nat} {l l' : List Nat}

theorem nil : Ascending a b [] := ⟨.nil, by simp⟩

theorem append (h : Ascending a b l) (h' : Ascending b c l') (hab : a ≤ b) (hbc : b ≤ c) :
    Ascending a c (l ++ l') := by
  refine ⟨List.pairwise_append.mpr ⟨h.ordered, h'.ordered, ?_⟩, ?_⟩
  · intro x hx y hy
    have := (h.within x hx).2
    have := (h'.within y hy).1
    omega
  · intro x hx
    rcases List.mem_append.mp hx with hx | hx
    · have := h.within x hx
      omega
    · have := h'.within x hx
      omega

theorem sublist (h : Ascending a b l) (hsub : l'.Sublist l) : Ascending a b l' :=
  ⟨h.ordered.sublist hsub, fun x hx => h.within x (hsub.subset hx)⟩

theorem singleton (h : a < b) : Ascending a b [a] := ⟨by simp, by simpa using h⟩

theorem nodup (h : Ascending a b l) : l.Nodup := h.ordered.imp Nat.ne_of_lt

end Ascending

/-! ## The sites of a built node -/

theorem allSites_labels (labels : List Label) : allSites (labels.map Label.toNode) = labelSites labels := by
  induction labels with
  | nil => rfl
  | cons l rest ih => cases l <;> simp [allSites, labelSites, Label.toNode, Label.sites, Node.sites, ih]

namespace Shape

theorem build_sites {shape : Shape} (h : shape.build site children = .ok node) :
    node.sites.Sublist (allSites children ++ [site]) := by
  have hlabel : ∀ l : Label, l.toNode.sites = l.sites := fun l => by cases l <;> rfl
  cases built_of_build h with
  | conditional => rename_i alternative; cases alternative <;> simp [Node.sites, allSites]
  | _ => simp [Node.sites, Suffix.sites, allSites, allSites_append, allSites_suffixes, allSites_labels, hlabel]

theorem gather_sites (children : List Node) : (gather children).sites = allSites children := by
  rcases children with _ | ⟨child, _ | ⟨next, rest⟩⟩ <;> simp [gather, Node.sites, allSites]

end Shape

/-! ## Reading numbers nodes -/

/-- The sites of the nodes are those that have been given away between the two places, in ascending order. -/
def Cursor.Numbers (c : Cursor) (nodes : List Node) (c' : Cursor) : Prop :=
  c.site ≤ c'.site ∧ Ascending c.site c'.site (allSites nodes)

theorem Cursor.additive_numbers : Additive Cursor.Numbers where
  nil _ := ⟨Nat.le_refl _, .nil⟩
  append h h' := ⟨Nat.le_trans h.1 h'.1, by rw [allSites_append]; exact h.2.append h'.2 h.1 h'.1⟩
  added h := by
    unfold added
    split
    · exact ⟨h.1, .nil⟩
    · exact h

theorem Cursor.Numbers.spend {c c' : Cursor} (h : c.Numbers nodes c')
    (hsites : node.sites.Sublist (allSites nodes ++ [c'.site])) : c.Numbers [node] c'.spend := by
  have hle : c'.site ≤ c'.site + 1 := Nat.le_succ _
  refine ⟨Nat.le_trans h.1 hle, (h.2.append (.singleton (Nat.lt_succ_self _)) h.1 hle).sublist ?_⟩
  simpa [allSites] using hsites

theorem Element.adds_numbers (element : Element ι) : element.Adds Cursor.Numbers := by
  cases element with
  | token accepted maker =>
    intro c t rest node _ _ made
    have hnil : c.Numbers [] (c.withTokens rest) := Cursor.additive_numbers.nil c
    refine hnil.spend ?_
    cases maker <;> cases made <;> simp [Node.sites, allSites, Cursor.withTokens]
  | spelling spellings keep =>
    intro c t rest _ _
    exact ⟨Nat.le_refl _, by cases keep <;> exact .nil⟩
  | expression q table shape =>
    intro c c₁ c₂ t rest left right joined hleft _ hright hbuilt
    have hoperator : c₁.Numbers [.leaf ⟨t.text, t.line⟩] (c₁.withTokens rest) := ⟨Nat.le_refl _, .nil⟩
    exact (Cursor.additive_numbers.append hleft (Cursor.additive_numbers.append hoperator hright)).spend
      (Shape.build_sites hbuilt)
  | _ => trivial

/-- Reading a tree moves the next free site on, and the sites of the tree are the ones passed, each at most
once. -/
theorem Language.numbers_reads (h : Language.Reads l levels p c node c') : c.Numbers [node] c' := by
  induction levels generalizing p c node c' with
  | zero => exact h.elim
  | succ levels ih =>
    obtain ⟨children, c₁, htakes, hfinishes⟩ := h
    have hrow : c.Numbers children c₁ :=
      htakes.adds Cursor.additive_numbers (fun element _ => element.adds_numbers) fun _ _ _ _ _ _ _ => ih
    unfold Finishes at hfinishes
    split at hfinishes
    · obtain ⟨hbuilt, rfl⟩ := hfinishes
      exact hrow.spend (Shape.build_sites hbuilt)
    · obtain ⟨rfl, rfl⟩ := hfinishes
      exact ⟨hrow.1, by simpa [allSites, Shape.gather_sites] using hrow.2⟩

theorem Language.ascending_turn (h : turn l settings r = .ok (some unit) r') :
    r.nextSite ≤ r'.nextSite ∧ Ascending r.nextSite r'.nextSite unit.sites := by
  simpa [Cursor.Numbers, Reading.cursor, allSites] using numbers_reads (reads_of_turn h)

/-! ## Plain nodes -/

def Use.isPlain : Use → Bool
  | .read .. | .assign .. => true
  | .definition .. | .classDefinition .. => false

/-- No function with a name and no class is defined inside. -/
def Node.Plain (node : Node) : Prop :=
  node.Every (fun (_ : Unit) use => use.isPlain) (fun _ _ _ _ => True) ()

def Suffix.Plain (s : Suffix) : Prop :=
  s.Every (fun (_ : Unit) use => use.isPlain) (fun _ _ _ _ => True) ()

def Node.IsDefinition (node : Node) : Prop :=
  ∃ site title params body, node = .definition site title params body ∧ ∀ n ∈ body, n.Plain

/-- A member of a class: a definition, or a plain node that initializes fields. -/
def Node.IsMember (node : Node) : Prop := node.Plain ∨ node.IsDefinition

def Node.IsClass (node : Node) : Prop :=
  ∃ site title parent members, node = .classDefinition site title parent members ∧
    ∀ member ∈ members, member.IsMember

def Node.IsUnit (node : Node) : Prop := node.Plain ∨ node.IsDefinition ∨ node.IsClass

theorem allPlain_iff :
    AllEvery (fun (_ : Unit) use => use.isPlain) (fun _ _ _ _ => True) () nodes ↔
      ∀ n ∈ nodes, n.Plain :=
  allEvery_iff _ _

theorem allSuffixesPlain (h : ∀ s ∈ suffixes, s.Plain) :
    AllSuffixesEvery (fun (_ : Unit) use => use.isPlain) (fun _ _ _ _ => True) () suffixes := by
  induction suffixes with
  | nil => trivial
  | cons s rest ih => exact ⟨h s (by simp), ih fun t ht => h t (by simp [ht])⟩

theorem member_isPlain {members : List Node} (h : ∀ member ∈ members, member.IsMember)
    (hmem : member ∈ members) (hnone : Definition.ofNode? member = none) : member.Plain := by
  rcases h member hmem with hplain | ⟨site, title, params, body, rfl, -⟩
  · exact hplain
  · simp [Definition.ofNode?] at hnone

theorem method_isPlain {members : List Node} (h : ∀ member ∈ members, member.IsMember) {d : Definition}
    (hmem : d.toNode ∈ members) : ∀ n ∈ d.body, n.Plain := by
  rcases h _ hmem with hplain | ⟨site, title, params, body, heq, hbody⟩
  · simp [Node.Plain, Definition.toNode, Node.Every, Use.isPlain] at hplain
  · simp only [Definition.toNode, Node.definition.injEq] at heq
    rw [heq.2.2.2]
    exact hbody

/-! ## Building from pieces -/

namespace Shape

theorem gather_plain (h : ∀ n ∈ children, n.Plain) : (gather children).Plain := by
  rcases children with _ | ⟨child, _ | ⟨next, rest⟩⟩
  · trivial
  · exact h child (by simp)
  · simpa only [gather, Node.Plain, Node.Every] using allPlain_iff.mpr h

def isPlain : Shape → Bool
  | .definition | .classDefinition | .classBody => false
  | _ => true

theorem build_plain {site : Site} {shape : Shape} {children : List Node} {node : Node}
    (hshape : shape.isPlain) (hplain : ∀ n ∈ children, n.Plain)
    (h : shape.build site children = .ok node) : node.Plain := by
  have hall := allPlain_iff.mpr hplain
  cases built_of_build h with
  | binary =>
    rename_i left right operator
    simp only [Node.Plain, Node.Every]
    split
    · refine ⟨hall.2.2.1, ?_⟩
      cases left <;> first | rfl | exact hall.1
    · exact ⟨hall.1, hall.2.2.1⟩
  | conditional =>
    rename_i alternative
    cases alternative with
    | none => exact ⟨hall.1, hall.2.1⟩
    | some other => exact ⟨hall.1, hall.2.1, hall.2.2.1⟩
  | loop => exact ⟨hall.1, hall.2.1⟩
  | closure => exact ⟨(), trivial, by simpa [Node.Every] using hall.2.1⟩
  | primary =>
    rename_i inner last
    have hsuffix : ∀ s, s ∈ inner ∨ s = last → s.Plain := fun s hs => by
      simpa only [Node.Plain, Suffix.Plain, Node.Every] using hplain (.suffix s) (by simpa using .inr hs)
    exact ⟨hall.1, allSuffixesPlain fun s hs => hsuffix s (.inl hs), hsuffix last (.inr rfl)⟩
  | operand => exact hall.1
  | definition | classDefinition | classBody => cases hshape
  | _ => simpa [Node.Plain, Node.Every, Suffix.Every, AllEvery] using hall

end Shape

/-! ## Phrases -/

namespace Language

def Phrase.isPlain : Phrase → Bool
  | .program | .definition | .classDefinition | .classBody | .memberTail | .member => false
  | _ => true

/-- The element refers to plain pieces, and joins them to one. -/
def isPlainElement (element : Element Phrase) : Bool :=
  element.references.all Phrase.isPlain &&
    match element with
    | .expression _ _ shape => shape.isPlain
    | _ => true

/-- A phrase that gives plain pieces is made of such, and its shape is no definition. -/
theorem rule_isPlain (l : Layers) (p : Phrase) (h : p.isPlain) :
    (rule l p).elements.all isPlainElement ∧ ((rule l p).shape.all Shape.isPlain) := by
  obtain ⟨functions, closures, classes, arrays⟩ := l
  cases p <;> first
    | exact absurd h (by decide)
    | (cases functions <;> cases closures <;> cases classes <;> cases arrays <;> exact ⟨rfl, rfl⟩)

def Phrase.Gives : Phrase → Node → Prop
  | .program => Node.IsUnit
  | .definition => Node.IsDefinition
  | .classDefinition => Node.IsClass
  | .classBody => fun node => ∃ members, node = .classBody members ∧ ∀ member ∈ members, member.IsMember
  | .memberTail | .member => Node.IsMember
  | _ => Node.Plain

theorem Phrase.gives_of_isPlain {p : Phrase} (h : p.isPlain) : p.Gives = Node.Plain := by
  cases p <;> first | rfl | exact absurd h (by decide)

theorem Element.adds_forall {Q : Node → Prop} (hplain : ∀ n, n.Plain → Q n) {element : Element Phrase}
    (hjoins : ∀ operand operators shape, element = .expression operand operators shape →
      shape.isPlain ∧ ∀ n, Q n → n.Plain) : element.Adds fun _ nodes _ => ∀ n ∈ nodes, Q n := by
  cases element with
  | token accepted maker =>
    intro c t rest node _ _ made
    refine List.forall_mem_singleton.mpr (hplain node ?_)
    cases maker <;> cases made <;> simp [Node.Plain, Node.Every, Use.isPlain]
  | spelling spellings keep =>
    intro c t rest _ _
    cases keep
    · exact List.forall_mem_nil _
    · exact List.forall_mem_singleton.mpr (hplain _ trivial)
  | expression operand operators shape =>
    obtain ⟨hshape, hback⟩ := hjoins _ _ _ rfl
    intro c c₁ c₂ t rest left right joined hleft _ hright built
    refine List.forall_mem_singleton.mpr (hplain joined (Shape.build_plain hshape ?_ built))
    simpa using ⟨hback left (by simpa using hleft), trivial, hback right (by simpa using hright)⟩
  | _ => trivial

/-- The children that the rule of a phrase collects, if what its parts give satisfies `Q`. -/
theorem gives_takesAll {recur : Phrase → Piece} (hrecur : ∀ p c node c', recur p c node c' → p.Gives node)
    {starts : Phrase → Token → Bool} {Q : Node → Prop} (hplain : ∀ n, n.Plain → Q n)
    {elements : List (Element Phrase)} (hparts : ∀ element ∈ elements, ∀ q ∈ element.references, ∀ n, q.Gives n → Q n)
    (hjoins : ∀ operand operators shape, .expression operand operators shape ∈ elements →
      shape.isPlain ∧ ∀ n, Q n → n.Plain) {c c' : Cursor} {nodes : List Node}
    (h : TakesAll starts recur elements c nodes c') : ∀ n ∈ nodes, Q n := by
  have hadditive : Additive fun _ nodes _ => ∀ n ∈ nodes, Q n :=
    ⟨by simp, fun h h' => List.forall_mem_append.mpr ⟨h, h'⟩, fun h => by unfold added; split <;> simp_all⟩
  refine h.adds hadditive (fun element helement => ?_) fun element helement q hq c node c' hreads => ?_
  · exact Element.adds_forall hplain fun operand operators shape heq =>
      hjoins operand operators shape (heq ▸ helement)
  · exact List.forall_mem_singleton.mpr (hparts element helement q hq node (hrecur q c node c' hreads))

theorem gives_reads {l : Layers} {levels : Nat} {p : Phrase} {c c' : Cursor} {node : Node}
    (h : Reads l levels p c node c') : p.Gives node := by
  induction levels generalizing p c node c' with
  | zero => exact h.elim
  | succ levels ih =>
    obtain ⟨children, c₁, htakes, hfinishes⟩ := h
    have hcollect := @gives_takesAll (Reads l levels) (fun _ _ _ _ => ih) (grammar l).starts
    change TakesAll _ _ (rule l.withNeeds p).elements _ _ _ at htakes
    by_cases hp : p.isPlain
    · -- a phrase made of plain ones
      rw [Phrase.gives_of_isPlain hp]
      obtain ⟨helements, hshape⟩ := rule_isPlain l.withNeeds p hp
      simp only [List.all_eq_true, isPlainElement, Bool.and_eq_true] at helements
      have hchildren : ∀ n ∈ children, n.Plain := by
        refine hcollect (fun _ h => h) (fun element he q hq n hn => ?_) (fun operand operators shape he => ?_) htakes
        · rwa [Phrase.gives_of_isPlain ((helements element he).1 q hq)] at hn
        · exact ⟨(helements _ he).2, fun _ h => h⟩
      change Finishes _ _ _ _ (rule l.withNeeds p).shape at hfinishes
      cases hs : (rule l.withNeeds p).shape with
      | none =>
        rw [hs] at hfinishes
        exact hfinishes.1 ▸ Shape.gather_plain hchildren
      | some shape =>
        rw [hs] at hfinishes hshape
        exact Shape.build_plain hshape hchildren hfinishes.1
    · cases p with
      | program =>
        obtain ⟨rfl, -⟩ := hfinishes
        cases htakes with
        | cons first others =>
          cases others with
          | cons second others =>
            cases others
            cases second
            cases first with
            | choice sees chosen reads =>
              have hgives := ih reads
              have hmem := List.mem_of_find?_eq_some chosen
              simp only [List.mem_append, List.mem_cons, List.not_mem_nil, or_false, layer] at hmem
              rcases hmem with (hq | hq) | rfl | rfl
              · split at hq <;> simp only [List.mem_singleton, List.not_mem_nil] at hq
                subst hq
                exact .inr (.inr hgives)
              · split at hq <;> simp only [List.mem_singleton, List.not_mem_nil] at hq
                subst hq
                exact .inr (.inl hgives)
              · exact .inl hgives
              · exact .inl hgives
      | definition =>
        have hchildren : ∀ n ∈ children, n.Plain := hcollect (fun _ h => h)
          (by simp [rule, Language.full, drop, word, Element.references, Phrase.Gives])
          (by simp [rule, Language.full, drop, word]) htakes
        cases Shape.built_of_build hfinishes.1
        exact ⟨_, _, _, _, rfl, allPlain_iff.mp (hchildren (.block _) (by simp))⟩
      | classDefinition =>
        have hchildren : ∀ n ∈ children, n.Plain ∨ Phrase.Gives .classBody n := by
          refine hcollect (fun n h => .inl h) ?_ (by simp [rule, Language.full, drop, word]) htakes
          simp only [rule, Language.full, drop, word, List.mem_cons, List.not_mem_nil, or_false, forall_eq_or_imp,
            forall_eq, Element.references, Phrase.Gives]
          exact ⟨by simp, by simp, fun n hn => .inl hn, fun n hn => .inr hn⟩
        cases Shape.built_of_build hfinishes.1
        rename_i members
        refine ⟨_, _, _, members, rfl, ?_⟩
        rcases hchildren (.classBody members) (by simp) with hplain | ⟨others, heq, hmembers⟩
        · exact fun member hmember => .inl (allPlain_iff.mp hplain member hmember)
        · cases heq
          exact hmembers
      | classBody =>
        have hchildren : ∀ n ∈ children, n.IsMember := hcollect (fun n h => .inl h)
          (by simp [rule, Language.full, drop, Element.references, Phrase.Gives])
          (by simp [rule, Language.full, drop]) htakes
        cases Shape.built_of_build hfinishes.1
        exact ⟨children, rfl, hchildren⟩
      | memberTail =>
        obtain ⟨rfl, -⟩ := hfinishes
        cases htakes with
        | cons first others =>
          cases first
          cases others with
          | cons second others =>
            cases others
            cases second with
            | absent sees ends => exact .inl trivial
            | present sees goes reads =>
              rename_i node
              have hgives : node.IsMember := ih reads
              cases hblank : isBlankGroup node with
              | true => simpa [added, hblank] using .inl trivial
              | false => simpa [added, hblank, Shape.gather, Phrase.Gives] using hgives
      | member =>
        obtain ⟨rfl, -⟩ := hfinishes
        cases htakes with
        | cons first others =>
          cases others
          cases first with
          | choice sees chosen reads =>
            have hgives := ih reads
            have hmem := List.mem_of_find?_eq_some chosen
            simp only [List.mem_cons, List.not_mem_nil, or_false] at hmem
            rcases hmem with rfl | rfl
            · exact .inr hgives
            · exact .inl hgives
      | _ => exact absurd rfl hp

theorem isUnit_turn (h : turn l settings r = .ok (some unit) r') : unit.IsUnit :=
  gives_reads (reads_of_turn h)

end Language

end StoneLang
