/-
  What code asks of the scope around it.

  A node reads names, assigns to names, and makes functions; the bodies of the functions it makes do the
  same one scope further in.  `Node.Every P D c` says that `P` holds of every use that a node makes of
  its scope, described by `c`, and that inside a function the same is true for a description `c'` of
  the inner scope, which `D` relates to `c`.  What `c` is differs from one statement to the next: the
  names in sight, the tables of a walk, the frames of a run.

  `Node.Every.mono` carries such a statement from one kind of description to another, and
  `Node.Every.merge` two of them at once.  Both look only at the sites of the node (`Node.sites`), so what
  is noted at other sites may change freely.

  Such a statement can be checked by a walk through the node (`Node.check`), as long as uses can be checked one by one
  and the description of an inner scope is given by the outer one (`Node.check_iff`).
-/
import StoneLang.Scope.Layout

-- the lemmas of a mutual block share their hypotheses, whether each of them uses all or not
set_option linter.unusedSectionVars false

namespace StoneLang

/-- What a node asks of the scope it stands in. -/
inductive Use where
  | read (site : Site) (word : Word)
  | assign (site : Site) (word : Word)
  | definition (site : Site) (title : Label) (parameters : List Label) (body : List Node)
  | classDefinition (site : Site) (title : Label) (parent : Option Label) (members : List Node)

/-- The site of a use. -/
def Use.site : Use → Site
  | .read site _ | .assign site _ => site
  | .definition site .. => site
  | .classDefinition site .. => site

section
variable {ι : Type} (P : ι → Use → Prop) (D : ι → Site → List Label → ι → Prop)

mutual

/-- Every use that a node makes of the scope `c` is as `P` says, and likewise inside the functions that
it makes, whose scopes `D` describes. -/
@[grind =] def Node.Every : ι → Node → Prop
  | c, .name site word => P c (.read site word)
  | c, .binary left operator right =>
    if operator.text = text "=" then
      Node.Every c right ∧
        match left with
        | .name site word => P c (.assign site word)
        | _ => Node.Every c left
    else Node.Every c left ∧ Node.Every c right
  | c, .negative operand => Node.Every c operand
  | c, .block statements => AllEvery c statements
  | c, .conditional condition consequence none => Node.Every c condition ∧ Node.Every c consequence
  | c, .conditional condition consequence (some alternative) =>
    Node.Every c condition ∧ Node.Every c consequence ∧ Node.Every c alternative
  | c, .loop condition body => Node.Every c condition ∧ Node.Every c body
  | c, .primary operand inner last => Node.Every c operand ∧ AllSuffixesEvery c inner ∧ Suffix.Every c last
  | c, .array elements => AllEvery c elements
  | c, .closure site params body => ∃ c', D c site params c' ∧ AllEvery c' body
  | c, .definition site title params body => P c (.definition site title params body)
  | c, .classDefinition site title parent members => P c (.classDefinition site title parent members)
  | c, .list children => AllEvery c children
  | c, .suffix s => Suffix.Every c s
  | c, .classBody members => AllEvery c members
  | _, .leaf _ | _, .number .. | _, .string _ | _, .empty | _, .parameters _ => True

@[grind =] def Suffix.Every : ι → Suffix → Prop
  | c, .arguments values => AllEvery c values
  | _, .member .. => True
  | c, .element index => Node.Every c index

@[grind =] def AllEvery : ι → List Node → Prop
  | _, [] => True
  | c, n :: rest => Node.Every c n ∧ AllEvery c rest

@[grind =] def AllSuffixesEvery : ι → List Suffix → Prop
  | _, [] => True
  | c, s :: rest => Suffix.Every c s ∧ AllSuffixesEvery c rest

end

theorem allEvery_iff : AllEvery P D c nodes ↔ ∀ n ∈ nodes, n.Every P D c := by
  induction nodes with
  | nil => simp [AllEvery]
  | cons n rest ih => simp [AllEvery, ih]

end

/-! ## Rows

  Most nodes ask for nothing themselves and hand on what their children ask for. -/

def Node.isRow : Node → Bool
  | .name .. | .binary .. | .definition .. | .closure .. | .classDefinition .. | .parameters _
  | .suffix (.member ..) => false
  | _ => true

section
variable {ι : Type} {P : ι → Use → Prop} {D : ι → Site → List Label → ι → Prop} {c : ι}

theorem allSuffixesEvery_iff : AllSuffixesEvery P D c suffixes ↔ AllEvery P D c (suffixes.map .suffix) := by
  induction suffixes with
  | nil => simp [AllEvery, AllSuffixesEvery]
  | cons s rest ih => simp [AllEvery, AllSuffixesEvery, Node.Every, ih]

theorem allEvery_append : AllEvery P D c (l ++ l') ↔ AllEvery P D c l ∧ AllEvery P D c l' := by
  induction l with
  | nil => simp [AllEvery]
  | cons n rest ih => simp [AllEvery, ih, and_assoc]

theorem every_row {node : Node} (h : node.isRow) :
    node.Every P D c ↔ AllEvery P D c node.children := by
  cases node with
  | conditional condition consequence alternative =>
    cases alternative <;> simp [Node.Every, Node.children, AllEvery]
  | primary operand inner last =>
    simp [Node.Every, Node.children, AllEvery, allEvery_append, allSuffixesEvery_iff]
  | suffix s => cases s <;> simp_all [Node.Every, Suffix.Every, Node.children, Suffix.children, AllEvery,
      Node.isRow]
  | name | binary | definition | closure | classDefinition | parameters => simp [Node.isRow] at h
  | _ => simp [Node.Every, Node.children, AllEvery]

end

/-! ## Sites -/

def Label.sites : Label → List Site
  | .plain _ => []
  | .name site _ => [site]

def labelSites (labels : List Label) : List Site := labels.flatMap Label.sites

mutual

/-- The sites of a node and of everything inside, in the order in which a reader numbers them. -/
@[grind =] def Node.sites : Node → List Site
  | .leaf _ | .number .. | .string _ | .empty => []
  | .name site _ => [site]
  | .list children => allSites children
  | .binary left operator right => left.sites ++ operator.sites ++ right.sites
  | .negative operand => operand.sites
  | .block statements => allSites statements
  | .conditional condition consequence none => condition.sites ++ consequence.sites
  | .conditional condition consequence (some alternative) =>
    condition.sites ++ consequence.sites ++ alternative.sites
  | .loop condition body => condition.sites ++ body.sites
  | .parameters names => labelSites names
  | .definition site title params body => title.sites ++ labelSites params ++ allSites body ++ [site]
  | .closure site params body => labelSites params ++ allSites body ++ [site]
  | .primary operand inner last => operand.sites ++ allSuffixSites inner ++ last.sites
  | .suffix s => s.sites
  | .array elements => allSites elements
  | .classDefinition site title parent members =>
    title.sites ++ labelSites parent.toList ++ allSites members ++ [site]
  | .classBody members => allSites members

@[grind =] def Suffix.sites : Suffix → List Site
  | .arguments values => allSites values
  | .member site title => title.sites ++ [site]
  | .element index => index.sites

@[grind =] def allSites : List Node → List Site
  | [] => []
  | n :: rest => n.sites ++ allSites rest

@[grind =] def allSuffixSites : List Suffix → List Site
  | [] => []
  | s :: rest => s.sites ++ allSuffixSites rest

end

theorem mem_allSites : site ∈ allSites nodes ↔ ∃ n ∈ nodes, site ∈ n.sites := by
  induction nodes with
  | nil => simp [allSites]
  | cons n rest ih => simp [allSites, ih]

theorem allSites_append (l l' : List Node) : allSites (l ++ l') = allSites l ++ allSites l' := by
  induction l with
  | nil => rfl
  | cons n rest ih => simp [allSites, ih]

theorem allSites_suffixes (suffixes : List Suffix) :
    allSites (suffixes.map .suffix) = allSuffixSites suffixes := by
  induction suffixes with
  | nil => rfl
  | cons s rest ih => simp [allSites, allSuffixSites, Node.sites, ih]

theorem sites_row {node : Node} (h : node.isRow) : node.sites = allSites node.children := by
  cases node with
  | conditional condition consequence alternative =>
    cases alternative <;> simp [Node.sites, Node.children, allSites]
  | primary operand inner last =>
    simp [Node.sites, Node.children, allSites, allSites_append, allSites_suffixes]
  | suffix s => cases s <;> simp_all [Node.sites, Suffix.sites, Node.children, Suffix.children, allSites,
      Node.isRow]
  | name | binary | definition | closure | classDefinition | parameters => simp [Node.isRow] at h
  | _ => simp [Node.sites, Node.children, allSites]

/-! ## Induction -/

section
variable {motive : Node → Prop}
  (row : ∀ node : Node, node.isRow → (∀ child ∈ node.children, motive child) → motive node)
  (name : ∀ site word, motive (.name site word))
  (binary : ∀ left operator right, motive left → motive right → motive (.binary left operator right))
  (parameters : ∀ names, motive (.parameters names))
  (definition : ∀ site title params body, (∀ n ∈ body, motive n) → motive (.definition site title params body))
  (closure : ∀ site params body, (∀ n ∈ body, motive n) → motive (.closure site params body))
  (classDefinition : ∀ site title parent members, (∀ n ∈ members, motive n) →
    motive (.classDefinition site title parent members))
  (member : ∀ site title, motive (.suffix (.member site title)))

include row name binary parameters definition closure classDefinition member

mutual

/-- Induction over a tree, with one case for all nodes that are no more than their children. -/
theorem Node.rowInduction : ∀ node : Node, motive node
  | .leaf _ | .number .. | .string _ | .empty => row _ rfl (by simp [Node.children])
  | .name site word => name site word
  | .binary left operator right => binary _ _ _ left.rowInduction right.rowInduction
  | .parameters names => parameters names
  | .definition _ _ _ body => definition _ _ _ _ (rowInductionAll body)
  | .closure _ _ body => closure _ _ _ (rowInductionAll body)
  | .classDefinition _ _ _ members => classDefinition _ _ _ _ (rowInductionAll members)
  | .list children | .block children | .array children | .classBody children => row _ rfl (rowInductionAll children)
  | .negative operand => row _ rfl (List.forall_mem_singleton.mpr operand.rowInduction)
  | .conditional condition consequence none =>
    row _ rfl (by simpa [Node.children] using ⟨condition.rowInduction, consequence.rowInduction⟩)
  | .conditional condition consequence (some alternative) => row _ rfl (by
      simpa [Node.children] using ⟨condition.rowInduction, consequence.rowInduction, alternative.rowInduction⟩)
  | .loop condition body => row _ rfl (by simpa [Node.children] using ⟨condition.rowInduction, body.rowInduction⟩)
  | .primary operand inner last => row _ rfl (by
      simp only [Node.children, List.cons_append, List.forall_mem_cons, List.forall_mem_append, List.forall_mem_map]
      exact ⟨operand.rowInduction, rowInductionSuffixes inner, last.rowInduction, nofun⟩)
  | .suffix s => s.rowInduction

theorem Suffix.rowInduction : ∀ s : Suffix, motive (.suffix s)
  | .arguments values => row _ rfl (rowInductionAll values)
  | .member site title => member site title
  | .element index => row _ rfl (List.forall_mem_singleton.mpr index.rowInduction)

theorem rowInductionAll : ∀ nodes : List Node, ∀ n ∈ nodes, motive n
  | [] => nofun
  | n :: rest => List.forall_mem_cons.mpr ⟨n.rowInduction, rowInductionAll rest⟩

theorem rowInductionSuffixes : ∀ suffixes : List Suffix, ∀ s ∈ suffixes, motive (.suffix s)
  | [] => nofun
  | s :: rest => List.forall_mem_cons.mpr ⟨s.rowInduction, rowInductionSuffixes rest⟩

end

end

theorem Node.every_of_forall {ι : Type} {P : ι → Use → Prop} {D : ι → Site → List Label → ι → Prop}
    (hP : ∀ c u, P c u) (hD : ∀ c site params, ∃ c', D c site params c') (c : ι) (node : Node) : node.Every P D c := by
  induction node using Node.rowInduction generalizing c with
  | row node hrow ih => exact (every_row hrow).mpr ((allEvery_iff _ _).mpr fun n hn => ih n hn c)
  | name | definition | classDefinition => exact hP c _
  | binary left operator right ihleft ihright =>
    simp only [Node.Every]
    split
    · refine ⟨ihright c, ?_⟩
      cases left with
      | name site word => exact hP c _
      | _ => exact ihleft c
    · exact ⟨ihleft c, ihright c⟩
  | closure site params body ih =>
    obtain ⟨c', hc'⟩ := hD c site params
    exact ⟨c', hc', (allEvery_iff _ _).mpr fun n hn => ih n hn c'⟩
  | parameters | member => trivial

/-! ## From one description to another -/

/-- What every use satisfies in two descriptions of the scopes, taken together, it satisfies in a third
one, if the descriptions are related and the uses at the node's sites carry over. -/
theorem Node.Every.merge {ι ι' κ : Type} {P : ι → Use → Prop} {D : ι → Site → List Label → ι → Prop}
    {A : ι' → Use → Prop} {B : ι' → Site → List Label → ι' → Prop} {Q : κ → Use → Prop}
    {E : κ → Site → List Label → κ → Prop} {R : ι → ι' → κ → Prop} {S : Site → Prop}
    (hP : ∀ c d k u, R c d k → S u.site → P c u → A d u → Q k u)
    (hD : ∀ c d k site params c' d', R c d k → S site → D c site params c' → B d site params d' →
      ∃ k', E k site params k' ∧ R c' d' k')
    (node : Node) (c : ι) (d : ι') (k : κ) (hR : R c d k) (hS : ∀ site ∈ node.sites, S site)
    (h : node.Every P D c) (h' : node.Every A B d) : node.Every Q E k := by
  induction node using Node.rowInduction generalizing c d k with
  | row node hrow ih =>
    rw [every_row hrow, allEvery_iff] at h h' ⊢
    rw [sites_row hrow] at hS
    exact fun n hn => ih n hn c d k hR (fun s hs => hS s (mem_allSites.mpr ⟨n, hn, hs⟩)) (h n hn) (h' n hn)
  | name | definition | classDefinition => exact hP c d k _ hR (hS _ (by simp [Node.sites, Use.site])) h h'
  | binary left operator right ihleft ihright =>
    have hleft : ∀ site ∈ left.sites, S site := fun site hs => hS site (by simp [Node.sites, hs])
    have hright : ∀ site ∈ right.sites, S site := fun site hs => hS site (by simp [Node.sites, hs])
    simp only [Node.Every] at h h' ⊢
    split at h
    · rename_i heq
      simp only [heq, if_true] at h' ⊢
      refine ⟨ihright c d k hR hright h.1 h'.1, ?_⟩
      cases left with
      | name site word => exact hP c d k _ hR (hleft site (by simp [Node.sites])) h.2 h'.2
      | _ => exact ihleft c d k hR hleft h.2 h'.2
    · rename_i hne
      simp only [hne, if_false] at h' ⊢
      exact ⟨ihleft c d k hR hleft h.1 h'.1, ihright c d k hR hright h.2 h'.2⟩
  | closure site params body ih =>
    obtain ⟨c', hc', hbody⟩ := h
    obtain ⟨d', hd', hbody'⟩ := h'
    obtain ⟨k', hk', hR'⟩ := hD c d k site params c' d' hR (hS site (by simp [Node.sites])) hc' hd'
    rw [allEvery_iff] at hbody hbody'
    refine ⟨k', hk', (allEvery_iff _ _).mpr fun n hn => ?_⟩
    refine ih n hn c' d' k' hR' (fun s hs => hS s ?_) (hbody n hn) (hbody' n hn)
    simp [Node.sites, mem_allSites.mpr ⟨n, hn, hs⟩]
  | parameters | member => trivial

section

variable {ι κ : Type} {P : ι → Use → Prop} {D : ι → Site → List Label → ι → Prop}
  {Q : κ → Use → Prop} {E : κ → Site → List Label → κ → Prop} {R : ι → κ → Prop} {S : Site → Prop}

/-- What every use satisfies in one description of the scopes, it satisfies in another one, if the
descriptions are related and the uses at the node's sites carry over. -/
theorem Node.Every.mono (hP : ∀ c k u, R c k → S u.site → P c u → Q k u)
    (hD : ∀ c k site params c', R c k → S site → D c site params c' → ∃ k', E k site params k' ∧ R c' k')
    (node : Node) (c : ι) (k : κ) (hR : R c k) (hS : ∀ site ∈ node.sites, S site) (h : node.Every P D c) :
    node.Every Q E k :=
  Node.Every.merge (A := fun (_ : Unit) _ => True) (B := fun _ _ _ _ => True) (R := fun c _ k => R c k)
    (fun c _ k u hR hS hu _ => hP c k u hR hS hu)
    (fun c _ k site params c' _ hR hS hc _ => hD c k site params c' hR hS hc) node c () k hR hS h
    (Node.every_of_forall (fun _ _ => trivial) (fun _ _ _ => ⟨(), trivial⟩) () node)

end

/-! ## A walk through the uses -/

section
variable {ι : Type} (p : ι → Use → Bool) (d : ι → Site → List Label → Option ι)

mutual

/-- Checks every use that a node makes of the scope `c`, and of those inside; `d` gives the description of an
inner scope, if it may be entered. -/
@[grind =] def Node.check : ι → Node → Bool
  | c, .name site word => p c (.read site word)
  | c, .binary left operator right =>
    if operator.text = text "=" then
      Node.check c right &&
        match left with
        | .name site word => p c (.assign site word)
        | _ => Node.check c left
    else Node.check c left && Node.check c right
  | c, .negative operand => Node.check c operand
  | c, .block statements => checkAll c statements
  | c, .conditional condition consequence none => Node.check c condition && Node.check c consequence
  | c, .conditional condition consequence (some alternative) =>
    Node.check c condition && Node.check c consequence && Node.check c alternative
  | c, .loop condition body => Node.check c condition && Node.check c body
  | c, .primary operand inner last => Node.check c operand && checkSuffixes c inner && Suffix.check c last
  | c, .array elements => checkAll c elements
  | c, .closure site params body =>
    match d c site params with
    | some c' => checkAll c' body
    | none => false
  | c, .definition site title params body => p c (.definition site title params body)
  | c, .classDefinition site title parent members => p c (.classDefinition site title parent members)
  | c, .list children => checkAll c children
  | c, .suffix s => Suffix.check c s
  | c, .classBody members => checkAll c members
  | _, .leaf _ | _, .number .. | _, .string _ | _, .empty | _, .parameters _ => true

@[grind =] def Suffix.check : ι → Suffix → Bool
  | c, .arguments values => checkAll c values
  | _, .member .. => true
  | c, .element index => Node.check c index

@[grind =] def checkAll : ι → List Node → Bool
  | _, [] => true
  | c, n :: rest => Node.check c n && checkAll c rest

@[grind =] def checkSuffixes : ι → List Suffix → Bool
  | _, [] => true
  | c, s :: rest => Suffix.check c s && checkSuffixes c rest

end

end

section
variable {ι : Type} {p : ι → Use → Bool} {d : ι → Site → List Label → Option ι} {c : ι}

theorem checkAll_eq_true : checkAll p d c nodes = true ↔ ∀ n ∈ nodes, n.check p d c = true := by
  induction nodes with
  | nil => simp [checkAll]
  | cons n rest ih => simp [checkAll, ih]

theorem checkSuffixes_eq_true : checkSuffixes p d c suffixes = true ↔ ∀ s ∈ suffixes, s.check p d c = true := by
  induction suffixes with
  | nil => simp [checkSuffixes]
  | cons s rest ih => simp [checkSuffixes, ih]

theorem check_row {node : Node} (h : node.isRow) :
    node.check p d c = true ↔ ∀ n ∈ node.children, n.check p d c = true := by
  cases node with
  | conditional condition consequence alternative =>
    cases alternative <;> simp [Node.check, Node.children, and_assoc]
  | primary operand inner last =>
    simp [Node.check, Node.children, checkSuffixes_eq_true, or_imp, forall_and, and_assoc]
  | suffix s => cases s <;> simp_all [Node.check, Suffix.check, Node.children, Suffix.children, checkAll_eq_true,
      Node.isRow]
  | name | binary | definition | closure | classDefinition | parameters => simp [Node.isRow] at h
  | _ => simp [Node.check, Node.children, checkAll_eq_true]

variable {P : ι → Use → Prop} {D : ι → Site → List Label → ι → Prop} (hp : ∀ c u, p c u = true ↔ P c u)
  (hd : ∀ c site params c', d c site params = some c' ↔ D c site params c')

include hp hd

theorem Node.check_iff (c : ι) (node : Node) : node.check p d c = true ↔ node.Every P D c := by
  induction node using Node.rowInduction generalizing c with
  | row node hrow ih =>
    rw [check_row hrow, every_row hrow, allEvery_iff]
    exact forall₂_congr fun n hn => ih n hn c
  | name | definition | classDefinition => exact hp c _
  | binary left operator right ihleft ihright =>
    simp only [Node.check, Node.Every]
    split
    · rw [Bool.and_eq_true, ihright]
      cases left with
      | name site word => rw [hp]
      | _ => exact and_congr_right fun _ => ihleft c
    · rw [Bool.and_eq_true, ihleft, ihright]
  | closure site params body ih =>
    simp only [Node.check, Node.Every, ← hd]
    cases hinner : d c site params with
    | none => simp
    | some c' =>
      simp only [Option.some.injEq, exists_eq_left', allEvery_iff, checkAll_eq_true]
      exact forall₂_congr fun n hn => ih n hn c'
  | parameters | member => exact iff_of_true rfl trivial

theorem checkAll_iff (c : ι) (nodes : List Node) : checkAll p d c nodes = true ↔ AllEvery P D c nodes := by
  rw [checkAll_eq_true, allEvery_iff]
  exact forall₂_congr fun n _ => Node.check_iff hp hd c n

end

end StoneLang
