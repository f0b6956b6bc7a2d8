/-
  Two walks in step.

  `Lockstep` lists what is to be shown of the actions of two walks over the same tree: how their states
  are related while the scope is as some `k` says, and what each step lets one say about the notes that it
  leaves behind.  `Lockstep.visit` then takes the two walks through a whole tree.  Both end in related
  states, or both fail with the same failure; and what was learned at each use of the scope is collected
  in one statement about the tree, `Node.Every`.

  The scope grows during a walk, so what is learned is a statement between two moments: `learned n k k'`
  is about a use that was met while the scope grew from `k` to `k'`, with the note `n` at its site.  A note
  is written once, because no site stands twice in a tree; that is why later steps keep it.
-/
import Mathlib.Data.List.Nodup
import StoneLang.Proofs.Scope.Actions

namespace StoneLang

/-- What is to be shown of the actions of two walks for them to go in step. -/
structure Lockstep {ρ τ : Type} (A : ScopeActions ρ) (B : ScopeActions τ) where
  /-- What the scope is at some moment. -/
  κ : Type
  /-- The scope can grow from the first to the second. -/
  le : κ → κ → Prop
  refl : ∀ k, le k k
  trans : ∀ {k l m}, le k l → le l m → le k m
  /-- The states are related while the scope is as given. -/
  related : κ → ρ → τ → Prop
  /-- The states are related in what is left after a failure, which may come from deeper inside. -/
  broken : κ → ρ → τ → Prop
  broken_of_related : ∀ {k s t}, related k s t → broken k s t
  broken_earlier : ∀ {k l s t}, le k l → broken l s t → broken k s t
  /-- What is noted at a site. -/
  Note : Type
  note : Site → ρ → τ → Note
  /-- What is asked of a use beforehand. -/
  ι : Type
  demand : ι → Use → Prop
  inside : ι → Site → List Label → ι → Prop
  /-- What is asked belongs to the scope. -/
  suits : ι → κ → Prop
  suits_later : ∀ {j k l}, le k l → suits j k → suits j l
  /-- What is learned of a use that is met while the scope grows. -/
  learned : Note → κ → κ → Use → Prop
  learned_wider : ∀ {n k k' l l' u}, le k k' → le l l' → learned n k' l u → learned n k l' u
  /-- What is learned of a function, and between which moments its own scope grows. -/
  learnedInner : Note → κ → κ → Site → List Label → κ → κ → Prop
  learnedInner_wider : ∀ {n k k' l l' site params p q}, le k k' → le l l' →
    learnedInner n k' l site params p q → learnedInner n k l' site params p q
  /-- The scope inside a function, as it is entered. -/
  entered : κ → Site → List Label → κ → Prop
  broken_outside : ∀ {k site params p s t}, entered k site params p → broken p s t → broken k s t
  no_definition : ∀ j site title params body, ¬ demand j (.definition site title params body)
  no_class : ∀ j site title parent members, ¬ demand j (.classDefinition site title parent members)
  read : ∀ {j k s t} site word, related k s t → suits j k → ∃ l s' t', A.read site word s = .ok () s' ∧
    B.read site word t = .ok () t' ∧ le k l ∧ related l s' t' ∧
    (∀ other, other ≠ site → note other s' t' = note other s t) ∧
    learned (note site s' t') k l (.read site word)
  assign : ∀ {j k s t} site word, related k s t → suits j k → demand j (.assign site word) →
    ∃ l s' t', A.assign site word s = .ok () s' ∧ B.assign site word t = .ok () t' ∧ le k l ∧
      related l s' t' ∧ (∀ other, other ≠ site → note other s' t' = note other s t) ∧
      learned (note site s' t') k l (.assign site word)
  enter : ∀ {j j' k s t} site params, related k s t → suits j k → inside j site params j' →
    ∃ p s' t', A.enterFunction site [] params s = .ok () s' ∧ B.enterFunction site [] params t = .ok () t' ∧
      entered k site params p ∧ related p s' t' ∧ suits j' p ∧ ∀ other, note other s' t' = note other s t
  leave : ∀ {k p q s t} site params, entered k site params p → le p q → related q s t →
    ∃ l s' t', A.leaveFunction site s = .ok () s' ∧ B.leaveFunction site t = .ok () t' ∧ le k l ∧
      related l s' t' ∧ (∀ other, other ≠ site → note other s' t' = note other s t) ∧
      learnedInner (note site s' t') k l site params p q

namespace Lockstep

variable {ρ τ : Type} {A : ScopeActions ρ} {B : ScopeActions τ} (L : Lockstep A B)

/-- All that has been learned of a node, between two moments. -/
def Known (notes : Site → L.Note) (k l : L.κ) (node : Node) : Prop :=
  node.Every (fun (c : L.κ × L.κ) u => L.learned (notes u.site) c.1 c.2 u)
    (fun c site params c' => L.learnedInner (notes site) c.1 c.2 site params c'.1 c'.2) (k, l)

def AllKnown (notes : Site → L.Note) (k l : L.κ) (nodes : List Node) : Prop :=
  AllEvery (fun (c : L.κ × L.κ) u => L.learned (notes u.site) c.1 c.2 u)
    (fun c site params c' => L.learnedInner (notes site) c.1 c.2 site params c'.1 c'.2) (k, l) nodes

/-- How two steps end, from the scope `k` and the states `s` and `t`: in related states with `post`, or
with one and the same failure.  Only the notes at `sites` have changed. -/
inductive Outcome (k : L.κ) (sites : List Site) (s : ρ) (t : τ) (post : L.κ → ρ → τ → Prop) :
    EStateM.Result Failure ρ Unit → EStateM.Result Failure τ Unit → Prop where
  | ok {s' : ρ} {t' : τ} (l : L.κ) (grown : L.le k l) (related : L.related l s' t')
      (kept : ∀ site ∉ sites, L.note site s' t' = L.note site s t) (holds : post l s' t') :
      Outcome k sites s t post (.ok () s') (.ok () t')
  | error {e : Failure} {s' : ρ} {t' : τ} (broken : L.broken k s' t')
      (kept : ∀ site ∉ sites, L.note site s' t' = L.note site s t) :
      Outcome k sites s t post (.error e s') (.error e t')

variable {L} {k l m : L.κ}

variable {notes notes' : Site → L.Note} {l' m' : L.κ} {nodes body : List Node} {sites more : List Site}
  {post : L.κ → ρ → τ → Prop} {j' : L.ι} {params : List Label} {left right : Node} {settings : ResolveSettings}
  {levels : Nat}

theorem Known.later (h : L.Known notes l m node) (hl : L.le l' l) (hm : L.le m m')
    (hkept : ∀ site ∈ node.sites, notes' site = notes site) : L.Known notes' l' m' node := by
  refine Node.Every.mono (R := fun (c d : L.κ × L.κ) => L.le d.1 c.1 ∧ L.le c.2 d.2)
    (S := fun site => notes' site = notes site) ?_ ?_ node (l, m) (l', m') ⟨hl, hm⟩ hkept h
  · rintro c d u ⟨h₁, h₂⟩ hsite hu
    rw [hsite]
    exact L.learned_wider h₁ h₂ hu
  · rintro c d site params c' ⟨h₁, h₂⟩ hsite hc
    refine ⟨c', ?_, L.refl _, L.refl _⟩
    rw [hsite]
    exact L.learnedInner_wider h₁ h₂ hc

theorem AllKnown.later (h : L.AllKnown notes l m nodes) (hl : L.le l' l) (hm : L.le m m')
    (hkept : ∀ site ∈ allSites nodes, notes' site = notes site) : L.AllKnown notes' l' m' nodes := by
  unfold AllKnown at h ⊢
  rw [allEvery_iff] at h ⊢
  intro n hn
  exact Known.later (h n hn) hl hm fun site hs => hkept site (mem_allSites.mpr ⟨n, hn, hs⟩)

variable {s : ρ} {t : τ} {site : Site} {j : L.ι}

theorem Outcome.andThen {mid : L.κ → ρ → τ → Prop} {x : EStateM Failure ρ Unit} {y : EStateM Failure τ Unit}
    {x' : EStateM Failure ρ Unit} {y' : EStateM Failure τ Unit} (h : L.Outcome k sites s t mid (x s) (y t))
    (hnext : ∀ l s' t', L.le k l → L.related l s' t' →
      (∀ site ∉ sites, L.note site s' t' = L.note site s t) → mid l s' t' →
      L.Outcome l more s' t'
        (fun m s'' t'' => L.le k m → (∀ site ∉ more, L.note site s'' t'' = L.note site s' t') →
          post m s'' t'') (x' s') (y' t')) :
    L.Outcome k (sites ++ more) s t post ((do x; x') s) ((do y; y') t) := by
  rw [bind_apply, bind_apply]
  generalize x s = rx at h
  generalize y t = ry at h
  cases h with
  | error broken kept => exact .error broken fun site hs => kept site fun h => hs (by simp [h])
  | @ok s' t' l grown related kept holds =>
    have h' := hnext l s' t' grown related kept holds
    dsimp only
    generalize x' s' = rx at h'
    generalize y' t' = ry at h'
    cases h' with
    | error broken kept' =>
      refine .error (L.broken_earlier grown broken) fun site hs => ?_
      rw [kept' site fun h => hs (by simp [h]), kept site fun h => hs (by simp [h])]
    | ok m grown' related' kept' holds' =>
      have hle := L.trans grown grown'
      refine .ok m hle related' (fun site hs => ?_) (holds' hle kept')
      rw [kept' site fun h => hs (by simp [h]), kept site fun h => hs (by simp [h])]

theorem Outcome.weaken (h : L.Outcome k sites s t strong x y) (hsites : ∀ site ∈ sites, site ∈ more)
    (himp : ∀ l s' t', L.le k l → strong l s' t' → weak l s' t') : L.Outcome k more s t weak x y := by
  cases h with
  | ok l grown related kept holds =>
    exact .ok l grown related (fun site hs => kept site fun h => hs (hsites site h))
      (himp l _ _ grown holds)
  | error broken kept => exact .error broken fun site hs => kept site fun h => hs (hsites site h)

theorem Outcome.of_step (grown : L.le k l) (related : L.related l s' t')
    (kept : ∀ other, other ≠ site → L.note other s' t' = L.note other s t) (holds : post l s' t') :
    L.Outcome k [site] s t post (.ok () s') (.ok () t') :=
  .ok l grown related (fun other h => kept other (by simpa using h)) holds

/-! ## The walk -/

variable (L)

/-- The two visits go in step on every node that is as asked. -/
def InStep (visit : Node → EStateM Failure ρ Unit) (visit' : Node → EStateM Failure τ Unit) : Prop :=
  ∀ node j k s t, L.related k s t → L.suits j k → node.sites.Nodup →
    node.Every L.demand L.inside j →
    L.Outcome k node.sites s t (fun l s' t' => L.Known (L.note · s' t') k l node) (visit node s)
      (visit' node t)

variable {L} {visit : Node → EStateM Failure ρ Unit} {visit' : Node → EStateM Failure τ Unit}

theorem visitAll (hvisit : L.InStep visit visit') (hrel : L.related k s t) (hsuits : L.suits j k)
    (hsites : (allSites nodes).Nodup) (hnodes : AllEvery L.demand L.inside j nodes) :
    L.Outcome k (allSites nodes) s t (fun l s' t' => L.AllKnown (L.note · s' t') k l nodes)
      (ScopeActions.visitAll visit nodes s) (ScopeActions.visitAll visit' nodes t) := by
  induction nodes generalizing k s t with
  | nil => exact .ok k (L.refl k) hrel (fun _ _ => rfl) trivial
  | cons node rest ih =>
    simp only [allSites, List.nodup_append'] at hsites
    obtain ⟨hnode, hrest, hdisjoint⟩ := hsites
    refine (hvisit node j k s t hrel hsuits hnode hnodes.1).andThen ?_
    intro l s' t' hle hrel' _ hknown
    refine (ih hrel' (L.suits_later hle hsuits) hrest hnodes.2).weaken (fun _ h => h) ?_
    intro m s'' t'' hlm hall hkm hkept
    -- the notes of the first node are kept while the rest is visited
    refine ⟨Known.later hknown (L.refl k) hlm fun site hs => hkept site fun h => hdisjoint hs h, ?_⟩
    exact AllKnown.later hall hle (L.refl m) fun _ _ => rfl

/-- A label stands for itself; if it is a name, it is placed, and nothing is to be learned. -/
theorem visitLabel (settings : ResolveSettings) (levels : Nat) (hrel : L.related k s t) (hsuits : L.suits j k)
    (label : Label) :
    L.Outcome k label.sites s t (fun _ _ _ => True) (A.visitWithin settings levels label.toNode s)
      (B.visitWithin settings levels label.toNode t) := by
  cases levels with
  | zero =>
    cases label <;> exact .error (L.broken_of_related hrel) fun _ _ => rfl
  | succ levels =>
    cases label with
    | plain word => exact .ok k (L.refl k) hrel (fun _ _ => rfl) trivial
    | name site word =>
      obtain ⟨l, s', t', hA, hB, hle, hrel', hkept, -⟩ := L.read site word hrel hsuits
      show L.Outcome k [site] s t _ (A.read site word s) (B.read site word t)
      rw [hA, hB]
      exact .of_step hle hrel' hkept trivial

theorem visitEntered (hvisit : L.InStep visit visit')
    (hA : A.enterFunction site first params s = .ok () s₁) (hB : B.enterFunction site first params t = .ok () t₁)
    (hentered : L.entered k site params p) (hrel : L.related p s₁ t₁) (hsuits : L.suits j' p)
    (hkept₁ : ∀ other, L.note other s₁ t₁ = L.note other s t) (hsites : (allSites body ++ [site]).Nodup)
    (hbody : AllEvery L.demand L.inside j' body) : L.Outcome k (allSites body ++ [site]) s t (fun l s' t' => ∃ q,
        L.learnedInner (L.note site s' t') k l site params p q ∧ L.AllKnown (L.note · s' t') p q body)
      (ScopeActions.visitFunction A visit site first params body s)
      (ScopeActions.visitFunction B visit' site first params body t) := by
  rw [List.nodup_append'] at hsites
  obtain ⟨hnodup, -, hdisjoint⟩ := hsites
  have hblock := hvisit (.block body) j' p s₁ t₁ hrel hsuits (by simpa [Node.sites] using hnodup)
    (by simpa [Node.Every] using hbody)
  have hsite : site ∉ allSites body := fun h => hdisjoint h (by simp)
  unfold ScopeActions.visitFunction
  rw [bind_of_ok hA, bind_of_ok hB, bind_apply, bind_apply]
  generalize visit (.block body) s₁ = rx at hblock
  generalize visit' (.block body) t₁ = ry at hblock
  cases hblock with
  | error broken kept =>
    refine .error (L.broken_outside hentered broken) fun other hother => ?_
    rw [kept other fun h => hother (by simpa [Node.sites] using .inl h), hkept₁]
  | @ok s₂ t₂ q hpq hrel₂ kept hknown =>
    obtain ⟨l, s₃, t₃, hA₃, hB₃, hle, hrel₃, hkept₃, hlearned⟩ := L.leave site params hentered hpq hrel₂
    dsimp only
    rw [hA₃, hB₃]
    refine .ok l hle hrel₃ (fun other hother => ?_) ⟨q, hlearned, ?_⟩
    · simp only [List.mem_append, List.mem_singleton, not_or] at hother
      rw [hkept₃ other hother.2, kept other (by simpa [Node.sites] using hother.1), hkept₁]
    · simp only [Known, Node.Every] at hknown
      have hall : L.AllKnown (L.note · s₂ t₂) p q body := hknown
      exact AllKnown.later hall (L.refl p) (L.refl q) fun other hother =>
        hkept₃ other fun h => hsite (h ▸ hother)

theorem visitFunction (hvisit : L.InStep visit visit') (hrel : L.related k s t) (hsuits : L.suits j k)
    (hinside : L.inside j site params j') (hsites : (allSites body ++ [site]).Nodup)
    (hbody : AllEvery L.demand L.inside j' body) :
    L.Outcome k (allSites body ++ [site]) s t (fun l s' t' => ∃ p q,
        L.learnedInner (L.note site s' t') k l site params p q ∧ L.AllKnown (L.note · s' t') p q body)
      (ScopeActions.visitFunction A visit site [] params body s)
      (ScopeActions.visitFunction B visit' site [] params body t) := by
  obtain ⟨p, s₁, t₁, hA, hB, hentered, hrel₁, hsuits₁, hkept₁⟩ := L.enter site params hrel hsuits hinside
  refine (visitEntered hvisit hA hB hentered hrel₁ hsuits₁ hkept₁ hsites hbody).weaken (fun _ h => h) ?_
  rintro l s' t' _ ⟨q, hlearned, hall⟩
  exact ⟨p, q, hlearned, hall⟩

/-- An assignment: the right side is visited first, and then the target, which is placed if it is a
name. -/
theorem visitAssignment (hvisit : L.InStep visit visit') (hrel : L.related k s t) (hsuits : L.suits j k)
    (hleft : match left with
      | .name site word => L.demand j (.assign site word)
      | _ => left.Every L.demand L.inside j) (hright : right.Every L.demand L.inside j)
    (hsites : (right.sites ++ left.sites).Nodup) :
    L.Outcome k (right.sites ++ left.sites) s t
      (fun l s' t' => L.Known (L.note · s' t') k l right ∧
        match left with 
        | .name site word => L.learned (L.note site s' t') k l (.assign site word)
        | _ => L.Known (L.note · s' t') k l left)
      ((do visit right; match left with
        | .name site word => A.assign site word
        | _ => visit left) s)
      ((do visit' right; match left with
        | .name site word => B.assign site word
        | _ => visit' left) t) := by
  rw [List.nodup_append'] at hsites
  obtain ⟨hnr, hnl, hdisjoint⟩ := hsites
  refine (hvisit right j k s t hrel hsuits hnr hright).andThen ?_
  intro l s' t' hle hrel' _ hknown
  have hright' : ∀ {m s'' t''}, L.le l m → (∀ site ∉ left.sites, L.note site s'' t'' = L.note site s' t') →
      L.Known (L.note · s'' t'') k m right := fun hlm hkept =>
    hknown.later (L.refl k) hlm fun site hs => hkept site fun h => hdisjoint hs h
  have htarget : left.Every L.demand L.inside j → L.Outcome l left.sites s' t'
      (fun m s'' t'' => L.le k m → (∀ site ∉ left.sites, L.note site s'' t'' = L.note site s' t') →
        L.Known (L.note · s'' t'') k m right ∧ L.Known (L.note · s'' t'') k m left)
      (visit left s') (visit' left t') := by
    intro hl
    refine (hvisit left j l s' t' hrel' (L.suits_later hle hsuits) hnl hl).weaken (fun _ h => h) ?_
    intro m s'' t'' hlm hknown' _ hkept
    exact ⟨hright' hlm hkept, hknown'.later hle (L.refl m) fun _ _ => rfl⟩
  cases left with
  | name site word =>
    obtain ⟨m, s₂, t₂, hA, hB, hlm, hrel₂, hkept, hlearned⟩ :=
      L.assign site word hrel' (L.suits_later hle hsuits) hleft
    show L.Outcome l [site] s' t' _ (A.assign site word s') (B.assign site word t')
    rw [hA, hB]
    refine .of_step hlm hrel₂ hkept fun _ hkept' => ⟨hright' hlm hkept', ?_⟩
    exact L.learned_wider hle (L.refl m) hlearned
  | _ => exact htarget hleft

/-- Any other operation: the operands are visited from left to right, the operator between them. -/
theorem visitOperation (hvisit : L.InStep (A.visitWithin settings levels) (B.visitWithin settings levels))
    (hrel : L.related k s t) (hsuits : L.suits j k) {operator : Label} (hleft : left.Every L.demand L.inside j)
    (hright : right.Every L.demand L.inside j) (hsites : (left.sites ++ operator.sites ++ right.sites).Nodup) :
    L.Outcome k (left.sites ++ (operator.sites ++ right.sites)) s t
      (fun l s' t' => L.Known (L.note · s' t') k l left ∧ L.Known (L.note · s' t') k l right)
      ((do A.visitWithin settings levels left
           A.visitWithin settings levels operator.toNode
           A.visitWithin settings levels right) s)
      ((do B.visitWithin settings levels left
           B.visitWithin settings levels operator.toNode
           B.visitWithin settings levels right) t) := by
  simp only [List.append_assoc, List.nodup_append', List.disjoint_append_right] at hsites
  obtain ⟨hnl, ⟨-, hnr, -⟩, hlo, hlr⟩ := hsites
  refine (hvisit left j k s t hrel hsuits hnl hleft).andThen ?_
  intro l s₁ t₁ hle hrel₁ _ hknown
  refine (visitLabel settings levels hrel₁ (L.suits_later hle hsuits) operator).andThen ?_
  intro m s₂ t₂ hlm hrel₂ _ _
  have hsuits₂ := L.suits_later (L.trans hle hlm) hsuits
  refine (hvisit right j m s₂ t₂ hrel₂ hsuits₂ hnr hright).weaken (fun _ h => h) ?_
  intro n s₃ t₃ hmn hknown' hln hkept₃ hkn hkept₁₃
  refine ⟨hknown.later (L.refl k) hln fun site hs => ?_, ?_⟩
  · exact hkept₁₃ site fun h => (List.mem_append.mp h).elim (hlo hs) (hlr hs)
  · exact hknown'.later (L.trans hle hlm) (L.refl n) fun _ _ => rfl

theorem visitNode (hvisit : L.InStep (A.visitWithin settings levels) (B.visitWithin settings levels)) :
    L.InStep (A.visitWithin settings (levels + 1)) (B.visitWithin settings (levels + 1)) := by
  intro node j k s t hrel hsuits hsites hnode
  show L.Outcome k node.sites s t _ (ScopeActions.visitNode A (A.visitWithin settings levels) node s)
    (ScopeActions.visitNode B (B.visitWithin settings levels) node t)
  by_cases hrow : node.isRow
  · -- a node that only hands on what its children ask for
    rw [ScopeActions.visitNode_row A _ hrow, ScopeActions.visitNode_row B _ hrow, sites_row hrow]
    rw [sites_row hrow] at hsites
    refine (visitAll hvisit hrel hsuits hsites ((every_row hrow).mp hnode)).weaken (fun _ h => h) ?_
    exact fun l s' t' _ hall => (every_row hrow).mpr hall
  · cases node with
    | name site word =>
      obtain ⟨l, s', t', hA, hB, hle, hrel', hkept, hlearned⟩ := L.read site word hrel hsuits
      show L.Outcome k [site] s t _ (A.read site word s) (B.read site word t)
      rw [hA, hB]
      exact .of_step hle hrel' hkept hlearned
    | binary left operator right =>
      have hnodes := hsites
      simp only [Node.sites, List.append_assoc, List.nodup_append', List.disjoint_append_right] at hsites
      obtain ⟨hnl, ⟨-, hnr, -⟩, -, hlr⟩ := hsites
      simp only [ScopeActions.visitNode, Node.Every] at hnode ⊢
      split
      · rename_i heq
        simp only [heq, if_true] at hnode
        have hnodup : (right.sites ++ left.sites).Nodup :=
          List.nodup_append'.mpr ⟨hnr, hnl, fun _ hr hl => hlr hl hr⟩
        refine (visitAssignment hvisit hrel hsuits hnode.2 hnode.1 hnodup).weaken ?_ ?_
        · intro site hsite
          simp only [Node.sites, List.mem_append] at hsite ⊢
          tauto
        · intro l s' t' _ hknown
          simp only [Known, Node.Every, heq, if_true]
          cases left <;> exact hknown
      · rename_i hne
        simp only [hne, if_false] at hnode
        refine (visitOperation hvisit hrel hsuits hnode.1 hnode.2 hnodes).weaken ?_ ?_
        · intro site hsite
          simpa [Node.sites] using hsite
        · intro l s' t' _ hknown
          simp only [Known, Node.Every, hne, if_false]
          exact hknown
    | definition site title params body => exact absurd hnode (L.no_definition j site title params body)
    | closure site params body =>
      obtain ⟨j', hinside, hbody⟩ := hnode
      have hsub : (allSites body ++ [site]).Nodup := by
        refine hsites.sublist ?_
        simp [Node.sites]
      refine (visitFunction hvisit hrel hsuits hinside hsub hbody).weaken ?_ ?_
      · intro other h
        simp only [Node.sites, List.append_assoc]
        exact List.mem_append_right _ h
      · rintro l s' t' _ ⟨p, q, hinner, hall⟩
        exact ⟨(p, q), hinner, hall⟩
    | classDefinition site title parent members =>
      exact absurd hnode (L.no_class j site title parent members)
    | parameters names => exact .ok k (L.refl k) hrel (fun _ _ => rfl) trivial
    | suffix suffix =>
      cases suffix with
      | member site title => exact .ok k (L.refl k) hrel (fun _ _ => rfl) trivial
      | _ => exact absurd rfl hrow
    | _ => exact absurd rfl hrow

theorem inStep (settings : ResolveSettings) (levels : Nat) :
    L.InStep (A.visitWithin settings levels) (B.visitWithin settings levels) := by
  induction levels with
  | zero =>
    intro node j k s t hrel _ _ _
    exact .error (L.broken_of_related hrel) fun _ _ => rfl
  | succ levels ih => exact visitNode ih

end Lockstep

end StoneLang
