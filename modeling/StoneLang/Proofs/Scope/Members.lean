/-
  The members of a class, walk by walk.

  Laying out a class gives its methods their slots, places the names of the field initializers, and then
  those of the methods, each in a table that starts with the receiver.  As for single nodes, the walks over
  members are stated over open actions, and two of them go in step if their actions do
  (`Lockstep.visitInitializers`, `Lockstep.visitMethods`).
-/
import StoneLang.Proofs.Scope.Lockstep

namespace StoneLang

def methodsOf (members : List Node) : List Node := members.filter fun m => (Definition.ofNode? m).isSome

theorem allSites_filter (p : Node → Bool) (nodes : List Node) : (allSites (nodes.filter p)).Sublist (allSites nodes) := by
  induction nodes with
  | nil => exact .slnil
  | cons node rest ih =>
    rw [List.filter_cons]
    split
    · exact ih.append_left node.sites
    · exact ih.trans (List.sublist_append_right ..)

theorem allSites_methodsOf (members : List Node) : (allSites (methodsOf members)).Sublist (allSites members) :=
  allSites_filter _ members

theorem initializer_disjoint (h : (allSites members).Nodup)
    (hmem : member ∈ members) (hnone : Definition.ofNode? member = none)
    (hsite : site ∈ member.sites) : site ∉ allSites (methodsOf members) := by
  induction members with
  | nil => simp at hmem
  | cons other rest ih =>
    simp only [allSites, List.nodup_append'] at h
    obtain ⟨-, hrest, hdisjoint⟩ := h
    rcases List.mem_cons.mp hmem with rfl | hmem
    · simp only [methodsOf, List.filter_cons, hnone]
      exact fun hin => hdisjoint hsite ((allSites_methodsOf rest).subset hin)
    · have hlater := ih hrest hmem
      cases hd : Definition.ofNode? other with
      | none =>
        simp only [methodsOf, List.filter_cons, hd]
        exact hlater
      | some d =>
        simp only [methodsOf, List.filter_cons, hd, Option.isSome_some, if_true, allSites,
          List.mem_append, not_or]
        exact ⟨fun hin => hdisjoint hin (mem_allSites.mpr ⟨member, hmem, hsite⟩), hlater⟩

/-! ## Methods are given their slots -/

theorem Definition.eq_toNode (h : Definition.ofNode? node = some d) : node = d.toNode := by
  cases node <;> simp only [Definition.ofNode?, Option.some.injEq, reduceCtorEq] at h
  subst h
  rfl

theorem Layout.mem_define {l : Layout} (h : e ∈ (l.define slot d).definitions) : e ∈ l.definitions ∨ e = d := by
  unfold Layout.define at h
  split at h
  · exact List.mem_or_eq_of_mem_set h
  · simpa using h

/-- Giving slots to methods depends on the members and the superclass alone.  It notes the slots of the
members, and the methods are those of the superclass or members. -/
theorem layOutMethods_eq (members : List Node) (base : Layout) :
    ∃ layout, (∀ d ∈ layout.definitions, d ∈ base.definitions ∨ d.toNode ∈ members) ∧
      ∀ s : Resolving, ∃ slots, layOutMethods members base s
          = .ok layout { s with notes := { s.notes with slots } } ∧
        ∀ site ∉ allSites members, slots.get? site = s.notes.slots.get? site := by
  induction members generalizing base with
  | nil => exact ⟨base, fun d hd => .inl hd, fun s => ⟨s.notes.slots, rfl, fun _ _ => rfl⟩⟩
  | cons member rest ih =>
    cases hd : Definition.ofNode? member with
    | none =>
      obtain ⟨layout, hfrom, hlay⟩ := ih base
      refine ⟨layout, fun d hmem => (hfrom d hmem).imp_right (List.mem_cons_of_mem _), fun s => ?_⟩
      obtain ⟨slots, heq, hkept⟩ := hlay s
      refine ⟨slots, ?_, fun site hsite => hkept site fun h => hsite (by simp [allSites, h])⟩
      simp only [layOutMethods, hd]
      exact heq
    | some d =>
      have hmember := Definition.eq_toNode hd
      obtain ⟨layout, hfrom, hlay⟩ := ih (base.addMethod d).2
      refine ⟨layout, fun e hmem => ?_, fun s => ?_⟩
      · rcases hfrom e hmem with h | h
        · exact (Layout.mem_define h).imp_right fun he => by simp [he, hmember]
        · exact .inr (List.mem_cons_of_mem _ h)
      · obtain ⟨slots, heq, hkept⟩ := hlay { s with notes :=
          { s.notes with slots := s.notes.slots.set d.site (base.addMethod d).1 } }
        refine ⟨slots, ?_, fun site hsite => ?_⟩
        · simp only [layOutMethods, hd]
          exact heq
        · have hne : site ≠ d.site := by
            rintro rfl
            exact hsite (by simp [allSites, hmember, Definition.toNode, Node.sites])
          rw [hkept site fun h => hsite (by simp [allSites, h])]
          simp only [SiteMap.get?_set, if_neg hne]

/-! ## Stage by stage -/

/-- The state in which the field initializers of a class are visited. -/
def Resolving.inClass (s : Resolving) (layout : Layout) : Resolving :=
  { s with scope := .ofReceiver :: ⟨.fields, layout.fields⟩ :: ⟨.methods, layout.methods⟩ :: s.scope }

def Resolving.outside (s : Resolving) : Resolving := { s with scope := s.scope.tail }

def Scope.innermostNames : Scope → List Text
  | t :: _ => t.names
  | [] => []

section
variable {settings : ResolveSettings} {title : Text} {members : List Node} {base layout : Layout}
  {s s₁ s₂ s₃ : Resolving} {e : Failure}

theorem leave_eq (s : Resolving) : ∃ size, Resolve.leave s = .ok size s.outside := by
  obtain ⟨scope, notes, records⟩ := s
  cases scope with
  | nil => exact ⟨0, rfl⟩
  | cons t outer => exact ⟨t.size, rfl⟩

section
variable (h₁ : layOutMethods members base s = .ok layout s₁)

include h₁

theorem layOutClass_error_initializers (h₂ : visitInitializers settings members (s₁.inClass layout) = .error e s₂) :
    layOutClass settings title members base s = .error e s₂ := by
  unfold layOutClass
  rw [bind_of_ok h₁]
  exact bind_of_error (x := visitInitializers settings members) h₂

theorem layOutClass_methods (h₂ : visitInitializers settings members (s₁.inClass layout) = .ok () s₂) :
    layOutClass settings title members base s = (do
      visitMethods settings members
      let s ← get
      let fields := s.scope.innermostNames
      Resolve.note settings (Record.debug "resolved class"
        [("class", .text title), ("fields", .number fields.length),
          ("methods", .number layout.methods.length)])
      return { layout with fields } : Resolve Layout) s₂.outside := by
  obtain ⟨size, hleave⟩ := leave_eq s₂
  unfold layOutClass
  rw [bind_of_ok h₁]
  exact (bind_of_ok (x := visitInitializers settings members) h₂).trans (bind_of_ok hleave)

theorem layOutClass_error_methods (h₂ : visitInitializers settings members (s₁.inClass layout) = .ok () s₂)
    (h₃ : visitMethods settings members s₂.outside = .error e s₃) :
    layOutClass settings title members base s = .error e s₃ := by
  rw [layOutClass_methods h₁ h₂]
  exact bind_of_error h₃

end

theorem layOutClass_ok (title : Text) (h₁ : layOutMethods members base s = .ok layout s₁)
    (h₂ : visitInitializers settings members (s₁.inClass layout) = .ok () s₂)
    (h₃ : visitMethods settings members s₂.outside = .ok () s₃) :
    ∃ records, layOutClass settings title members base s
      = .ok { layout with fields := s₃.scope.innermostNames } { s₃ with records } := by
  rw [layOutClass_methods h₁ h₂, bind_of_ok h₃]
  refine ⟨if settings.watched then s₃.records.push (Record.debug "resolved class"
    [("class", .text title), ("fields", .number s₃.scope.innermostNames.length),
      ("methods", .number layout.methods.length)]) else s₃.records, ?_⟩
  cases hwatched : settings.watched <;> simp only [Resolve.note, hwatched] <;> rfl

end

/-! ## The walks over members -/

namespace ScopeActions

def visitInitializers {ρ : Type} (visit : Node → EStateM Failure ρ Unit) :
    List Node → EStateM Failure ρ Unit
  | [] => return ()
  | member :: rest => do
    if (Definition.ofNode? member).isNone then visit member
    visitInitializers visit rest

/-- Places the names of the methods, each in a table that starts with the receiver. -/
def visitMethods {ρ : Type} (A : ScopeActions ρ) (visit : Node → EStateM Failure ρ Unit) :
    List Node → EStateM Failure ρ Unit
  | [] => return ()
  | member :: rest => do
    if let some d := Definition.ofNode? member then
      visitFunction A visit d.site [thisName] d.parameters d.body
    visitMethods A visit rest

theorem visitInitializers_resolver (settings : ResolveSettings) (members : List Node) :
    visitInitializers (visitWithin (resolver settings) settings settings.maxDepth) members
      = StoneLang.visitInitializers settings members := by
  induction members with
  | nil => rfl
  | cons member rest ih =>
    simp only [visitInitializers, StoneLang.visitInitializers, ih, visitWithin_resolver, visit]

theorem visitMethods_resolver (settings : ResolveSettings) (members : List Node) :
    visitMethods (resolver settings) (visitWithin (resolver settings) settings settings.maxDepth) members
      = StoneLang.visitMethods settings members := by
  induction members with
  | nil => rfl
  | cons member rest ih =>
    have hvisit : visitWithin (resolver settings) settings settings.maxDepth = visit settings := by
      funext node
      exact visitWithin_resolver settings settings.maxDepth node
    rw [hvisit] at ih ⊢
    simp only [visitMethods, StoneLang.visitMethods, ih]
    cases Definition.ofNode? member with
    | none => rfl
    | some d => simp only [visitFunction_resolver, bind_assoc]

end ScopeActions

namespace Lockstep

variable {ρ τ : Type} {A : ScopeActions ρ} {B : ScopeActions τ} {L : Lockstep A B} {k : L.κ}
  {visit : Node → EStateM Failure ρ Unit} {visit' : Node → EStateM Failure τ Unit}

theorem visitInitializers (hvisit : L.InStep visit visit') {j : L.ι} (hrel : L.related k s t) (hsuits : L.suits j k)
    (hsites : (allSites members).Nodup) (hmembers : ∀ member ∈ members, Definition.ofNode? member = none →
      member.Every L.demand L.inside j) : L.Outcome k (allSites members) s t
      (fun l s' t' => ∀ member ∈ members, Definition.ofNode? member = none → L.Known (L.note · s' t') k l member)
      (ScopeActions.visitInitializers visit members s) (ScopeActions.visitInitializers visit' members t) := by
  induction members generalizing k s t with
  | nil => exact .ok k (L.refl k) hrel (fun _ _ => rfl) (by simp)
  | cons member rest ih =>
    simp only [allSites, List.nodup_append'] at hsites
    obtain ⟨hmember, hrest, hdisjoint⟩ := hsites
    have hrest' : ∀ m ∈ rest, Definition.ofNode? m = none → m.Every L.demand L.inside j :=
      fun m hm => hmembers m (by simp [hm])
    cases hd : Definition.ofNode? member with
    | none =>
      simp only [ScopeActions.visitInitializers, hd, Option.isNone_none, if_true]
      refine (hvisit member j k s t hrel hsuits hmember (hmembers member (by simp) hd)).andThen ?_
      intro l s' t' hle hrel' _ hknown
      refine (ih hrel' (L.suits_later hle hsuits) hrest hrest').weaken (fun _ h => h) ?_
      intro m s'' t'' hlm hall hkm hkept other hother hnone
      rcases List.mem_cons.mp hother with rfl | hother
      · exact Known.later hknown (L.refl k) hlm fun site hs => hkept site fun h => hdisjoint hs h
      · exact Known.later (hall other hother hnone) hle (L.refl m) fun _ _ => rfl
    | some d =>
      simp only [ScopeActions.visitInitializers, hd, Option.isNone_some]
      refine (ih hrel hsuits hrest hrest').weaken (fun _ h => by simp [allSites, h]) ?_
      intro l s' t' _ hall other hother hnone
      rcases List.mem_cons.mp hother with rfl | hother
      · simp [hd] at hnone
      · exact hall other hother hnone

/-- The methods of a class; `E` is what is known of the scope in which the names of one are placed. -/
theorem visitMethods (hvisit : L.InStep visit visit') {j' : L.ι} {E : List Label → L.κ → Prop} {s : ρ}
    {t : τ} (hrel : L.related k s t) (hsites : (allSites members).Nodup)
    (henter : ∀ d : Definition, d.toNode ∈ members → ∀ l s t, L.le k l → L.related l s t →
      ∃ p s' t', A.enterFunction d.site [thisName] d.parameters s = .ok () s' ∧
        B.enterFunction d.site [thisName] d.parameters t = .ok () t' ∧ L.entered l d.site d.parameters p ∧
        L.related p s' t' ∧ L.suits j' p ∧ E d.parameters p ∧ ∀ other, L.note other s' t' = L.note other s t)
    (hmembers : ∀ d : Definition, d.toNode ∈ members → AllEvery L.demand L.inside j' d.body) :
    L.Outcome k (allSites (methodsOf members)) s t
      (fun l s' t' => ∀ d : Definition, d.toNode ∈ members → ∃ p q, E d.parameters p ∧
        L.learnedInner (L.note d.site s' t') k l d.site d.parameters p q ∧ L.AllKnown (L.note · s' t') p q d.body)
      (ScopeActions.visitMethods A visit members s) (ScopeActions.visitMethods B visit' members t) := by
  induction members generalizing k s t with
  | nil => exact .ok k (L.refl k) hrel (fun _ _ => rfl) (by simp)
  | cons member rest ih =>
    simp only [allSites, List.nodup_append'] at hsites
    obtain ⟨hmember, hrest, hdisjoint⟩ := hsites
    have hmembers' : ∀ d : Definition, d.toNode ∈ rest → AllEvery L.demand L.inside j' d.body :=
      fun d hd => hmembers d (by simp [hd])
    cases hd : Definition.ofNode? member with
    | none =>
      simp only [ScopeActions.visitMethods, hd, methodsOf, List.filter_cons]
      refine (ih hrel hrest (fun d hd => henter d (by simp [hd])) hmembers').weaken (fun _ h => h) ?_
      intro l s' t' _ hall d hmem
      rcases List.mem_cons.mp hmem with rfl | hmem
      · cases hd
      · exact hall d hmem
    | some d =>
      obtain rfl := Definition.eq_toNode hd
      simp only [ScopeActions.visitMethods, hd, methodsOf, List.filter_cons, Option.isSome_some, if_true]
      obtain ⟨p, s₁, t₁, hA, hB, hentered, hrel₁, hsuits₁, hE, hkept₁⟩ :=
        henter d (by simp) k s t (L.refl k) hrel
      have hsub : (allSites d.body ++ [d.site]).Sublist d.toNode.sites := by
        unfold Definition.toNode Node.sites
        exact (List.sublist_append_right _ _).append (.refl _)
      have hmethod := visitEntered hvisit hA hB hentered hrel₁ hsuits₁ hkept₁ (hmember.sublist hsub)
        (hmembers d (by simp))
      refine (hmethod.weaken (fun _ h => hsub.subset h) fun _ _ _ _ h => h).andThen ?_
      rintro l s' t' hle hrel' _ ⟨q, hlearned, hknown⟩
      refine (ih hrel' hrest (fun e he m s t hlm => henter e (by simp [he]) m s t (L.trans hle hlm))
        hmembers').weaken (fun _ h => h) ?_
      intro m s'' t'' hlm hall hkm hkept e hmem
      rcases List.mem_cons.mp hmem with heq | hmem
      · -- the notes of this method are kept while the others are visited
        obtain rfl : e = d := Option.some.inj (congrArg Definition.ofNode? heq)
        have hkept' : ∀ site ∈ allSites e.body ++ [e.site], L.note site s'' t'' = L.note site s' t' :=
          fun site hs => hkept site fun h =>
            hdisjoint (hsub.subset hs) ((allSites_methodsOf rest).subset h)
        refine ⟨p, q, hE, ?_, ?_⟩
        · rw [hkept' e.site (by simp)]
          exact L.learnedInner_wider (L.refl k) hlm hlearned
        · exact AllKnown.later hknown (L.refl p) (L.refl q) fun site hs => hkept' site (by simp [hs])
      · obtain ⟨p, q, hE, hinner, hbody⟩ := hall e hmem
        exact ⟨p, q, hE, L.learnedInner_wider hle (L.refl m) hinner, hbody⟩

end Lockstep

end StoneLang
