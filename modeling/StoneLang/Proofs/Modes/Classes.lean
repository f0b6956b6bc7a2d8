/-
  Laying out a class in two modes.

  A class body is placed when the class is defined, in either mode.  The two walks go in step: they give
  the same layout, or fail in the same way, and every name in the body is at the same place in both or
  among the globals in both (`layOutClass_inStep`).  The crux is `classPlacing`, the walk over the code
  inside; here it is taken through the members, field initializers first and then methods.
-/
import StoneLang.Proofs.Modes.Placing
import StoneLang.Proofs.Scope.Members

namespace StoneLang

def Notes.KeptOutside (sites : List Site) (notes notes' : Notes) : Prop :=
  ∀ site ∉ sites, notes'.places.get? site = notes.places.get? site ∧
    notes'.slots.get? site = notes.slots.get? site ∧ notes'.sizes.get? site = notes.sizes.get? site

/-- A use in a class body, `depth` scopes inside the globals, has been placed. -/
def ClassUse (globals globals' : List Text) (notes notes' : Notes) (depth : Nat) (u : Use) : Prop :=
  u.isPlain ∧ ClassPlaced globals globals' depth (notes.places.get? u.site) (notes'.places.get? u.site) u

def ClassInner (notes notes' : Notes) (depth : Nat) (site : Site) (_ : List Label) (inner : Nat) : Prop :=
  inner = depth + 1 ∧ ∃ size, notes.sizes.get? site = some size ∧ notes'.sizes.get? site = some size

/-- The names in a member have been placed, in one mode and in the other. -/
def MemberPlaced (globals globals' : List Text) (notes notes' : Notes) (member : Node) : Prop :=
  match Definition.ofNode? member with
  | none => member.Every (ClassUse globals globals' notes notes') (ClassInner notes notes') 1
  | some d => notes'.sizes.get? d.site = notes.sizes.get? d.site ∧
      AllEvery (ClassUse globals globals' notes notes') (ClassInner notes notes') 1 d.body

section
variable {settings : ResolveSettings} {globals globals' : List Text} {before before' : Notes}

theorem every_of_known {s t : Resolving} {kinds kinds' : List TableKind} {node : Node}
    (h : (classPlacing settings globals globals' before before').Known
      ((classPlacing settings globals globals' before before').note · s t) kinds kinds' node) :
    node.Every (ClassUse globals globals' s.notes t.notes) (ClassInner s.notes t.notes)
      (scopeCount kinds) := by
  refine Node.Every.mono (R := fun c depth => depth = scopeCount c.1) (S := fun _ => True) ?_ ?_ node
    (kinds, kinds') (scopeCount kinds) rfl (fun _ _ => trivial) h
  · rintro c _ u rfl _ hu
    exact hu.2
  · rintro c _ site params c' rfl _ ⟨hp, -, hsize⟩
    refine ⟨scopeCount c'.1, ⟨?_, hsize⟩, rfl⟩
    rw [hp]
    simp [scopeCount]

end

/-- The two walks over a class go in step: both succeed with one layout, or both fail alike. -/
theorem layOutClass_inStep (settings : ResolveSettings) (title : Text)
    (hmembers : ∀ member ∈ members, member.IsMember) (hsites : (allSites members).Nodup) (base : Layout)
    (globals globals' : List Text) (notes notes' : Notes) :
    ∃ s t, Notes.KeptOutside (allSites members) notes s.notes ∧
      Notes.KeptOutside (allSites members) notes' t.notes ∧
      s.notes.caches = notes.caches ∧ t.notes.caches = notes'.caches ∧
      ((∃ e, layOutClass settings title members base (.start globals notes) = .error e s ∧
          layOutClass settings title members base (.start globals' notes') = .error e t) ∨
        ∃ layout,
          layOutClass settings title members base (.start globals notes) = .ok layout s ∧
          layOutClass settings title members base (.start globals' notes') = .ok layout t ∧
          (∀ d ∈ layout.definitions, d ∈ base.definitions ∨ d.toNode ∈ members) ∧
          ∀ member ∈ members, MemberPlaced globals globals' s.notes t.notes member) := by
  obtain ⟨layout, hfrom, hlay⟩ := layOutMethods_eq members base
  obtain ⟨slots, hs₁, hslots⟩ := hlay (.start globals notes)
  obtain ⟨slots', ht₁, hslots'⟩ := hlay (.start globals' notes')
  let L := classPlacing settings globals globals' { notes with slots } { notes' with slots := slots' }
  -- the field initializers, in the scope of the receiver
  have hrel : L.related [.receiver, .fields, .methods]
      (Resolving.inClass (.start globals { notes with slots }) layout)
      (Resolving.inClass (.start globals' { notes' with slots := slots' }) layout) :=
    ⟨⟨[.ofReceiver, ⟨.fields, layout.fields⟩, ⟨.methods, layout.methods⟩], rfl, rfl, rfl⟩, ⟨rfl, rfl⟩, rfl, rfl⟩
  -- what the walks leave of the notes at other sites
  have hkept : ∀ s t : Resolving,
      (∀ site ∉ allSites members, L.note site s t = L.note site ⟨[], notes, #[]⟩ ⟨[], notes', #[]⟩) →
      ({ notes with slots } : Notes).SameSlots s.notes →
      ({ notes' with slots := slots' } : Notes).SameSlots t.notes →
      Notes.KeptOutside (allSites members) notes s.notes ∧
        Notes.KeptOutside (allSites members) notes' t.notes ∧
        s.notes.caches = notes.caches ∧ t.notes.caches = notes'.caches := by
    intro s t hnote hs ht
    refine ⟨fun site hsite => ?_, fun site hsite => ?_, hs.2, ht.2⟩
    · have h := hnote site hsite
      exact ⟨congrArg (·.1.1) h, by rw [hs.1]; exact hslots site hsite, congrArg (·.2.1) h⟩
    · have h := hnote site hsite
      exact ⟨congrArg (·.1.2) h, by rw [ht.1]; exact hslots' site hsite, congrArg (·.2.2) h⟩
  have hstep := L.inStep settings settings.maxDepth
  have hinit := Lockstep.visitInitializers hstep (j := ()) hrel .initializers hsites
    fun member hmem hnone => member_isPlain hmembers hmem hnone
  rw [ScopeActions.visitInitializers_resolver] at hinit
  generalize hs₂ : visitInitializers settings members
    (Resolving.inClass (.start globals { notes with slots }) layout) = rs at hinit
  generalize ht₂ : visitInitializers settings members
    (Resolving.inClass (.start globals' { notes' with slots := slots' }) layout) = rt at hinit
  cases hinit with
  | @error e s t hbroken hnote =>
    obtain ⟨hk, hk', hc, hc'⟩ := hkept s t hnote hbroken.1 hbroken.2
    exact ⟨s, t, hk, hk', hc, hc', .inl ⟨e, layOutClass_error_initializers hs₁ hs₂,
      layOutClass_error_initializers ht₁ ht₂⟩⟩
  | @ok s₂ t₂ kinds hgrown hrel₂ hnote₂ hknown =>
    cases hgrown
    -- the methods, each in a scope of its own inside the members
    obtain ⟨⟨inner, hinner, hsc, htc⟩, hsame⟩ := hrel₂
    have hrel₃ : L.related [.fields, .methods] s₂.outside t₂.outside := by
      cases inner with
      | nil => cases hinner
      | cons receiver rest =>
        refine ⟨⟨rest, (List.cons.inj hinner).2, ?_, ?_⟩, hsame⟩
        · simp [Resolving.outside, hsc]
        · simp [Resolving.outside, htc]
    have houtside : ∀ site ∉ allSites members, site ∉ allSites (methodsOf members) :=
      fun site hsite h => hsite ((allSites_methodsOf members).subset h)
    have hmethods := Lockstep.visitMethods hstep (E := fun _ p => p = [.locals, .fields, .methods])
      hrel₃ hsites ?_ (fun d hd => allPlain_iff.mpr (method_isPlain hmembers hd))
    · rw [ScopeActions.visitMethods_resolver] at hmethods
      generalize hs₃ : visitMethods settings members s₂.outside = rs at hmethods
      generalize ht₃ : visitMethods settings members t₂.outside = rt at hmethods
      cases hmethods with
      | @error e s t hbroken hnote =>
        obtain ⟨hk, hk', hc, hc'⟩ := hkept s t
          (fun site hsite => (hnote site (houtside site hsite)).trans (hnote₂ site hsite))
          hbroken.1 hbroken.2
        exact ⟨s, t, hk, hk', hc, hc', .inl ⟨e, layOutClass_error_methods hs₁ hs₂ hs₃,
          layOutClass_error_methods ht₁ ht₂ ht₃⟩⟩
      | @ok s t kinds hgrown hrel' hnote hbodies =>
        cases hgrown
        obtain ⟨⟨inner', hinner', hsc', htc'⟩, hsame'⟩ := hrel'
        have hnames : t.scope.innermostNames = s.scope.innermostNames := by
          rw [hsc', htc']
          cases inner' with
          | nil => cases hinner'
          | cons fields rest => rfl
        obtain ⟨records, hs₄⟩ := layOutClass_ok title hs₁ hs₂ hs₃
        obtain ⟨records', ht₄⟩ := layOutClass_ok title ht₁ ht₂ ht₃
        rw [hnames] at ht₄
        obtain ⟨hk, hk', hc, hc'⟩ := hkept s t
          (fun site hsite => (hnote site (houtside site hsite)).trans (hnote₂ site hsite)) hsame'.1 hsame'.2
        refine ⟨{ s with records }, { t with records := records' }, hk, hk', hc, hc',
          .inr ⟨_, hs₄, ht₄, hfrom, fun member hmem => ?_⟩⟩
        unfold MemberPlaced
        cases hd : Definition.ofNode? member with
        | none =>
          -- the names in it were placed before the methods were visited
          have hold : L.Known (L.note · s t) _ _ member := (hknown member hmem hd).later rfl rfl
            fun site hsite => hnote site (initializer_disjoint hsites hmem hd hsite)
          exact every_of_known hold
        | some d =>
          obtain rfl := Definition.eq_toNode hd
          obtain ⟨p, q, rfl, ⟨-, -, size, hsize, hsize'⟩, hbody⟩ := hbodies d hmem
          refine ⟨hsize'.trans hsize.symm, ?_⟩
          rw [allEvery_iff]
          intro n hn
          exact every_of_known ((allEvery_iff _ _).mp hbody n hn)
    · rintro d hd l s t rfl ⟨⟨inner, hinner, hsc, htc⟩, hsame⟩
      have henter := ScopeActions.resolver_enter settings d.site s [thisName] d.parameters
      have henter' := ScopeActions.resolver_enter settings d.site t [thisName] d.parameters
      rw [hsc] at henter
      rw [htc] at henter'
      refine ⟨_, _, _, henter, henter', rfl, ⟨⟨_ :: inner, ?_, rfl, rfl⟩, hsame⟩, .method, rfl, fun _ => rfl⟩
      rw [List.map_cons, (Table.addAll_grows rfl _).kind, hinner]

end StoneLang
