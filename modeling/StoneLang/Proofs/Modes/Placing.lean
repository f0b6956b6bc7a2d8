/-
  What placing the names of a conforming unit notes.

  Outside class bodies the tables of the functions around are their parameters and never grow, so each
  name is placed as `Chain.find?` says or among the globals (`openPlacing`).  Class bodies are placed in
  either mode, against whatever globals each mode has declared by then.  Their tables grow, but in step,
  and so a name is at the same place in both or among the globals in both (`classPlacing`).
-/
import StoneLang.Proofs.Modes.Conforming
import StoneLang.Proofs.Scope.Lockstep

namespace StoneLang

/-- The place of a name that is not found inside: a slot that it has among the globals, `hops` scopes
further out, or none, so that it is looked up by name. -/
def GlobalPlace (globals : List Text) (hops : Nat) (name : Text) (place : Option Location) : Prop :=
  place = none ∨ ∃ slot, place = some (.lexical hops slot) ∧ globals.idxOf? name = some slot

theorem GlobalPlace.of_idxOf? (globals : List Text) (hops : Nat) (name : Text) :
    GlobalPlace globals hops name ((globals.idxOf? name).map (.lexical hops)) := by
  cases hslot : globals.idxOf? name with
  | none => exact .inl rfl
  | some slot => exact .inr ⟨slot, rfl, hslot⟩

variable {globals globals' : List Text} {place : Option Location}

theorem GlobalPlace.later (h : GlobalPlace globals hops name place)
    (hle : globals <+: globals') :
    GlobalPlace globals' hops name place := by
  rcases h with rfl | ⟨slot, rfl, hslot⟩
  · exact .inl rfl
  · exact .inr ⟨slot, rfl, idxOf?_of_isPrefix hle hslot⟩

/-! ## Outside class bodies -/

/-- What a use outside class bodies has been given as its place. -/
def OpenPlaced (chain : Chain) (globals : List Text) (place : Option Location) : Use → Prop
  | .read _ word =>
    match chain.find? word.text with
    | some p => place = some (.lexical p.1 p.2)
    | none => GlobalPlace globals chain.length word.text place
  | .assign _ word =>
    match chain with
    | [] => ∃ slot, place = some (.lexical 0 slot) ∧ globals.idxOf? word.text = some slot
    | _ => ∃ p, chain.find? word.text = some p ∧ place = some (.lexical p.1 p.2)
  | .definition .. | .classDefinition .. => True

theorem OpenPlaced.later (h : OpenPlaced chain globals place u) (hle : globals <+: globals') :
    OpenPlaced chain globals' place u := by
  cases u with
  | read site word =>
    simp only [OpenPlaced] at h ⊢
    cases hfind : chain.find? word.text with
    | some p => simpa only [hfind] using h
    | none =>
      simp only [hfind] at h ⊢
      exact h.later hle
  | assign site word =>
    cases chain with
    | nil =>
      obtain ⟨slot, hplace, hslot⟩ := h
      exact ⟨slot, hplace, idxOf?_of_isPrefix hle hslot⟩
    | cons params outer => exact h
  | _ => trivial

/-- The globals of a walk may grow by names that no native has. -/
structure GlobalsGrow (globals globals' : List Text) : Prop where
  names : globals <+: globals'
  fresh : ∀ name ∈ globals', name ∈ globals ∨ ¬ Native.IsStandardName name
  nodup : globals.Nodup → globals'.Nodup

namespace GlobalsGrow

theorem refl (globals : List Text) : GlobalsGrow globals globals := ⟨List.prefix_rfl, fun _ h => .inl h, id⟩

theorem trans (h : GlobalsGrow g g') (h' : GlobalsGrow g' g'') :
    GlobalsGrow g g'' := by
  exact ⟨h.names.trans h'.names, fun name hname => (h'.fresh name hname).elim (h.fresh name) .inr,
    fun hnodup => h'.nodup (h.nodup hnodup)⟩

theorem put (globals : List Text) (h : ¬ Native.IsStandardName name) :
    ∃ slot globals', Scope.put name [⟨.globals, globals⟩] = (.lexical 0 slot, [⟨.globals, globals'⟩]) ∧
      globals'.idxOf? name = some slot ∧ GlobalsGrow globals globals' := by
  obtain ⟨slot, more, hput, hslot, hmore, hnodup⟩ := Scope.put_globals globals name
  exact ⟨slot, globals ++ more, hput, hslot, List.prefix_append .., fun other hother =>
    (List.mem_append.mp hother).imp_right fun hnew => hmore other hnew ▸ h, hnodup⟩

end GlobalsGrow

/-- The slots of definitions and what member accesses found are the same. -/
def Notes.SameSlots (notes notes' : Notes) : Prop := notes'.slots = notes.slots ∧ notes'.caches = notes.caches

/-- The walk over conforming code, in step with itself; `before` are the notes at its start. -/
def openPlacing (settings : ResolveSettings) (before : Notes) :
    Lockstep (ScopeActions.resolver settings) (ScopeActions.resolver settings) where
  κ := Chain × List Text
  le k l := l.1 = k.1 ∧ GlobalsGrow k.2 l.2
  refl k := ⟨rfl, .refl k.2⟩
  trans h h' := ⟨h'.1.trans h.1, h.2.trans h'.2⟩
  related k s t := s = t ∧ s.scope = k.1.scope k.2 ∧ before.SameSlots s.notes
  broken _ s t := s = t
  broken_of_related h := h.1
  broken_earlier _ h := h
  Note := Option Location × Option Nat
  note site s _ := (s.notes.places.get? site, s.notes.sizes.get? site)
  ι := Chain
  demand := PlainUse
  inside := OpenInner
  suits j k := k.1 = j
  suits_later h hs := h.1.trans hs
  learned n k l u := l.1 = k.1 ∧ u.isPlain ∧ OpenPlaced k.1 l.2 n.1 u
  learned_wider hk hl h := by
    refine ⟨hl.1.trans (h.1.trans hk.1), h.2.1, ?_⟩
    rw [← hk.1]
    exact h.2.2.later hl.2.names
  learnedInner n k l site params p q :=
    OpenInner k.1 site params p.1 ∧ q.1 = p.1 ∧ q.2 <+: l.2 ∧ n.2 = some params.length
  learnedInner_wider hk hl h := ⟨by rw [← hk.1]; exact h.1, h.2.1, h.2.2.1.trans hl.2.names, h.2.2.2⟩
  entered k site params p := OpenInner k.1 site params p.1 ∧ p.2 = k.2
  broken_outside _ h := h
  no_definition _ _ _ _ _ := by simp [PlainUse, Use.isPlain]
  no_class _ _ _ _ _ := by simp [PlainUse, Use.isPlain]
  read {j k s t} site word h _ := by
    obtain ⟨rfl, hscope, hslots⟩ := h
    obtain ⟨records, hread⟩ := ScopeActions.resolver_read settings site s word
    refine ⟨k, _, _, hread, hread, ⟨rfl, .refl _⟩, ⟨rfl, hscope, hslots⟩, ?_, rfl, rfl, ?_⟩
    · intro other hne
      simp only [SiteMap.get?_put, if_neg hne]
    · simp only [SiteMap.get?_put, if_true, OpenPlaced, hscope, Chain.get?_scope]
      cases k.1.find? word.text with
      | some p => rfl
      | none => exact .of_idxOf? ..
  assign {j k s t} site word h hsuits hdemand := by
    obtain ⟨rfl, hscope, hslots⟩ := h
    obtain ⟨-, hdemand⟩ := hdemand
    obtain ⟨chain, globals⟩ := k
    cases hsuits
    have hassign := ScopeActions.resolver_assign settings site s word
    cases chain with
    | nil =>
      obtain ⟨slot, globals', hput, hslot, hgrow⟩ := GlobalsGrow.put globals hdemand
      have hput : s.scope.put word.text = (.lexical 0 slot, [⟨.globals, globals'⟩]) := by
        rw [hscope]
        exact hput
      rw [hput] at hassign
      refine ⟨([], globals'), _, _, hassign, hassign, ⟨rfl, hgrow⟩, ⟨rfl, rfl, hslots⟩, ?_, rfl, rfl, ?_⟩
      · intro other hne
        simp only [SiteMap.get?_set, if_neg hne]
      · exact ⟨slot, by simp only [SiteMap.get?_set, if_true], hslot⟩
    | cons params outer =>
      obtain ⟨p, hp⟩ := Chain.exists_find? hdemand
      have hput := Chain.put_scope globals hp
      rw [hscope, hput] at hassign
      refine ⟨(params :: outer, globals), _, _, hassign, hassign, ⟨rfl, .refl _⟩, ⟨rfl, rfl, hslots⟩, ?_, rfl,
        rfl, ?_⟩
      · intro other hne
        simp only [SiteMap.get?_set, if_neg hne]
      · exact ⟨p, hp, by simp only [SiteMap.get?_set, if_true]⟩
  enter {j j' k s t} site params h hsuits hinside := by
    obtain ⟨rfl, hscope, hslots⟩ := h
    obtain ⟨hnodup, rfl⟩ := hinside
    have henter := ScopeActions.resolver_enter settings site s [] params
    rw [Table.addAll_of_nodup _ _ (by simpa using hnodup), hscope] at henter
    refine ⟨(params.map Label.text :: k.1, k.2), _, _, henter, henter, ⟨⟨hnodup, rfl⟩, rfl⟩,
      ⟨rfl, rfl, hslots⟩, ?_, fun _ => rfl⟩
    rw [hsuits]
  leave {k p q s t} site params hentered hle h := by
    obtain ⟨rfl, hscope, hslots⟩ := h
    obtain ⟨⟨chain, globals⟩, chain', globals'⟩ := p, q
    obtain ⟨⟨hnodup, rfl⟩, rfl⟩ := hentered
    obtain ⟨rfl, hgrow⟩ := hle
    have hscope : s.scope = ⟨.locals, params.map Label.text⟩ :: k.1.scope globals' := hscope
    have hleave := ScopeActions.resolver_leave settings site s hscope
    refine ⟨(k.1, globals'), _, _, hleave, hleave, ⟨rfl, hgrow⟩, ⟨rfl, rfl, hslots⟩, ?_, ⟨hnodup, rfl⟩, rfl,
      List.prefix_rfl, ?_⟩
    · intro other hne
      simp only [SiteMap.get?_set, if_neg hne]
    · simp only [SiteMap.get?_set, if_true, Table.size, List.length_map]

/-! ## Class bodies -/

/-- The number of scopes that a location hops over. -/
def Location.hops : Location → Nat
  | .lexical nest _ => nest
  | .field _ receiver | .method _ receiver => receiver

/-- The roles of the tables around code in a class: functions, and either a method or the scope of field
initializers. -/
inductive ClassKinds : List TableKind → Prop where
  | initializers : ClassKinds [.receiver, .fields, .methods]
  | method : ClassKinds [.locals, .fields, .methods]
  | closure {kinds : List TableKind} : ClassKinds kinds → ClassKinds (.locals :: kinds)

/-- The number of scopes at run time among tables of such roles. -/
def scopeCount (kinds : List TableKind) : Nat := kinds.countP fun kind => kind != .fields && kind != .methods

theorem depth_eq_scopeCount (inner : Scope) : inner.depth = scopeCount (inner.map Table.kind) := by
  unfold Scope.depth scopeCount
  rw [List.countP_map]
  refine List.countP_congr fun t _ => ?_
  simp [Table.isMembers]

namespace ClassKinds

variable {inner : Scope}

section
variable (h : ClassKinds (inner.map Table.kind))

include h

theorem isInner : inner.IsInner := by
  have hkinds : ∀ kinds, ClassKinds kinds → ∀ kind ∈ kinds, kind ≠ TableKind.globals := by
    intro kinds h
    induction h with
    | initializers => decide
    | method => decide
    | closure _ ih =>
      exact List.forall_mem_cons.mpr ⟨by decide, ih⟩
  exact fun t ht => hkinds _ h t.kind (List.mem_map_of_mem ht)

theorem takes : inner.Takes := by
  generalize hkinds : inner.map Table.kind = kinds at h
  cases h with
  | initializers =>
    simp only [List.map_eq_cons_iff, List.map_eq_nil_iff] at hkinds
    obtain ⟨t, _, rfl, ht, f, _, rfl, hf, m, _, rfl, hm, rfl⟩ := hkinds
    exact .inr ⟨ht, f, m, rfl, hf, hm⟩
  | method =>
    match inner, hkinds with
    | t :: outer, hkinds => exact .inl (List.cons.inj hkinds).1
  | closure _ =>
    match inner, hkinds with
    | t :: outer, hkinds => exact .inl (List.cons.inj hkinds).1

theorem not_startsWithMembers : Scope.fromBody.startsWithMembers inner = false := by
  have htakes := h.takes
  cases inner with
  | nil => rfl
  | cons t outer =>
    rcases htakes with hk | ⟨hk, -⟩ <;> simp [Scope.fromBody.startsWithMembers, Table.isMembers, hk]

theorem hops_lt (hfound : Scope.lookup false name inner = some location) :
    location.hops < scopeCount (inner.map Table.kind) := by
  have hreach := Scope.reaches_of_lookup h.isInner hfound
  have hstarts := h.not_startsWithMembers
  rw [← depth_eq_scopeCount]
  cases location <;> simp only [Scope.Reaches, hstarts] at hreach <;> exact hreach

end

end ClassKinds

/-- What a use in a class body has been given as its place, in one mode and in the other. -/
def ClassPlaced (globals globals' : List Text) (depth : Nat) (place place' : Option Location) : Use → Prop
  | .read _ word =>
    (∃ location, place = some location ∧ place' = some location ∧ location.hops < depth) ∨
      (GlobalPlace globals depth word.text place ∧ GlobalPlace globals' depth word.text place')
  | .assign .. => ∃ location, place = some location ∧ place' = some location ∧ location.hops < depth
  | .definition .. | .classDefinition .. => True

theorem ClassPlaced.later
    (h : ClassPlaced globals globals' depth place place' u) (hle : globals <+: after) (hle' : globals' <+: after') :
    ClassPlaced after after' depth place place' u := by
  cases u with
  | read site word =>
    rcases h with h | ⟨h, h'⟩
    · exact .inl h
    · exact .inr ⟨h.later hle, h'.later hle'⟩
  | _ => exact h

/-- Two walks over the same code of a class, against different globals; `before` and `before'` are the
notes at their start. -/
def classPlacing (settings : ResolveSettings) (globals globals' : List Text) (before before' : Notes) :
    Lockstep (ScopeActions.resolver settings) (ScopeActions.resolver settings) where
  κ := List TableKind
  le k l := l = k
  refl _ := rfl
  trans h h' := h'.trans h
  related k s t := (∃ inner : Scope, inner.map Table.kind = k ∧
    s.scope = inner ++ [⟨.globals, globals⟩] ∧ t.scope = inner ++ [⟨.globals, globals'⟩]) ∧
    before.SameSlots s.notes ∧ before'.SameSlots t.notes
  broken _ s t := before.SameSlots s.notes ∧ before'.SameSlots t.notes
  broken_of_related h := h.2
  broken_earlier _ h := h
  Note := (Option Location × Option Location) × (Option Nat × Option Nat)
  note site s t := ((s.notes.places.get? site, t.notes.places.get? site),
    (s.notes.sizes.get? site, t.notes.sizes.get? site))
  ι := Unit
  demand _ u := u.isPlain
  inside _ _ _ _ := True
  suits _ k := ClassKinds k
  suits_later h hs := h ▸ hs
  learned n k l u := l = k ∧ u.isPlain ∧ ClassPlaced globals globals' (scopeCount k) n.1.1 n.1.2 u
  learned_wider := by
    rintro n k _ l _ u rfl rfl h
    exact h
  learnedInner n k _ _ _ p q := p = .locals :: k ∧ q = p ∧ ∃ size, n.2.1 = some size ∧ n.2.2 = some size
  learnedInner_wider := by
    rintro n k _ l _ site params p q rfl rfl h
    exact h
  entered k _ _ p := p = .locals :: k
  broken_outside _ h := h
  no_definition _ _ _ _ _ := by simp [Use.isPlain]
  no_class _ _ _ _ _ := by simp [Use.isPlain]
  read {j k s t} site word h hkinds := by
    obtain ⟨⟨inner, rfl, hs, ht⟩, hslots⟩ := h
    obtain ⟨records, hread⟩ := ScopeActions.resolver_read settings site s word
    obtain ⟨records', hread'⟩ := ScopeActions.resolver_read settings site t word
    refine ⟨_, _, _, hread, hread', rfl, ⟨⟨inner, rfl, hs, ht⟩, hslots⟩, ?_, rfl, rfl, ?_⟩
    · intro other hne
      simp only [SiteMap.get?_put, if_neg hne]
    · simp only [SiteMap.get?_put, if_true, ClassPlaced, hs, ht, Scope.get?,
        Scope.lookup_globals hkinds.isInner]
      cases hfound : Scope.lookup false word.text inner with
      | some location => exact .inl ⟨location, rfl, rfl, hkinds.hops_lt hfound⟩
      | none =>
        rw [depth_eq_scopeCount]
        exact .inr ⟨.of_idxOf? .., .of_idxOf? ..⟩
  assign {j k s t} site word h hkinds _ := by
    obtain ⟨⟨inner, rfl, hs, ht⟩, hslots⟩ := h
    obtain ⟨hgrows, hfound⟩ := Scope.put_spec hkinds.takes word.text
    have hassign := ScopeActions.resolver_assign settings site s word
    have hassign' := ScopeActions.resolver_assign settings site t word
    rw [hs, Scope.put_inner hkinds.isInner hkinds.takes] at hassign
    rw [ht, Scope.put_inner hkinds.isInner hkinds.takes] at hassign'
    have hkept := hgrows.kinds
    refine ⟨_, _, _, hassign, hassign', rfl, ⟨⟨_, hkept, rfl, rfl⟩, hslots⟩, ?_, rfl, rfl, ?_⟩
    · intro other hne
      simp only [SiteMap.get?_set, if_neg hne]
    · refine ⟨_, by simp only [SiteMap.get?_set, if_true]; rfl,
        by simp only [SiteMap.get?_set, if_true], ?_⟩
      rw [← hkept]
      exact (hkept ▸ hkinds : ClassKinds _).hops_lt hfound
  enter {j j' k s t} site params h hkinds _ := by
    obtain ⟨⟨inner, rfl, hs, ht⟩, hslots⟩ := h
    have henter := ScopeActions.resolver_enter settings site s [] params
    have henter' := ScopeActions.resolver_enter settings site t [] params
    rw [hs] at henter
    rw [ht] at henter'
    refine ⟨_, _, _, henter, henter', rfl, ⟨⟨_ :: inner, ?_, rfl, rfl⟩, hslots⟩, .closure hkinds,
      fun _ => rfl⟩
    rw [List.map_cons, (Table.addAll_grows rfl _).kind]
  leave {k p q s t} site params hentered hle h := by
    subst hentered
    subst hle
    obtain ⟨⟨inner, hinner, hs, ht⟩, hslots⟩ := h
    match inner, hinner with
    | table :: outer, hinner =>
      have houter := (List.cons.inj hinner).2
      have hleave := ScopeActions.resolver_leave settings site s hs
      have hleave' := ScopeActions.resolver_leave settings site t ht
      refine ⟨k, _, _, hleave, hleave', rfl, ⟨⟨outer, houter, rfl, rfl⟩, hslots⟩, ?_, rfl, rfl,
        table.size, ?_, ?_⟩
      · intro other hne
        simp only [SiteMap.get?_set, if_neg hne]
      · simp only [SiteMap.get?_set, if_true]
      · simp only [SiteMap.get?_set, if_true]

end StoneLang
