/-
  Laying out a class on top of another.

  PROGRAM: `layOutClass`, which lists the methods of a class body, then visits its field initializers and its methods.

  SPEC: the members of the superclass keep their slots (`extends_layOutClass`), and each method has one definition: the
  last one in the body, or that of the superclass (`definition?_layOutClass`).

  The fields of the class are the names in the table of fields when all has been visited.  So it is shown first that a
  walk through any tree leaves every table in its place and with its names (`Resolve.Widens`).
-/
import StoneLang.Proofs.Addresses.Placing
import StoneLang.Proofs.Scope.Assigning
import StoneLang.Proofs.Scope.Walk

namespace StoneLang

/-! ## Scopes that get wider -/

/-- The table has its role and its names, and maybe more after them. -/
def Table.Wider (t t' : Table) : Prop := t'.kind = t.kind ∧ t.names <+: t'.names

theorem Table.Wider.refl (t : Table) : t.Wider t := ⟨rfl, List.prefix_rfl⟩

theorem Table.Wider.trans {t t' t'' : Table} (h : t.Wider t') (h' : t'.Wider t'') : t.Wider t'' :=
  ⟨h'.1.trans h.1, h.2.trans h'.2⟩

theorem Table.wider_add (t : Table) (name : Text) : t.Wider (t.add name).2 := by
  unfold add
  cases t.find? name with
  | some slot => exact .refl t
  | none => exact ⟨rfl, List.prefix_append ..⟩

/-- Every table of a scope is there, and maybe wider. -/
abbrev Scope.Wider (s s' : Scope) : Prop := List.Forall₂ Table.Wider s s'

theorem Scope.Wider.refl (s : Scope) : s.Wider s := List.forall₂_same.mpr fun t _ => .refl t

theorem Scope.Wider.trans {s s' s'' : Scope} (h : s.Wider s') (h' : s'.Wider s'') : s.Wider s'' := by
  induction h generalizing s'' with
  | nil => exact h'
  | cons hhead _ ih =>
    cases h' with
    | cons hhead' htail' => exact .cons (hhead.trans hhead') (ih htail')

theorem Scope.wider_put (name : Text) (s : Scope) : s.Wider (s.put name).2 := by
  refine (declares_put name s).imp ?_
  rintro t t' (rfl | rfl)
  · exact .refl t'
  · exact t.wider_add name

/-! ## Walks -/

def Resolve.KeepsSizes {α : Type} (x : Resolve α) : Prop :=
  ∀ s (site : Nat), (s.notes.sizes.get? site).isSome → ((finalState (x s)).notes.sizes.get? site).isSome

/-- A walk that succeeds leaves the tables in their places. -/
def Resolve.Widens {α : Type} (x : Resolve α) : Prop := ∀ s a s', x s = .ok a s' → s.scope.Wider s'.scope

namespace Resolve

variable {α β : Type}

variable {x : Resolve α} {f : α → Resolve β}

theorem KeepsSizes.bind (hx : KeepsSizes x) (hf : ∀ a, KeepsSizes (f a)) : KeepsSizes (x >>= f) := by
  intro s site hsite
  have hfirst := hx s site hsite
  rw [bind_apply]
  generalize x s = res at hfirst ⊢
  cases res with
  | error e s' => exact hfirst
  | ok a s' => exact hf a s' site hfirst

theorem keepsSizes_of_eq (h : ∀ s, (finalState (x s)).notes.sizes = s.notes.sizes) : KeepsSizes x := by
  intro s site hsite
  rw [h]
  exact hsite

theorem keepsSizes_leave : KeepsSizes leave := by
  refine keepsSizes_of_eq fun s => ?_
  obtain ⟨size, hout⟩ := leave_eq s
  rw [hout]
  rfl

theorem keepsSizes_enter (t : Table) : KeepsSizes (enter t) := keepsSizes_of_eq fun _ => rfl

theorem keepsSizes_noteSize (site : Site) (size : Nat) : KeepsSizes (noteSize site size) := by
  intro s other hother
  show ((s.notes.sizes.set site size).get? other).isSome
  rw [SiteMap.get?_set]
  split
  · rfl
  · exact hother

theorem keepsSizes_steps : Paired fun _ x _ => KeepsSizes x where
  pure _ := keepsSizes_of_eq fun _ => rfl
  bind := .bind
  note _ _ _ := keepsSizes_of_eq fun s => (by
    show (if _ then _ else s : Resolving).notes.sizes = _
    split <;> rfl)
  get? _ := keepsSizes_of_eq fun _ => rfl
  put _ := keepsSizes_of_eq fun _ => rfl
  place _ _ := keepsSizes_of_eq fun _ => rfl
  unplace _ := keepsSizes_of_eq fun _ => rfl
  noteSlot _ _ := keepsSizes_of_eq fun _ => rfl
  noteSize := keepsSizes_noteSize
  function hvisit _ _ _ := (keepsSizes_enter _).bind fun _ => (hvisit _).bind fun _ => keepsSizes_leave

theorem keepsSizes_visitWithin (settings : ResolveSettings) (levels : Nat) (node : Node) :
    KeepsSizes (visitWithin settings levels node) :=
  keepsSizes_steps.visitWithin settings settings 0 (fun _ => keepsSizes_of_eq fun _ => rfl) levels node

theorem keepsSizes_layOutClass (settings : ResolveSettings) (title : Text) (members : List Node) (base : Layout) :
    KeepsSizes (layOutClass settings title members base) :=
  keepsSizes_steps.layOutClass settings settings (keepsSizes_visitWithin settings settings.maxDepth) keepsSizes_enter
    keepsSizes_leave (fun hf => KeepsSizes.bind (keepsSizes_of_eq fun _ => rfl) fun s => hf s s rfl) title members base

theorem Widens.bind (hx : Widens x) (hf : ∀ a, Widens (f a)) : Widens (x >>= f) := by
  intro s b s' h
  obtain ⟨a, s₁, hfirst, hrest⟩ := bind_eq_ok.mp h
  exact (hx s a s₁ hfirst).trans (hf a s₁ b s' hrest)

theorem widens_modifyGet {f : Resolving → α × Resolving} (hscope : ∀ s : Resolving, s.scope.Wider (f s).2.scope) :
    Widens (modifyGet f : Resolve α) := by
  intro s a s' h
  cases h
  exact hscope s

theorem Widens.inside {x : Resolve Unit} (hx : Widens x) (t : Table) : Widens (do enter t; x; leave : Resolve Nat) := by
  intro s size s' h
  obtain ⟨_, s₁, henter, hrest⟩ := bind_eq_ok.mp h
  obtain ⟨_, s₂, hvisit, hleave⟩ := bind_eq_ok.mp hrest
  cases henter
  have hwider := hx _ _ _ hvisit
  obtain ⟨size', hout⟩ := leave_eq s₂
  rw [hout] at hleave
  cases hleave
  show s.scope.Wider s₂.scope.tail
  change Scope.Wider (t :: s.scope) s₂.scope at hwider
  generalize s₂.scope = inner at hwider
  cases hwider with
  | cons _ htail => exact htail

theorem widens_steps : Paired fun _ x _ => Widens x where
  pure _ s a s' h := (by
    cases h
    exact Scope.Wider.refl _)
  bind := .bind
  note _ _ _ := widens_modifyGet fun s => (by
    dsimp only
    split <;> exact Scope.Wider.refl _)
  get? _ s a s' h := (by
    cases h
    exact Scope.Wider.refl _)
  put name := widens_modifyGet fun s => s.scope.wider_put name
  place _ _ := widens_modifyGet fun s => Scope.Wider.refl s.scope
  unplace _ := widens_modifyGet fun s => Scope.Wider.refl s.scope
  noteSlot _ _ := widens_modifyGet fun s => Scope.Wider.refl s.scope
  noteSize _ _ := widens_modifyGet fun s => Scope.Wider.refl s.scope
  function hvisit _ _ _ := (hvisit _).inside _

theorem widens_visit (settings : ResolveSettings) (node : Node) : Widens (visit settings node) :=
  widens_steps.visitWithin settings settings 0 (fun _ _ _ _ h => by cases h) settings.maxDepth node

theorem sizes_visitMethods (settings : ResolveSettings)
    (h : visitMethods settings members s = .ok () s') {d : Definition} (hd : d.toNode ∈ members) :
    (s'.notes.sizes.get? d.site).isSome := by
  induction members generalizing s with
  | nil => cases hd
  | cons member rest ih =>
    unfold visitMethods at h
    rcases List.mem_cons.mp hd with rfl | hd
    · -- its size is noted, and what is visited after it takes no size back
      obtain ⟨size, s₁, -, hrest⟩ := bind_eq_ok.mp h
      obtain ⟨_, s₂, hsize, hrest⟩ := bind_eq_ok.mp hrest
      have hrest : visitMethods settings rest s₂ = .ok () s' := hrest
      have hlater := keepsSizes_steps.visitMethods settings settings (keepsSizes_visitWithin settings _) rest s₂ d.site
      rw [hrest] at hlater
      cases hsize
      exact hlater (by simp)
    · generalize Definition.ofNode? member = res at h ⊢
      cases res with
      | none => exact ih h hd
      | some e =>
        obtain ⟨size, s₁, -, hrest⟩ := bind_eq_ok.mp h
        obtain ⟨_, s₂, -, hrest⟩ := bind_eq_ok.mp hrest
        exact ih hrest hd

end Resolve

/-! ## Definitions -/

def definitionsIn (members : List Node) : List Definition := members.filterMap Definition.ofNode?

/-- The last definition of a name in a class body. -/
def lastDefinition? (members : List Node) (name : Text) : Option Definition :=
  (definitionsIn members).reverse.find? fun d => d.name == name

theorem lastDefinition?_cons (member : Node) (rest : List Node) (name : Text) :
    lastDefinition? (member :: rest) name
      = (lastDefinition? rest name).or ((Definition.ofNode? member).filter fun d => d.name == name) := by
  unfold lastDefinition? definitionsIn
  rw [List.filterMap_cons]
  cases Definition.ofNode? member with
  | none => simp
  | some d => simp [List.find?_append, Option.filter]

namespace Layout

def definition? (l : Layout) (name : Text) : Option Definition := (l.methods.idxOf? name).bind (l.definitions[·]?)

/-- Methods have different names and one definition each. -/
structure Sound (l : Layout) : Prop where
  full : l.Full
  nodup : l.methods.Nodup

theorem sound_empty : empty.Sound := ⟨rfl, List.nodup_nil⟩

theorem Sound.definition?_isSome {l : Layout} (h : l.Sound) (name : Text) :
    (l.definition? name).isSome ↔ name ∈ l.methods := by
  unfold definition?
  cases hslot : l.methods.idxOf? name with
  | none => simpa using List.idxOf?_eq_none_iff.mp hslot
  | some slot =>
    have hlt : slot < l.definitions.length := by
      rw [h.full]
      exact lt_of_idxOf? hslot
    simp [hlt, List.mem_of_getElem? (getElem?_of_idxOf? hslot)]

theorem Sound.definition?_of_slot {l : Layout} (h : l.Sound) {slot : Nat}
    (hslot : l.methods[slot]? = some name) : l.definition? name = l.definitions[slot]? := by
  have hfound : l.methods.idxOf? name = some slot := by
    obtain ⟨other, hother⟩ := exists_idxOf? (List.mem_of_getElem? hslot)
    have hsame : l.methods[other]? = l.methods[slot]? := (getElem?_of_idxOf? hother).trans hslot.symm
    rw [hother, (List.getElem?_inj (lt_of_idxOf? hother) h.nodup).mp hsame]
  unfold definition?
  rw [hfound]
  rfl

theorem Sound.addMethod {l : Layout} (h : l.Sound) (d : Definition) :
    (l.addMethod d).2.Sound ∧
      ∀ name, (l.addMethod d).2.definition? name = if name = d.name then some d else l.definition? name := by
  have hfull := h.full
  unfold Full at hfull
  unfold Layout.addMethod Table.add Table.find?
  dsimp only
  cases hslot : l.methods.idxOf? d.name with
  | some slot =>
    -- it is defined again, in its old slot
    have hlt : slot < l.definitions.length := by
      rw [hfull]
      exact lt_of_idxOf? hslot
    simp only [define, if_pos hlt]
    refine ⟨⟨by simpa [Full] using hfull, h.nodup⟩, fun name => ?_⟩
    unfold definition?
    by_cases hname : name = d.name
    · subst hname
      simp [hslot, hlt]
    · rw [if_neg hname]
      cases hother : l.methods.idxOf? name with
      | none => rfl
      | some other =>
        have hne : slot ≠ other := by
          rintro rfl
          exact hname (idxOf?_inj hother hslot)
        simp [List.getElem?_set_ne hne]
  | none =>
    -- it gets the first free slot
    have hnew : d.name ∉ l.methods := List.idxOf?_eq_none_iff.mp hslot
    have hnot : ¬ l.methods.length < l.definitions.length := by omega
    simp only [define, if_neg hnot]
    refine ⟨⟨by simp [Full, hfull], ?_⟩, fun name => ?_⟩
    · exact List.nodup_append.mpr ⟨h.nodup, by simp, fun a ha b hb heq => hnew (by simp_all)⟩
    · unfold definition?
      by_cases hname : name = d.name
      · subst hname
        rw [if_pos rfl, idxOf?_concat_of_notMem hnew]
        simp [← hfull]
      · rw [if_neg hname]
        cases hother : l.methods.idxOf? name with
        | none =>
          have hmem : name ∉ l.methods ++ [d.name] := by simpa [hname] using List.idxOf?_eq_none_iff.mp hother
          rw [List.idxOf?_eq_none_iff.mpr hmem]
          rfl
        | some other =>
          have hlt : other < l.definitions.length := by
            rw [hfull]
            exact lt_of_idxOf? hother
          rw [idxOf?_of_isPrefix (List.prefix_append ..) hother]
          simp [List.getElem?_append_left hlt]

end Layout

variable {members : List Node} {base layout : Layout} {s s' : Resolving}

/-- When the methods of a body have their slots, a name has the last definition in the body, or the one it had. -/
theorem definition?_layOutMethods (hbase : base.Sound) (h : layOutMethods members base s = .ok layout s') :
    layout.Sound ∧ ∀ name, layout.definition? name = (lastDefinition? members name).or (base.definition? name) := by
  induction members generalizing base s with
  | nil =>
    cases h
    exact ⟨hbase, fun name => rfl⟩
  | cons member rest ih =>
    cases hd : Definition.ofNode? member with
    | none =>
      simp only [layOutMethods, hd] at h
      obtain ⟨hsound, hdefinitions⟩ := ih hbase h
      refine ⟨hsound, fun name => ?_⟩
      rw [hdefinitions, lastDefinition?_cons, hd]
      simp
    | some d =>
      simp only [layOutMethods, hd] at h
      obtain ⟨_, t, -, hrest⟩ := bind_eq_ok.mp h
      obtain ⟨hadded, hother⟩ := hbase.addMethod d
      obtain ⟨hsound, hdefinitions⟩ := ih hadded hrest
      refine ⟨hsound, fun name => ?_⟩
      rw [hdefinitions, hother, lastDefinition?_cons, hd, Option.or_assoc, Option.filter_some]
      by_cases hname : name = d.name
      · rw [if_pos hname, if_pos (by simp [hname]), Option.some_or]
      · rw [if_neg hname, if_neg (by simpa using Ne.symm hname), Option.none_or]

/-! ## Classes -/

theorem layOutClass_inv (h : layOutClass settings title members base s = .ok layout s') :
    ∃ laid s₁ s₂ s₃, layOutMethods members base s = .ok laid s₁ ∧
      visitInitializers settings members (s₁.inClass laid) = .ok () s₂ ∧
      visitMethods settings members s₂.outside = .ok () s₃ ∧
      layout = { laid with fields := s₃.scope.innermostNames } ∧ s'.notes = s₃.notes := by
  obtain ⟨laid, -, hlay⟩ := layOutMethods_eq members base
  obtain ⟨slots, h₁, -⟩ := hlay s
  cases h₂ : visitInitializers settings members (Resolving.inClass { s with notes := { s.notes with slots } } laid) with
  | error e s₂ =>
    rw [layOutClass_error_initializers h₁ h₂] at h
    cases h
  | ok _ s₂ =>
    cases h₃ : visitMethods settings members s₂.outside with
    | error e s₃ =>
      rw [layOutClass_error_methods h₁ h₂ h₃] at h
      cases h
    | ok _ s₃ =>
      obtain ⟨records, hok⟩ := layOutClass_ok title h₁ h₂ h₃
      rw [hok] at h
      cases h
      exact ⟨laid, _, s₂, s₃, h₁, h₂, h₃, rfl, rfl⟩

section
variable {settings : ResolveSettings} {title : Text} {members : List Node} {base layout : Layout} {s s' : Resolving}

theorem extends_layOutClass (h : layOutClass settings title members base s = .ok layout s') : layout.Extends base := by
  obtain ⟨laid, s₁, s₂, s₃, h₁, h₂, h₃, rfl, -⟩ := layOutClass_inv h
  obtain ⟨hfields, hmethods, -⟩ := layOutMethods_spec h₁
  refine ⟨?_, hmethods⟩
  have hinitializers := Resolve.widens_steps.visitInitializers settings settings (Resolve.widens_visit settings) members _ _ _ h₂
  have hbodies := Resolve.widens_steps.visitMethods settings settings (Resolve.widens_visit settings) members _ _ _ h₃
  -- the table of fields is the second one at first, and the first one when the receiver's has been left
  show base.fields <+: s₃.scope.innermostNames
  unfold Resolving.inClass at hinitializers
  unfold Resolving.outside at hbodies
  generalize s₂.scope = scope₂ at hinitializers hbodies
  generalize s₃.scope = scope₃ at hbodies
  cases hinitializers with
  | cons _ htail =>
    cases htail with
    | cons hfirst _ =>
      cases hbodies with
      | cons hsecond _ =>
        rw [← hfields]
        exact hfirst.2.trans hsecond.2

theorem definition?_layOutClass (hbase : base.Sound) (h : layOutClass settings title members base s = .ok layout s') :
    layout.Sound ∧ ∀ name, layout.definition? name = (lastDefinition? members name).or (base.definition? name) := by
  obtain ⟨laid, s₁, s₂, s₃, h₁, -, -, rfl, -⟩ := layOutClass_inv h
  obtain ⟨hsound, hdefinitions⟩ := definition?_layOutMethods hbase h₁
  exact ⟨⟨hsound.full, hsound.nodup⟩, hdefinitions⟩

theorem sized_layOutClass (h : layOutClass settings title members base s = .ok layout s') {d : Definition}
    (hd : d.toNode ∈ members) : (s'.notes.sizes.get? d.site).isSome := by
  obtain ⟨laid, s₁, s₂, s₃, -, -, h₃, -, hnotes⟩ := layOutClass_inv h
  rw [hnotes]
  exact Resolve.sizes_visitMethods settings h₃ hd

theorem definitions_layOutClass (h : layOutClass settings title members base s = .ok layout s') :
    ∀ d ∈ layout.definitions, d ∈ base.definitions ∨ d.toNode ∈ members := by
  obtain ⟨laid, s₁, s₂, s₃, h₁, -, -, rfl, -⟩ := layOutClass_inv h
  obtain ⟨laid', hfrom, hlay⟩ := layOutMethods_eq members base
  obtain ⟨slots, hlaid, -⟩ := hlay s
  rw [hlaid] at h₁
  cases h₁
  exact hfrom

end

end StoneLang
