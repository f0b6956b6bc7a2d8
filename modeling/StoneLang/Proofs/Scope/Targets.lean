/-
  The global names that a unit declares.

  PROGRAM: `resolve` walks a unit against the global names, and `resolveClass` a class body.

  SPEC: a unit adds its targets (`Node.targets`): what it assigns outside every function and class, the right side of an
  assignment first, and the name of a definition.  They come after the old names, each new one once; if the walk runs out
  of levels, those it came to have been added.  A class body adds none (`resolve_adds_targets`).

  Inside a function or a class the walk declares names in the tables there, and leaves the global one alone
  (`Resolve.Inner`).  So at the global level what is added can be read off the tree (`Resolve.Adds`).
-/
import StoneLang.Proofs.Scope.Assigning
import StoneLang.Proofs.Scope.Members

namespace StoneLang

theorem Table.addAll_append (t : Table) (names more : List Text) : t.addAll (names ++ more) = (t.addAll names).addAll more :=
  List.foldl_append

/-- Names that are declared one after the other come after the old ones, each new one once. -/
theorem Table.addAll_names (t : Table) (names : List Text) :
    t.addAll names = { t with names := t.names ++ (names.filter (· ∉ t.names)).eraseDups } := by
  induction names generalizing t with
  | nil => simp [addAll]
  | cons name rest ih =>
    show addAll (t.add name).2 rest = _
    rw [ih]
    unfold add
    cases hslot : t.find? name with
    | some slot =>
      have hold : name ∈ t.names := List.mem_of_getElem? (getElem?_of_idxOf? hslot)
      simp [hold]
    | none =>
      have hnew : name ∉ t.names := List.idxOf?_eq_none_iff.mp hslot
      simp [hnew, List.eraseDups_cons, List.filter_filter, beq_eq_decide, Bool.and_comm]

/-! ## Inside a function or a class -/

namespace Scope

/-- Assignments are made in a table that has another one around it. -/
def Encloses : List TableKind → Prop
  | .receiver :: outer => Encloses outer
  | .globals :: _ | [] => False
  | _ :: outer => outer ≠ []

/-- The tables have their roles, and the outermost one its names. -/
def Spared (s s' : Scope) : Prop := s'.map Table.kind = s.map Table.kind ∧ s'.getLast? = s.getLast?

theorem Spared.tail {t : Table} {s s' : Scope} (h : Spared (t :: s) s') (hs : s ≠ []) : s.Spared s'.tail := by
  obtain ⟨hkinds, hlast⟩ := h
  cases s' with
  | nil => cases hkinds
  | cons t' outer =>
    simp only [List.map_cons, List.cons.injEq] at hkinds
    refine ⟨hkinds.2, ?_⟩
    have houter : outer ≠ [] := by
      rintro rfl
      simp [hs] at hkinds
    obtain ⟨u, rest, rfl⟩ := List.exists_cons_of_ne_nil hs
    obtain ⟨u', rest', rfl⟩ := List.exists_cons_of_ne_nil houter
    simpa using hlast

theorem spared_put {s : Scope} (h : Encloses (s.map Table.kind)) (name : Text) : s.Spared (s.put name).2 := by
  induction s with
  | nil => exact h.elim
  | cons t outer ih =>
    have hdeclare : outer ≠ [] → Spared (t :: outer) (declare t outer name).2 := by
      intro houter
      obtain ⟨u, rest, rfl⟩ := List.exists_cons_of_ne_nil houter
      exact ⟨by simp [declare, t.kind_add name], by simp [declare]⟩
    unfold put
    cases hk : t.kind with
    | globals => simp [Encloses, hk] at h
    | receiver =>
      dsimp only
      split
      · exact ⟨rfl, rfl⟩
      · obtain ⟨hkinds, hlast⟩ := ih (by simpa [Encloses, hk] using h)
        exact ⟨by simp [hkinds], by simp [List.getLast?_cons, hlast]⟩
    | locals | fields | methods =>
      dsimp only
      split
      · exact ⟨rfl, rfl⟩
      · exact hdeclare (by simpa [Encloses, hk] using h)

end Scope

namespace Resolve

variable {α β : Type} {x : Resolve α} {f : α → Resolve β}

/-- How a walk ends that spares the globals: if it fails, tables may be left inside. -/
def Spares (s : Scope) : EStateM.Result Failure Resolving α → Prop
  | .ok _ s' => s.Spared s'.scope
  | .error _ s' => s'.scope.getLast? = s.getLast?

def Inner (x : Resolve α) : Prop := ∀ s, Scope.Encloses (s.scope.map Table.kind) → Spares s.scope (x s)

theorem Spares.getLast? (h : Spares s result) :
    (finalState result).scope.getLast? = s.getLast? := by
  cases result with
  | ok a s' => exact h.2
  | error e s' => exact h

theorem Inner.bind (hx : Inner x) (hf : ∀ a, Inner (f a)) : Inner (x >>= f) := by
  intro s hs
  have hfirst := hx s hs
  rw [bind_apply]
  generalize x s = res at hfirst ⊢
  cases res with
  | error e s' => exact hfirst
  | ok a s' =>
    have hrest := hf a s' (hfirst.1 ▸ hs)
    dsimp only
    generalize f a s' = res at hrest ⊢
    cases res with
    | ok b s'' => exact ⟨hrest.1.trans hfirst.1, hrest.2.trans hfirst.2⟩
    | error e s'' => exact hrest.trans hfirst.2

theorem spares_function {visit : Node → Resolve Unit} (hvisit : ∀ node, Inner (visit node)) (first : List Text)
    (params : List Label) (body : List Node) {s : Resolving} (hs : s.scope ≠ []) :
    Spares s.scope (visitFunction visit first params body s) := by
  let t := Table.addAll ⟨.locals, first⟩ (params.map Label.text)
  let entered : Resolving := { s with scope := t :: s.scope }
  have hkind : t.kind = .locals := (Table.addAll_grows rfl _).kind
  have hbody := hvisit (.block body) entered (by simp [entered, Scope.Encloses, hkind, hs])
  have hsteps : visitFunction visit first params body s = (visit (.block body) >>= fun _ => leave) entered := rfl
  rw [hsteps, bind_apply]
  generalize visit (.block body) entered = res at hbody ⊢
  cases res with
  | error e s' =>
    obtain ⟨u, rest, hscope⟩ := List.exists_cons_of_ne_nil hs
    exact Eq.trans hbody (by simp [entered, hscope])
  | ok a s' =>
    obtain ⟨size, hleave⟩ := leave_eq s'
    show Spares s.scope (leave s')
    rw [hleave]
    exact Scope.Spared.tail hbody hs

/-! ## At the global level -/

/-- How a walk at the global level ends that declares names: if it fails, it has declared the first of them. -/
def Declared (t : Table) (names : List Text) : EStateM.Result Failure Resolving α → Prop
  | .ok _ s => s.scope = [t.addAll names]
  | .error _ s => ∃ seen, seen <+: names ∧ s.scope.getLast? = some (t.addAll seen)

def Adds (names : List Text) (x : Resolve α) : Prop :=
  ∀ (s : Resolving) (t : Table), t.kind = .globals → s.scope = [t] → Declared t names (x s)

theorem Adds.bind (hx : Adds names x) (hf : ∀ a, Adds more (f a)) : Adds (names ++ more) (x >>= f) := by
  intro s t hkind hs
  have hfirst := hx s t hkind hs
  rw [bind_apply]
  generalize x s = res at hfirst ⊢
  cases res with
  | error e s' =>
    obtain ⟨seen, hseen, hscope⟩ := hfirst
    exact ⟨seen, hseen.trans (List.prefix_append names more), hscope⟩
  | ok a s' =>
    have hrest := hf a s' (t.addAll names) (by rw [Table.addAll_names, hkind]) hfirst
    dsimp only
    generalize f a s' = res at hrest ⊢
    cases res with
    | ok b s'' => exact hrest.trans (by rw [Table.addAll_append])
    | error e s'' =>
      obtain ⟨seen, hseen, hscope⟩ := hrest
      exact ⟨names ++ seen, (List.prefix_append_right_inj names).mpr hseen, by rw [hscope, Table.addAll_append]⟩

theorem adds_of_spares (h : ∀ s, s.scope ≠ [] → Spares s.scope (x s)) : Adds [] x := by
  intro s t hkind hs
  have hspares := h s (by simp [hs])
  rw [hs] at hspares
  generalize x s = res at hspares ⊢
  cases res with
  | ok a s' =>
    obtain ⟨hkinds, hlast⟩ := hspares
    obtain ⟨u, hu⟩ := List.length_eq_one_iff.mp (by simpa using congrArg List.length hkinds)
    rw [hu] at hlast
    exact hu.trans (congrArg (fun t => [t]) (Option.some.inj hlast))
  | error e s' => exact ⟨[], List.nil_prefix, hspares⟩

theorem targets_of_scope (h : ∀ s, ∃ a s', x s = .ok a s' ∧ s'.scope = s.scope) : Inner x ∧ Adds [] x := by
  have hspares : ∀ s, Spares s.scope (x s) := by
    intro s
    obtain ⟨a, s', hx, hscope⟩ := h s
    rw [hx, Spares, hscope]
    exact ⟨rfl, rfl⟩
  exact ⟨fun s _ => hspares s, adds_of_spares fun s _ => hspares s⟩

theorem adds_put (name : Text) : Adds [name] (put name) := by
  rintro s ⟨kind, names⟩ rfl hs
  exact congrArg (fun scope => (Scope.put name scope).2) hs

theorem targets_steps : Paired fun names x _ => Inner x ∧ Adds names x where
  pure _ := targets_of_scope fun s => ⟨_, s, rfl, rfl⟩
  bind hx hf := ⟨hx.1.bind fun a => (hf a).1, hx.2.bind fun a => (hf a).2⟩
  note settings _ _ := targets_of_scope fun s => ⟨_, _, rfl, by dsimp only; split <;> rfl⟩
  get? _ := targets_of_scope fun s => ⟨_, s, rfl, rfl⟩
  put name := ⟨fun s hs => Scope.spared_put hs name, adds_put name⟩
  place _ _ := targets_of_scope fun s => ⟨_, _, rfl, rfl⟩
  unplace _ := targets_of_scope fun s => ⟨_, _, rfl, rfl⟩
  noteSlot _ _ := targets_of_scope fun s => ⟨_, _, rfl, rfl⟩
  noteSize _ _ := targets_of_scope fun s => ⟨_, _, rfl, rfl⟩
  function hvisit first params body :=
    have hspares := fun s => @spares_function _ (fun node => (hvisit node).1) first params body s
    ⟨fun s hs => hspares s (by rintro hnil; simp [hnil, Scope.Encloses] at hs), adds_of_spares hspares⟩

theorem targets_visitWithin (settings : ResolveSettings) (levels : Nat) (node : Node) :
    Inner (visitWithin settings levels node) ∧ Adds node.targets (visitWithin settings levels node) := by
  refine targets_steps.visitWithin settings settings 0 (fun node => ⟨fun s _ => rfl, fun s t _ hs => ?_⟩) levels node
  exact ⟨[], List.nil_prefix, congrArg List.getLast? hs⟩

/-! ## Classes -/

theorem getLast?_layOutClass (settings : ResolveSettings) (title : Text) (members : List Node) (base : Layout)
    (hs : s.scope ≠ []) :
    (finalState (layOutClass settings title members base s)).scope.getLast? = s.scope.getLast? := by
  have hvisit := targets_visitWithin settings settings.maxDepth
  obtain ⟨layout, -, hmethods⟩ := layOutMethods_eq members base
  obtain ⟨slots, h₁, -⟩ := hmethods s
  obtain ⟨t, outer, hscope⟩ := List.exists_cons_of_ne_nil hs
  have hinit := (targets_steps.visitInitializers settings settings hvisit members).1
    (Resolving.inClass { s with notes := { s.notes with slots } } layout) (by simp [Resolving.inClass, Scope.Encloses,
      Table.ofReceiver])
  cases h₂ : visitInitializers settings members (Resolving.inClass { s with notes := { s.notes with slots } } layout) with
  | error e s₂ =>
    rw [layOutClass_error_initializers h₁ h₂]
    rw [h₂] at hinit
    exact hinit.getLast?.trans (by simp [Resolving.inClass, hscope])
  | ok _ s₂ =>
    rw [h₂] at hinit
    -- inside the fields the methods are visited
    have hleft : Scope.Spared (⟨.fields, layout.fields⟩ :: ⟨.methods, layout.methods⟩ :: s.scope) s₂.outside.scope :=
      Scope.Spared.tail hinit (by simp)
    have hrest := (targets_steps.visitMethods settings settings hvisit members).1 s₂.outside
      (by rw [hleft.1]; simp [Scope.Encloses])
    have hlast : (finalState (visitMethods settings members s₂.outside)).scope.getLast? = s.scope.getLast? :=
      hrest.getLast?.trans (hleft.2.trans (by simp [hscope]))
    cases h₃ : visitMethods settings members s₂.outside with
    | error e s₃ =>
      rw [layOutClass_error_methods h₁ h₂ h₃]
      rw [h₃] at hlast
      exact hlast
    | ok _ s₃ =>
      obtain ⟨records, hclass⟩ := layOutClass_ok title h₁ h₂ h₃
      rw [hclass]
      rw [h₃] at hlast
      exact hlast

end Resolve

/-- The global names after a unit has been walked are the old ones and then its targets, each new one once, or the first
of them if the walk fails; a class body adds none, however the walk ends. -/
theorem resolve_adds_targets (settings : ResolveSettings) (unit : Node) (globals : List Text) (notes : Notes) :
    (match resolve settings unit globals notes with
      | .ok _ s => s.scope = [⟨.globals, globals ++ (unit.targets.filter (· ∉ globals)).eraseDups⟩]
      | .error _ s => ∃ added, added <+: (unit.targets.filter (· ∉ globals)).eraseDups ∧
          s.scope.outermostNames = globals ++ added) ∧
    ∀ (title : Text) (members : List Node) (base : Option Layout),
      (finalState (resolveClass settings title members base globals notes)).scope.outermostNames = globals := by
  constructor
  · have hadds := (Resolve.targets_visitWithin settings settings.maxDepth unit).2 ⟨[⟨.globals, globals⟩], notes, #[]⟩ _ rfl rfl
    unfold resolve visit
    generalize visitWithin settings settings.maxDepth unit ⟨[⟨.globals, globals⟩], notes, #[]⟩ = res at hadds ⊢
    cases res with
    | ok _ s => exact hadds.trans (by rw [Table.addAll_names])
    | error e s =>
      obtain ⟨seen, ⟨more, hmore⟩, hscope⟩ := hadds
      refine ⟨(seen.filter (· ∉ globals)).eraseDups, ?_, by rw [Scope.outermostNames, hscope, Table.addAll_names]⟩
      -- more names make the table longer
      have hkind : (Table.addAll ⟨.globals, globals⟩ seen).kind.isFixed = false := by rw [Table.addAll_names]; rfl
      have hgrows := (Table.addAll_grows hkind more).names
      rw [← Table.addAll_append, hmore, Table.addAll_names, Table.addAll_names] at hgrows
      exact (List.prefix_append_right_inj globals).mp hgrows
  · intro title members base
    have hlast := Resolve.getLast?_layOutClass settings title members (base.getD .empty)
      (s := ⟨[⟨.globals, globals⟩], notes, #[]⟩) (by simp)
    rw [Scope.outermostNames, resolveClass, hlast]
    rfl

end StoneLang
