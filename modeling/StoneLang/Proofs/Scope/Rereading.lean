/-
  A name that is read right after it was assigned.

  `RowRereads row a b` says that somewhere in a row of nodes an assignment to a name, at the site `a`, is followed by that
  name, at the site `b`.  A walk that places all the names of the row notes the same place at both sites: nothing is
  declared in between, and what an assignment finds or declares is what a read finds then (`Scope.get?_put`).

  The walk is followed from step to step (`Resolve.Echoes`): it notes places at its own sites only, so what it has noted at
  two sites stays the same until its end.
-/
import StoneLang.Proofs.Classes.Layouts

namespace StoneLang

/-- In the row, or in a row inside, the name that is assigned at the first site is read right after that at the second. -/
inductive RowRereads : List Node → Site → Site → Prop where
  | here {a b : Site} {assigned read : Word} {operator : Label} {value : Node} {rest : List Node}
      (assigns : operator.text = text "=") (same : read.text = assigned.text) :
      RowRereads (.binary (.name a assigned) operator value :: .name b read :: rest) a b
  | later {a b : Site} {node : Node} {rest : List Node} (h : RowRereads rest a b) : RowRereads (node :: rest) a b
  | row {a b : Site} {node : Node} {rest : List Node} (isRow : node.isRow) (h : RowRereads node.children a b) :
      RowRereads (node :: rest) a b
  | left {a b : Site} {left right : Node} {operator : Label} {rest : List Node} (h : RowRereads [left] a b) :
      RowRereads (.binary left operator right :: rest) a b
  | right {a b : Site} {left right : Node} {operator : Label} {rest : List Node} (h : RowRereads [right] a b) :
      RowRereads (.binary left operator right :: rest) a b
  | closure {a b site : Site} {params : List Label} {body rest : List Node} (h : RowRereads body a b) :
      RowRereads (.closure site params body :: rest) a b
  | definition {a b site : Site} {title : Label} {params : List Label} {body rest : List Node} (h : RowRereads body a b) :
      RowRereads (.definition site title params body :: rest) a b

namespace RowRereads

variable {a b : Site} {node : Node} {rest : List Node}

theorem inside (h : RowRereads [node] a b) : (node.isRow ∧ RowRereads node.children a b) ∨
    (∃ left operator right, node = .binary left operator right ∧ (RowRereads [left] a b ∨ RowRereads [right] a b)) ∨
    ∃ body, RowRereads body a b ∧ ((∃ site params, node = .closure site params body) ∨
      ∃ site title params, node = .definition site title params body) := by
  cases h with
  | row hrow h => exact .inl ⟨hrow, h⟩
  | later h => cases h
  | left h => exact .inr (.inl ⟨_, _, _, rfl, .inl h⟩)
  | right h => exact .inr (.inl ⟨_, _, _, rfl, .inr h⟩)
  | closure h => exact .inr (.inr ⟨_, h, .inl ⟨_, _, rfl⟩⟩)
  | definition h => exact .inr (.inr ⟨_, h, .inr ⟨_, _, _, rfl⟩⟩)

/-- A pair of sites is in the first node of a row, in the others, or it is the first two nodes. -/
theorem cases_cons (h : RowRereads (node :: rest) a b) : RowRereads [node] a b ∨ RowRereads rest a b ∨
    ∃ assigned read operator value others, node = .binary (.name a assigned) operator value ∧
      rest = .name b read :: others ∧ operator.text = text "=" ∧ read.text = assigned.text := by
  cases h with
  | here assigns same => exact .inr (.inr ⟨_, _, _, _, _, rfl, rfl, assigns, same⟩)
  | later h => exact .inr (.inl h)
  | row hrow h => exact .inl (.row hrow h)
  | left h => exact .inl (.left h)
  | right h => exact .inl (.right h)
  | closure h => exact .inl (.closure h)
  | definition h => exact .inl (.definition h)

theorem mem_sites (h : RowRereads rest a b) : a ∈ allSites rest ∧ b ∈ allSites rest := by
  induction h with
  | here => simp [allSites, Node.sites]
  | row hrow _ ih =>
    rw [← sites_row hrow] at ih
    simp [allSites, ih]
  | later | left | right | closure | definition => simp_all [allSites, Node.sites]

theorem apart (h : RowRereads [node] a b) (hdisjoint : node.sites.Disjoint more) : a ∉ more ∧ b ∉ more := by
  have hmem := h.mem_sites
  simp only [allSites, List.append_nil] at hmem
  exact ⟨fun ha => hdisjoint hmem.1 ha, fun hb => hdisjoint hmem.2 hb⟩

end RowRereads

namespace Scope

/-- The tables are those of code that can assign to names: the receiver of field initializers is right inside the members
of a class that stands among the globals. -/
def Assigns (s : Scope) : Prop :=
  (∃ t outer, s = t :: outer ∧ t.kind ≠ .receiver) ∨ s.map Table.kind = [.receiver, .fields, .methods, .globals]

theorem assigns_globals (names : List Text) : Assigns [⟨.globals, names⟩] := .inl ⟨_, _, rfl, nofun⟩

theorem kinds_wider {s s' : Scope} (h : s.Wider s') : s'.map Table.kind = s.map Table.kind := by
  induction h with
  | nil => rfl
  | cons hhead _ ih => rw [List.map_cons, List.map_cons, hhead.1, ih]

theorem Assigns.of_kinds {s s' : Scope} (h : s.Assigns) (hkinds : s'.map Table.kind = s.map Table.kind) : s'.Assigns := by
  rcases h with ⟨t, outer, rfl, ht⟩ | hreceiver
  · cases s' with
    | nil => cases hkinds
    | cons t' outer' =>
      rw [List.map_cons, List.map_cons, List.cons.injEq] at hkinds
      exact .inl ⟨t', outer', rfl, hkinds.1 ▸ ht⟩
  · exact .inr (hkinds.trans hreceiver)

theorem get?_put {s : Scope} (h : s.Assigns) (name : Text) : (s.put name).2.get? name = some (s.put name).1 := by
  rcases h with ⟨t, outer, rfl, ht⟩ | hkinds
  · exact (found_here outer ht name).1
  · obtain ⟨r, _, rfl, hr, hkinds⟩ := List.map_eq_cons_iff.mp hkinds
    obtain ⟨f, _, rfl, hf, hkinds⟩ := List.map_eq_cons_iff.mp hkinds
    obtain ⟨m, _, rfl, hm, hkinds⟩ := List.map_eq_cons_iff.mp hkinds
    obtain ⟨g, _, rfl, hg, hnil⟩ := List.map_eq_cons_iff.mp hkinds
    obtain rfl := List.map_eq_nil_iff.mp hnil
    have hfields : f.kind ≠ .receiver := by rw [hf]; nofun
    cases hslot : r.find? name with
    | some slot => simp [put, get?, lookup, hr, hslot]
    | none =>
      -- a member looks the same from the initializers
      have hmember : fromInitializer (put name [f, m, g]).1 = (put name [f, m, g]).1 := by
        rcases put_here [m, g] hfields name with ⟨-, hfound, -⟩ | hput
        · generalize (put name [f, m, g]).1 = location at hfound ⊢
          simp only [lookup, hf, hm, hg] at hfound
          split at hfound
          · cases hfound
            simp [Table.locate, hf, fromInitializer]
          · split at hfound <;> cases hfound
            simp [Table.locate, hm, fromInitializer]
        · rw [hput]
          simp [Table.locate, hf, fromInitializer]
      have hfound := (found_here [m, g] hfields name).1
      unfold get? at hfound ⊢
      rw [put]
      simp only [hr, hslot, lookup]
      rw [hfound, Option.map_some, hmember]

end Scope

namespace Resolve

/-- A walk that succeeds has left the tables their roles; it has noted places at `sites` only, and the same place at the
two sites of each of the `pairs`. -/
def Echoes {α : Type} (sites : List Site) (pairs : Site → Site → Prop) (x : Resolve α) : Prop :=
  ∀ s result s', x s = .ok result s' → s.scope.Assigns → s'.scope.map Table.kind = s.scope.map Table.kind ∧
    (∀ site ∉ sites, s'.notes.places.get? site = s.notes.places.get? site) ∧
    ∀ a b, pairs a b → s'.notes.places.get? b = s'.notes.places.get? a

variable {α β : Type} {sites more : List Site} {pairs others : Site → Site → Prop} {x : Resolve α} {f : α → Resolve β}
  {settings : ResolveSettings} {levels : Nat}

theorem Echoes.bind (hx : Echoes sites pairs x) (hf : ∀ result, Echoes more others (f result))
    (hapart : ∀ a b, pairs a b → a ∉ more ∧ b ∉ more) :
    Echoes (sites ++ more) (fun a b => pairs a b ∨ others a b) (x >>= f) := by
  intro s result s' h hs
  obtain ⟨middle, s₁, hfirst, hrest⟩ := bind_eq_ok.mp h
  obtain ⟨hkinds, hkept, hpairs⟩ := hx s middle s₁ hfirst hs
  obtain ⟨hkinds', hkept', hpairs'⟩ := hf middle s₁ result s' hrest (hs.of_kinds hkinds)
  refine ⟨hkinds'.trans hkinds, fun site hsite => ?_, fun a b hab => ?_⟩
  · rw [List.mem_append, not_or] at hsite
    rw [hkept' site hsite.2, hkept site hsite.1]
  · rcases hab with hab | hab
    · rw [hkept' b (hapart a b hab).2, hkept' a (hapart a b hab).1]
      exact hpairs a b hab
    · exact hpairs' a b hab

theorem Echoes.weaken (hx : Echoes sites pairs x) (hsites : sites ⊆ more) (hpairs : ∀ a b, others a b → pairs a b) :
    Echoes more others x := by
  intro s result s' h hs
  obtain ⟨hkinds, hkept, hsame⟩ := hx s result s' h hs
  exact ⟨hkinds, fun site hsite => hkept site fun hmem => hsite (hsites hmem), fun a b hab => hsame a b (hpairs a b hab)⟩

theorem echoes_step (h : ∀ s result s', x s = .ok result s' → s'.scope.map Table.kind = s.scope.map Table.kind ∧
      ∀ site ∉ sites, s'.notes.places.get? site = s.notes.places.get? site) : Echoes sites (fun _ _ => False) x :=
  fun s result s' hx _ => ⟨(h s result s' hx).1, (h s result s' hx).2, fun _ _ hab => hab.elim⟩

theorem echoes_pure (result : α) : Echoes [] (fun _ _ => False) (pure result : Resolve α) :=
  echoes_step fun s _ s' h => by
    cases h
    exact ⟨rfl, fun _ _ => rfl⟩

theorem echoes_put (name : Text) : Echoes [] (fun _ _ => False) (put name) :=
  echoes_step fun s result s' h => by
    cases h
    exact ⟨Scope.kinds_wider (s.scope.wider_put name), fun _ _ => rfl⟩

theorem echoes_annotate (f : Notes → Notes) (h : ∀ n site, site ∉ sites → (f n).places.get? site = n.places.get? site) :
    Echoes sites (fun _ _ => False) (annotate f) :=
  echoes_step fun s result s' hs => by
    cases hs
    exact ⟨rfl, fun site hsite => h s.notes site hsite⟩

theorem echoes_place (site : Site) (location : Location) : Echoes [site] (fun _ _ => False) (place site location) :=
  echoes_annotate _ fun n other hother => by
    rw [SiteMap.get?_set, if_neg (by simpa using hother)]

theorem visitWithin_name (h : visitWithin settings levels (.name site word) s = .ok () s') :
    s'.scope = s.scope ∧ s'.notes.places = s.notes.places.put site (s.scope.get? word.text) := by
  rw [← ScopeActions.visitWithin_resolver] at h
  cases levels with
  | zero => cases h
  | succ levels =>
    obtain ⟨records, hread⟩ := ScopeActions.resolver_read settings site s word
    have hvisit : (ScopeActions.resolver settings).read site word s = .ok () s' := h
    rw [hread] at hvisit
    cases hvisit
    exact ⟨rfl, rfl⟩

theorem place_assignment {value : Node} (hassigns : operator.text = text "=") (hs : s.scope.Assigns)
    (h : visitWithin settings levels (.binary (.name site word) operator value) s = .ok () s') :
    ∃ location, s'.notes.places.get? site = some location ∧ s'.scope.get? word.text = some location := by
  cases levels with
  | zero => cases h
  | succ levels =>
    simp only [visitWithin, visitNode, hassigns, if_true] at h
    obtain ⟨_, s₁, hvalue, hput⟩ := bind_eq_ok.mp h
    have hwider := widens_steps.visitWithin settings settings 0 (fun _ _ _ _ h => by cases h) levels value s _ s₁ hvalue
    have hassigning := hs.of_kinds (Scope.kinds_wider hwider)
    obtain ⟨_, s₂, hlocation, hplace⟩ := bind_eq_ok.mp hput
    cases hlocation
    cases hplace
    exact ⟨_, (SiteMap.get?_set ..).trans (if_pos rfl), Scope.get?_put hassigning word.text⟩

section
variable (hvisit : ∀ node : Node, node.sites.Nodup → Echoes node.sites (RowRereads [node]) (visitWithin settings levels node))

include hvisit

theorem echoes_visitAll : ∀ nodes : List Node, (allSites nodes).Nodup →
    Echoes (allSites nodes) (RowRereads nodes) (visitAll (visitWithin settings levels) nodes)
  | [], _ => fun s result s' h _ => by
    cases h
    exact ⟨rfl, fun _ _ => rfl, fun a b hab => (by cases hab)⟩
  | node :: rest, hnodup => by
    obtain ⟨hnode, hrest, hdisjoint⟩ := List.nodup_append'.mp hnodup
    have hboth := (hvisit node hnode).bind (fun _ => echoes_visitAll rest hrest) fun a b hab => hab.apart hdisjoint
    intro s result s' h hs
    obtain ⟨hkinds, hkept, hpairs⟩ := hboth s result s' h hs
    refine ⟨hkinds, hkept, fun a b hab => ?_⟩
    rcases hab.cases_cons with hab | hab | ⟨assigned, read, operator, value, others, rfl, rfl, hassigns, hsame⟩
    · exact hpairs a b (.inl hab)
    · exact hpairs a b (.inr hab)
    · obtain ⟨_, s₁, hassign, hrow⟩ := bind_eq_ok.mp h
      have hrow' := echoes_visitAll _ hrest s₁ result s' hrow (hs.of_kinds (hvisit _ hnode s _ s₁ hassign hs).1)
      obtain ⟨_, s₂, hread, hothers⟩ := bind_eq_ok.mp hrow
      obtain ⟨hscope, hplaces⟩ := visitWithin_name hread
      have hrest' := (List.nodup_append'.mp hrest).2
      have hothers' := echoes_visitAll others hrest'.1 s₂ result s' hothers (by
        rw [hscope]
        exact hs.of_kinds (hvisit _ hnode s _ s₁ hassign hs).1)
      have ha : a ∉ allSites (.name b read :: others) := fun h => hdisjoint (by simp [Node.sites]) h
      have hb : b ∉ allSites others := fun h => hrest'.2 (by simp [Node.sites]) h
      obtain ⟨location, hnoted, hfound⟩ := place_assignment hassigns hs hassign
      calc s'.notes.places.get? b = s₂.notes.places.get? b := hothers'.2.1 b hb
        _ = s₁.scope.get? assigned.text := by rw [hplaces, SiteMap.get?_put, if_pos rfl, hsame]
        _ = s₁.notes.places.get? a := hfound.trans hnoted.symm
        _ = s'.notes.places.get? a := (hrow'.2.1 a ha).symm
termination_by nodes => nodes.length

theorem echoes_visitFunction (first : List Text) (params : List Label) {body : List Node} (h : (allSites body).Nodup) :
    Echoes (allSites body) (RowRereads body) (visitFunction (visitWithin settings levels) first params body) := by
  intro s size s' hfunction hs
  obtain ⟨_, s₁, henter, hrest⟩ := bind_eq_ok.mp hfunction
  obtain ⟨_, s₂, hbody, hleave⟩ := bind_eq_ok.mp hrest
  cases henter
  obtain ⟨hkinds, hkept, hpairs⟩ := hvisit (.block body) h _ _ _ hbody (.inl ⟨_, _, rfl, by simp [(Table.addAll_grows (t := ⟨.locals, first⟩) rfl (params.map Label.text)).1]⟩)
  obtain ⟨size', hout⟩ := leave_eq s₂
  rw [hout] at hleave
  cases hleave
  refine ⟨?_, hkept, fun a b hab => hpairs a b (.row rfl hab)⟩
  show s₂.scope.tail.map Table.kind = _
  rw [List.map_tail, hkinds]
  rfl

end

theorem echoes_visitWithin (settings : ResolveSettings) (levels : Nat) (node : Node) (h : node.sites.Nodup) :
    Echoes node.sites (RowRereads [node]) (visitWithin settings levels node) := by
  induction levels generalizing node with
  | zero => exact fun s _ _ hs => by cases hs
  | succ levels ih =>
    have hslot (site : Site) (slot : Nat) : Echoes [] (fun _ _ => False) (noteSlot site slot) :=
      echoes_annotate _ fun _ _ _ => rfl
    have hsize (site : Site) (size : Nat) : Echoes [] (fun _ _ => False) (noteSize site size) :=
      echoes_annotate _ fun _ _ _ => rfl
    by_cases hrow : node.isRow
    · have hvisit : visitWithin settings (levels + 1) node = visitAll (visitWithin settings levels) node.children := by
        simp only [visitWithin, visitNode]
        split <;> first | rfl | simp [Node.isRow] at hrow
      rw [hvisit]
      rw [sites_row hrow] at h ⊢
      refine (echoes_visitAll ih node.children h).weaken (List.Subset.refl _) fun a b hab => ?_
      rcases hab.inside with hab | ⟨_, _, _, rfl, -⟩ | ⟨_, -, ⟨_, _, rfl⟩ | ⟨_, _, _, rfl⟩⟩
      · exact hab.2
      all_goals cases hrow
    cases node with
    | name site word =>
      intro s result s' hs _
      obtain ⟨hscope, hplaces⟩ := visitWithin_name hs
      refine ⟨by rw [hscope], fun other hother => ?_, fun a b hab => by simpa [Node.isRow] using hab.inside⟩
      rw [hplaces, SiteMap.get?_put, if_neg (by simpa [Node.sites] using hother)]
    | binary left operator right =>
      have hsites : operator.toNode.sites = operator.sites := by cases operator <;> rfl
      simp only [Node.sites, List.nodup_append', List.disjoint_append_left] at h
      obtain ⟨⟨hleft, hoperator, hfirst⟩, hright, hdisjoint, hsecond⟩ := h
      have hpairs (a b : Site) (hab : RowRereads [.binary left operator right] a b) : RowRereads [left] a b ∨ RowRereads [right] a b := by
        simpa [Node.isRow] using hab.inside
      simp only [visitWithin, visitNode]
      split
      · -- the value comes first
        have hassignment (x : Resolve Unit) (hx : Echoes left.sites (RowRereads [left]) x) :
            Echoes (Node.binary left operator right).sites (RowRereads [.binary left operator right])
              (visitWithin settings levels right >>= fun _ => x) := by
          refine ((ih right hright).bind (fun _ => hx) fun a b hab => hab.apart (List.disjoint_comm.mp hdisjoint)).weaken ?_
            fun a b hab => (hpairs a b hab).symm
          simp [Node.sites]
        cases left with
        | name site word =>
          refine hassignment _ (((echoes_put _).bind (fun _ => echoes_place _ _) fun a b hab => hab.elim).weaken ?_ ?_)
          · simp [Node.sites]
          · exact fun a b hab => by simpa [Node.isRow] using hab.inside
        | _ => exact hassignment _ (ih _ hleft)
      · rw [← hsites] at hoperator hfirst hsecond
        refine ((ih left hleft).bind (fun _ => (ih operator.toNode hoperator).bind (fun _ => ih right hright)
          fun a b hab => hab.apart hsecond) fun a b hab => hab.apart ?_).weaken ?_ fun a b hab => ?_
        · exact List.disjoint_append_right.mpr ⟨hfirst, hdisjoint⟩
        · simp [Node.sites, hsites]
        · exact (hpairs a b hab).imp_right .inr
    | definition site title params body =>
      simp only [Node.sites, List.nodup_append'] at h
      have hbody := (echoes_visitFunction ih [] params h.1.2.1).bind (fun size => hsize site size) fun _ _ _ =>
        ⟨List.not_mem_nil, List.not_mem_nil⟩
      refine ((echoes_put _).bind (fun _ => (hslot site _).bind (fun _ => hbody) fun _ _ => False.elim) fun _ _ => False.elim).weaken
        ?_ fun a b hab => .inr (.inr (.inl (by simpa [Node.isRow] using hab.inside)))
      simp [Node.sites, List.subset_def]
      tauto
    | closure site params body =>
      simp only [Node.sites, List.nodup_append'] at h
      have hbody := (echoes_visitFunction ih [] params h.1.2.1).bind (fun size => hsize site size) fun _ _ _ =>
        ⟨List.not_mem_nil, List.not_mem_nil⟩
      refine hbody.weaken ?_ fun a b hab => .inl (by simpa [Node.isRow] using hab.inside)
      simp [Node.sites]
    | classDefinition site title parent members =>
      exact ((echoes_put _).bind (fun _ => hslot site _) fun _ _ => False.elim).weaken (by simp) fun a b hab => by
        simpa [Node.isRow] using hab.inside
    | parameters labels => exact (echoes_pure ()).weaken (by simp) fun a b hab => by simpa [Node.isRow] using hab.inside
    | suffix s =>
      cases s with
      | member site title => exact (echoes_pure ()).weaken (by simp) fun a b hab => by simpa [Node.isRow] using hab.inside
      | _ => simp [Node.isRow] at hrow
    | _ => simp [Node.isRow] at hrow

/-! ## Classes -/

theorem visitInitializers_eq (members : List Node) :
    visitInitializers settings members = visitAll (visit settings) (Paired.initializersOf members) := by
  induction members with
  | nil => rfl
  | cons member rest ih =>
    unfold visitInitializers Paired.initializersOf
    rw [List.filter_cons]
    split
    · rw [ih]
      rfl
    · exact ih

theorem echoes_visitMethods (settings : ResolveSettings) (members : List Node) (h : (allSites (methodsOf members)).Nodup) :
    Echoes (allSites (methodsOf members)) (RowRereads (methodsOf members)) (visitMethods settings members) := by
  induction members with
  | nil => exact (echoes_pure ()).weaken (by simp) fun a b hab => (by cases hab)
  | cons member rest ih =>
    unfold visitMethods
    cases hd : Definition.ofNode? member with
    | none =>
      have hmethods : methodsOf (member :: rest) = methodsOf rest := by simp [methodsOf, hd]
      rw [hmethods] at h ⊢
      exact ((echoes_pure ()).bind (fun _ => ih h) fun a b hab => hab.elim).weaken (by simp) fun a b hab => .inr hab
    | some d =>
      have hmethods : methodsOf (member :: rest) = d.toNode :: methodsOf rest := by
        rw [← Definition.eq_toNode hd]
        simp [methodsOf, hd]
      rw [hmethods] at h ⊢
      obtain ⟨hmethod, hrest, hdisjoint⟩ := List.nodup_append'.mp h
      simp only [Definition.toNode, Node.sites, List.nodup_append'] at hmethod
      have hbody := echoes_visitFunction (echoes_visitWithin settings settings.maxDepth) [thisName] d.parameters hmethod.1.2.1
      have hsize (size : Nat) : Echoes [] (fun _ _ => False) (noteSize d.site size) := echoes_annotate _ fun _ _ _ => rfl
      have hwhole : Echoes d.toNode.sites (RowRereads [d.toNode]) (do
          let size ← visitFunction (visit settings) [thisName] d.parameters d.body
          noteSize d.site size) := by
        refine (hbody.bind hsize fun a b _ => ⟨by simp, by simp⟩).weaken ?_ fun a b hab => .inl (by simpa [Definition.toNode, Node.isRow] using hab.inside)
        simp [Definition.toNode, Node.sites, List.subset_def]
        tauto
      have hboth := hwhole.bind (fun _ => ih hrest) fun a b hab => hab.apart hdisjoint
      rw [bind_assoc] at hboth
      refine hboth.weaken ?_ fun a b hab => ?_
      · exact List.Subset.refl _
      · rcases hab.cases_cons with hab | hab | ⟨_, _, _, _, _, hnode, -⟩
        · exact .inl hab
        · exact .inr hab
        · cases hnode

end Resolve

/-- Among the field initializers of a class, or in one of its methods. -/
def MembersReread (members : List Node) (a b : Site) : Prop :=
  RowRereads (Resolve.Paired.initializersOf members) a b ∨ RowRereads (methodsOf members) a b

theorem MembersReread.mem_sites (h : MembersReread members a b) : a ∈ allSites members ∧ b ∈ allSites members := by
  rcases h with h | h
  · exact ⟨(allSites_filter _ members).subset h.mem_sites.1, (allSites_filter _ members).subset h.mem_sites.2⟩
  · exact ⟨(allSites_methodsOf members).subset h.mem_sites.1, (allSites_methodsOf members).subset h.mem_sites.2⟩

/-- Somewhere in the unit the name that is assigned at the first site is read right after that at the second. -/
def Node.Rereads : Node → Site → Site → Prop
  | .classDefinition _ _ _ members => MembersReread members
  | unit => RowRereads [unit]

theorem Node.Rereads.mem_sites {unit : Node} (h : unit.Rereads a b) : a ∈ unit.sites ∧ b ∈ unit.sites := by
  cases unit with
  | classDefinition site title parent members => simp [Node.sites, MembersReread.mem_sites h]
  | _ => simpa [allSites] using RowRereads.mem_sites h

/-- The sites at which the places are to agree stand in the unit as an assignment and the read right after it. -/
def Aim.Heeds (aim : Aim) (unit : Node) : Prop := ∀ a ∈ unit.sites, ∀ b, aim.follows a b → unit.Rereads a b

theorem Aim.heeds_none (unit : Node) : Aim.none.Heeds unit := fun _ _ _ => False.elim

section
variable {settings : ResolveSettings} {s s' : Resolving} {a b : Site}

theorem place_reread {node : Node} (h : visit settings node s = .ok () s') (hs : s.scope.Assigns) (hsites : node.sites.Nodup)
    (hab : RowRereads [node] a b) : s'.notes.places.get? b = s'.notes.places.get? a :=
  (Resolve.echoes_visitWithin settings settings.maxDepth node hsites s () s' h hs).2.2 a b hab

theorem place_reread_members {members : List Node} {title : Text} {base layout : Layout}
    (h : layOutClass settings title members base s = .ok layout s') (hs : s.scope.map Table.kind = [.globals])
    (hsites : (allSites members).Nodup) (hab : MembersReread members a b) :
    s'.notes.places.get? b = s'.notes.places.get? a := by
  obtain ⟨laid, s₁, s₂, s₃, h₁, h₂, h₃, -, hnotes⟩ := layOutClass_inv h
  rw [hnotes]
  have hscope : s₁.scope = s.scope := by
    obtain ⟨_, -, hlay⟩ := layOutMethods_eq members base
    obtain ⟨slots, hlaid, -⟩ := hlay s
    rw [hlaid] at h₁
    cases h₁
    rfl
  have hinitializing : (s₁.inClass laid).scope.map Table.kind = [.receiver, .fields, .methods, .globals] := by
    simp [Resolving.inClass, Table.ofReceiver, hscope, hs]
  have hinitializers := Resolve.echoes_visitAll (Resolve.echoes_visitWithin settings settings.maxDepth)
    (Resolve.Paired.initializersOf members) ((allSites_filter _ members).nodup hsites)
  rw [Resolve.visitInitializers_eq] at h₂
  obtain ⟨hkinds, -, hpairs⟩ := hinitializers _ _ _ h₂ (.inr hinitializing)
  have houtside : s₂.outside.scope.map Table.kind = [.fields, .methods, .globals] := by
    show s₂.scope.tail.map Table.kind = _
    rw [List.map_tail, hkinds, hinitializing]
    rfl
  have hmethods := Resolve.echoes_visitMethods settings members ((allSites_methodsOf members).nodup hsites)
  obtain ⟨-, hkept, hpairs'⟩ := hmethods _ _ _ h₃ (.inl (by
    obtain ⟨t, outer, hscope, ht, -⟩ := List.map_eq_cons_iff.mp houtside
    exact ⟨t, outer, hscope, by simp [ht]⟩))
  rcases hab with hab | hab
  · -- the methods stay away from the sites of the initializers
    have haway (site : Site) (hsite : site ∈ allSites (Resolve.Paired.initializersOf members)) :
        site ∉ allSites (methodsOf members) := by
      obtain ⟨member, hmember, hsite⟩ := mem_allSites.mp hsite
      obtain ⟨hmember, hnone⟩ := List.mem_filter.mp hmember
      exact initializer_disjoint hsites hmember (Option.isNone_iff_eq_none.mp hnone) hsite
    rw [hkept b (haway b hab.mem_sites.2), hkept a (haway a hab.mem_sites.1)]
    exact hpairs a b hab
  · exact hpairs' a b hab

end

end StoneLang
