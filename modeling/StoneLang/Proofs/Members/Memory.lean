/-
  What member accesses remember.

  A member access remembers what it found last, and in which class.  `Machine.Remembers` says that a search in that class
  would find the same.  This stays so because a class never changes once it is there, because no two classes have the
  same number, and because a site belongs to one member access and so has one title (`Titles`).

  `Machine.Clear` adds what is needed to keep it: all code that the machine holds has the titles that are known.  Running
  keeps this up (`Upkeep.recalling`).
-/
import StoneLang.Proofs.Evaluation.Upkeep

namespace StoneLang

/-! ## Member accesses -/

mutual

/-- The member accesses in a tree. -/
@[grind =] def Node.accesses : Node → List (Site × Label)
  | .leaf _ | .number .. | .string _ | .name .. | .empty | .parameters _ => []
  | .list children | .block children | .array children | .classBody children => allAccesses children
  | .binary left _ right => left.accesses ++ right.accesses
  | .negative operand => operand.accesses
  | .conditional condition consequence none => condition.accesses ++ consequence.accesses
  | .conditional condition consequence (some alternative) =>
    condition.accesses ++ consequence.accesses ++ alternative.accesses
  | .loop condition body => condition.accesses ++ body.accesses
  | .definition _ _ _ body | .closure _ _ body => allAccesses body
  | .primary operand inner last => operand.accesses ++ allSuffixAccesses inner ++ last.accesses
  | .suffix s => s.accesses
  | .classDefinition _ _ _ members => allAccesses members

/-- The member accesses in a suffix. -/
@[grind =] def Suffix.accesses : Suffix → List (Site × Label)
  | .arguments values => allAccesses values
  | .member site title => [(site, title)]
  | .element index => index.accesses

@[grind =] def allAccesses : List Node → List (Site × Label)
  | [] => []
  | n :: rest => n.accesses ++ allAccesses rest

@[grind =] def allSuffixAccesses : List Suffix → List (Site × Label)
  | [] => []
  | s :: rest => s.accesses ++ allSuffixAccesses rest

end

theorem mem_allAccesses : a ∈ allAccesses nodes ↔ ∃ n ∈ nodes, a ∈ n.accesses := by
  induction nodes with
  | nil => simp [allAccesses]
  | cons n rest ih => simp [allAccesses, ih]

theorem forall_allAccesses {access : Site × Label → Prop} :
    (∀ a ∈ allAccesses nodes, access a) ↔ ∀ n ∈ nodes, ∀ a ∈ n.accesses, access a := by
  simp only [mem_allAccesses]
  constructor
  · intro h n hn a ha
    exact h a ⟨n, hn, ha⟩
  · rintro h a ⟨n, hn, ha⟩
    exact h n hn a ha

theorem forall_allSuffixAccesses {access : Site × Label → Prop} :
    (∀ a ∈ allSuffixAccesses suffixes, access a) ↔ ∀ s ∈ suffixes, ∀ a ∈ s.accesses, access a := by
  induction suffixes with
  | nil => simp [allSuffixAccesses]
  | cons s rest ih => simp only [allSuffixAccesses, List.forall_mem_append, List.forall_mem_cons, ih]

/-! ## Accesses and sites -/

mutual

theorem Node.accesses_sublist : ∀ n : Node, (n.accesses.map Prod.fst).Sublist n.sites
  | .leaf _ | .number .. | .string _ | .name .. | .empty | .parameters _ => List.nil_sublist _
  | .list children | .block children | .array children | .classBody children => allAccesses_sublist children
  | .binary left operator right => by
    simp only [Node.accesses, Node.sites, List.map_append]
    exact (left.accesses_sublist.trans (List.sublist_append_left ..)).append right.accesses_sublist
  | .negative operand => operand.accesses_sublist
  | .conditional condition consequence none => by
    simp only [Node.accesses, Node.sites, List.map_append]
    exact condition.accesses_sublist.append consequence.accesses_sublist
  | .conditional condition consequence (some alternative) => by
    simp only [Node.accesses, Node.sites, List.map_append]
    exact (condition.accesses_sublist.append consequence.accesses_sublist).append alternative.accesses_sublist
  | .loop condition body => by
    simp only [Node.accesses, Node.sites, List.map_append]
    exact condition.accesses_sublist.append body.accesses_sublist
  | .definition _ _ _ body | .closure _ _ body =>
    ((allAccesses_sublist body).trans (List.sublist_append_right ..)).trans (List.sublist_append_left ..)
  | .primary operand inner last => by
    simp only [Node.accesses, Node.sites, List.map_append]
    exact (operand.accesses_sublist.append (allSuffixAccesses_sublist inner)).append last.accesses_sublist
  | .suffix s => s.accesses_sublist
  | .classDefinition _ _ _ members =>
    ((allAccesses_sublist members).trans (List.sublist_append_right ..)).trans (List.sublist_append_left ..)

theorem Suffix.accesses_sublist : ∀ s : Suffix, (s.accesses.map Prod.fst).Sublist s.sites
  | .arguments values => allAccesses_sublist values
  | .member site title => List.sublist_append_right title.sites [site]
  | .element index => index.accesses_sublist

theorem allAccesses_sublist : ∀ nodes : List Node, ((allAccesses nodes).map Prod.fst).Sublist (allSites nodes)
  | [] => .slnil
  | n :: rest => by
    simp only [allAccesses, allSites, List.map_append]
    exact n.accesses_sublist.append (allAccesses_sublist rest)

theorem allSuffixAccesses_sublist : ∀ suffixes : List Suffix,
    ((allSuffixAccesses suffixes).map Prod.fst).Sublist (allSuffixSites suffixes)
  | [] => .slnil
  | s :: rest => by
    simp only [allSuffixAccesses, allSuffixSites, List.map_append]
    exact s.accesses_sublist.append (allSuffixAccesses_sublist rest)

end

theorem Node.access_unique {n : Node} (h : n.sites.Nodup)
    (ha : (site, title) ∈ n.accesses) (hb : (site, title') ∈ n.accesses) : title = title' := by
  have hnodup : (n.accesses.map Prod.fst).Nodup := h.sublist n.accesses_sublist
  exact congrArg Prod.snd (List.inj_on_of_nodup_map hnodup ha hb rfl)

/-- The titles of the member accesses at the sites below `known`. -/
structure Titles where
  known : Nat
  title : Site → Text

namespace Titles

def Has (t : Titles) (a : Site × Label) : Prop := a.1 < t.known ∧ t.title a.1 = a.2.text

/-- The second knows at least as much. -/
structure Within (t u : Titles) : Prop where
  known : t.known ≤ u.known
  title : ∀ site : Nat, site < t.known → u.title site = t.title site

variable {t u : Titles}

theorem Has.later (h : t.Within u) (ha : t.Has a) : u.Has a :=
  ⟨Nat.lt_of_lt_of_le ha.1 h.known, (h.title a.1 ha.1).trans ha.2⟩

def adding (t : Titles) (node : Node) (known : Nat) : Titles where
  known := known
  title site := if site < t.known then t.title site
    else ((node.accesses.find? fun a => a.1 == site).elim [] fun a => a.2.text)

theorem within_adding {known : Nat} (h : t.known ≤ known) : t.Within (t.adding node known) :=
  ⟨h, fun _ hsite => if_pos hsite⟩

theorem has_adding {known : Nat} (hnodup : node.sites.Nodup)
    (hsites : ∀ site ∈ node.sites, t.known ≤ site ∧ site < known) (ha : a ∈ node.accesses) :
    (t.adding node known).Has a := by
  have hsite : a.1 ∈ node.sites := node.accesses_sublist.subset (List.mem_map_of_mem ha)
  obtain ⟨hnew, hlt⟩ := hsites a.1 hsite
  refine ⟨hlt, ?_⟩
  have hfound : (node.accesses.find? fun b => b.1 == a.1).isSome :=
    List.find?_isSome.mpr ⟨a, ha, by simp⟩
  obtain ⟨b, hb⟩ := Option.isSome_iff_exists.mp hfound
  have hfst : b.1 = a.1 := by simpa using List.find?_some hb
  have hsame : b.2 = a.2 := by
    have hmem : (a.1, b.2) ∈ node.accesses := by
      rw [← hfst]
      exact List.mem_of_find?_eq_some hb
    exact Node.access_unique hnodup hmem ha
  simp only [adding, hb, if_neg (Nat.not_lt.mpr hnew), Option.elim_some, hsame]

end Titles

namespace Machine

/-- Classes have numbers of their own, and what an access remembers for a class is as `P` says. -/
structure Recalling (P : Nat → Class → MemberCache → Prop) (m : Machine) : Prop where
  numbered : ∀ c ∈ m.classes, c.id < m.nextClass
  unique : ∀ c ∈ m.classes, ∀ c' ∈ m.classes, c.id = c'.id → c = c'
  known : ∀ (site : Nat) entry, m.notes.caches.get? site = some entry → entry.classId < m.nextClass
  found : ∀ (site : Nat) entry, m.notes.caches.get? site = some entry →
    ∀ c ∈ m.classes, c.id = entry.classId → P site c entry

/-- What member accesses remember is what a search would find, in the class for which they remember it. -/
abbrev Remembers (t : Titles) (m : Machine) : Prop :=
  m.Recalling fun site c entry => site < t.known ∧ searchMember c (t.title site) = some entry

variable {P : Nat → Class → MemberCache → Prop} {t u : Titles} {m m' : Machine}

theorem Remembers.later (h : m.Remembers t) (hle : t.Within u) : m.Remembers u where
  numbered := h.numbered
  unique := h.unique
  known := h.known
  found site entry hentry c hc hid := by
    obtain ⟨hsite, hfound⟩ := h.found site entry hentry c hc hid
    refine ⟨Nat.lt_of_lt_of_le hsite hle.known, ?_⟩
    rw [hle.title site hsite]
    exact hfound

/-! ## Looking for a member -/

theorem classId_searchMember (h : searchMember c name = some entry) : entry.classId = c.id := by
  unfold searchMember at h
  split at h
  · cases h
    rfl
  · obtain ⟨index, -, rfl⟩ := Option.map_eq_some_iff.mp h
    rfl

/-- What an access finds, remembered or not, is what a search in the class of the object finds. -/
theorem Remembers.member (h : m.Remembers t) (hsite : t.Has (site, title)) (hc : m.classOf? object = some c) :
    (∃ entry, searchMember c title.text = some entry ∧ (m.member object site title = .ok (entry, m) ∨
          m.member object site title = .ok (entry, m.remembering site entry))) ∨
      searchMember c title.text = none ∧ m.member object site title = .error (.noMember c.name title.text) := by
  have hmem := mem_of_classOf? hc
  unfold Machine.member
  rw [hc]
  dsimp only
  cases hkept : (m.notes.caches.get? site).filter fun entry => entry.classId == c.id with
  | some entry =>
    -- it is remembered for this class
    obtain ⟨hentry, hid⟩ := Option.filter_eq_some_iff.mp hkept
    obtain ⟨-, hfound⟩ := h.found site entry hentry c hmem (beq_iff_eq.mp hid).symm
    rw [hsite.2] at hfound
    exact .inl ⟨entry, hfound, .inl rfl⟩
  | none =>
    dsimp only
    cases searchMember c title.text with
    | some entry => exact .inl ⟨entry, rfl, .inr rfl⟩
    | none => exact .inr ⟨rfl, rfl⟩

/-! ## Running -/

theorem Recalling.start (settings : Settings) (input : Input) (limit : Option Nat) (nextClass : Nat) :
    (Machine.start settings input limit nextClass).Recalling P :=
  ⟨by simp [Machine.start], by simp [Machine.start], nofun, nofun⟩

theorem Recalling.same (h : m.Recalling P) (hclasses : m'.classes = m.classes) (hnext : m'.nextClass = m.nextClass)
    (hcaches : m'.notes.caches = m.notes.caches) : m'.Recalling P where
  numbered := by
    rw [hclasses, hnext]
    exact h.numbered
  unique := hclasses ▸ h.unique
  known := by
    rw [hcaches, hnext]
    exact h.known
  found := by
    rw [hcaches, hclasses]
    exact h.found

theorem Recalling.remembering (h : m.Recalling P) (hc : c ∈ m.classes)
    (hfound : searchMember c name = some entry) (hentry : P site c entry) : (m.remembering site entry).Recalling P where
  numbered := h.numbered
  unique := h.unique
  known other entry' hentry' := by
    simp only [Machine.remembering, SiteMap.get?_set] at hentry'
    split at hentry'
    · cases hentry'
      rw [classId_searchMember hfound]
      exact h.numbered c hc
    · exact h.known other entry' hentry'
  found other entry' hentry' c' hc' hid := by
    simp only [Machine.remembering, SiteMap.get?_set] at hentry'
    split at hentry'
    · next heq =>
      cases hentry'
      rw [classId_searchMember hfound] at hid
      rw [h.unique c' hc' c hc hid, heq]
      exact hentry
    · exact h.found other entry' hentry' c' hc' hid

theorem Recalling.withClass (h : m.Recalling P) (title : Text) (parents : List Nat) (layout : Layout) (members : List Node)
    (env : Env) : (m.withClass title parents layout members env).Recalling P where
  numbered := Array.forall_mem_push.mpr ⟨Nat.lt_succ_self _, fun c hc => Nat.lt_succ_of_lt (h.numbered c hc)⟩
  unique c hc c' hc' hid := by
    rcases Array.mem_push.mp hc with hc | rfl <;> rcases Array.mem_push.mp hc' with hc' | rfl
    · exact h.unique c hc c' hc' hid
    · exact absurd hid (Nat.ne_of_lt (h.numbered c hc))
    · exact absurd hid.symm (Nat.ne_of_lt (h.numbered c' hc'))
    · rfl
  known site entry hentry := Nat.lt_succ_of_lt (h.known site entry hentry)
  found site entry hentry c hc hid := by
    rcases Array.mem_push.mp hc with hc | rfl
    · exact h.found site entry hentry c hc hid
    · exact absurd hid.symm (Nat.ne_of_lt (h.known site entry hentry))

end Machine

def CodeKind.accessing (access : Site × Label → Prop) : CodeKind where
  node n := ∀ a ∈ n.accesses, access a
  suffix s := ∀ a ∈ s.accesses, access a
  loops := True
  block := forall_allAccesses
  binary h := List.forall_mem_append.mp h
  negative h := h
  conditional {_ _ alternative} h := by
    cases alternative with
    | none =>
      obtain ⟨hcondition, hconsequence⟩ := List.forall_mem_append.mp h
      exact ⟨hcondition, hconsequence, nofun⟩
    | some other =>
      obtain ⟨hfirst, hother⟩ := List.forall_mem_append.mp h
      obtain ⟨hcondition, hconsequence⟩ := List.forall_mem_append.mp hfirst
      refine ⟨hcondition, hconsequence, ?_⟩
      rintro _ ⟨⟩
      exact hother
  loop h := ⟨trivial, List.forall_mem_append.mp h⟩
  primary {_ inner _} h := by
    obtain ⟨hbase, hlast⟩ := List.forall_mem_append.mp h
    obtain ⟨hoperand, hinner⟩ := List.forall_mem_append.mp hbase
    exact ⟨hoperand, forall_allSuffixAccesses.mp hinner, hlast⟩
  array h := forall_allAccesses.mp h
  definition h := forall_allAccesses.mp h
  closure h := forall_allAccesses.mp h
  classDefinition h := forall_allAccesses.mp h
  arguments h := forall_allAccesses.mp h
  element h := h

/-- What is remembered is kept up on code whose titles are known. -/
def Upkeep.recalling (t : Titles) : Upkeep :=
  .ofClasses (.accessing t.Has) (Machine.Remembers t) .same
    (fun {_ site title _ _} h haccess hc hfound => by
      have hsite : t.Has (site, title) := haccess (site, title) (List.mem_singleton_self _)
      exact h.remembering hc hfound ⟨hsite.1, by rw [hsite.2]; exact hfound⟩)
    fun e h _ => h.withClass _ _ _ _ e

/-- Besides, the titles in all code are known. -/
abbrev Machine.Clear (t : Titles) (m : Machine) : Prop := (Upkeep.recalling t).Holds m

theorem Machine.Clear.later {m : Machine} (h : m.Clear t) (hle : t.Within u) : m.Clear u where
  carries := h.carries.mono fun _ hn a ha => (hn a ha).later hle
  functions _ _ := trivial
  classes _ _ := trivial
  kept := Remembers.later h.kept hle

end StoneLang
