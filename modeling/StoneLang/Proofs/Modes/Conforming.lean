/-
  Programs whose meaning does not depend on how names are addressed.

  Addressed by slot, a name that a function assigns is local to it; looked up by name, it may be one of a
  caller's frames that is found.  And a global that is declared hides a native before it has a value.  A
  unit conforms if it does neither: outside class bodies, what a function assigns are parameters, its own
  or those of a function around it, and nothing at the top takes the name of a native.

  `Chain.find?` says where a parameter is: in which of the functions around, and at which place.
-/
import StoneLang.Eval.Natives
import StoneLang.Proofs.Grammar.Units
import StoneLang.Proofs.Scope.Tables

namespace StoneLang

def Native.IsStandardName (name : Text) : Prop := ∃ native ∈ Native.standard, native.name = name

/-- The parameters of the functions around a piece of code, those of the innermost first. -/
abbrev Chain := List (List Text)

/-- What code outside class bodies may do, inside functions with the given parameters. -/
def OpenUse (chain : Chain) : Use → Prop
  | .read .. => True
  | .assign _ word =>
    match chain with
    | [] => ¬ Native.IsStandardName word.text
    | _ => ∃ params ∈ chain, word.text ∈ params
  | .definition .. | .classDefinition .. => True

/-- One function further in; no parameter list repeats a name. -/
def OpenInner (chain : Chain) (_ : Site) (params : List Label) (inner : Chain) : Prop :=
  (params.map Label.text).Nodup ∧ inner = params.map Label.text :: chain

/-- The unit means the same whether its names are addressed by slot or by name. -/
def Node.Conforms : Node → Prop
  | .definition _ title params body =>
    ¬ Native.IsStandardName title.text ∧ (params.map Label.text).Nodup ∧
      AllEvery OpenUse OpenInner [params.map Label.text] body
  | .classDefinition _ title _ _ => ¬ Native.IsStandardName title.text
  | unit => unit.Every OpenUse OpenInner []

/-! ## Checking -/

instance (name : Text) : Decidable (Native.IsStandardName name) :=
  inferInstanceAs (Decidable (∃ native ∈ Native.standard, native.name = name))

instance : (chain : Chain) → (u : Use) → Decidable (OpenUse chain u)
  | [], .assign _ word => inferInstanceAs (Decidable (¬ Native.IsStandardName word.text))
  | params :: outer, .assign _ word => inferInstanceAs (Decidable (∃ names ∈ params :: outer, word.text ∈ names))
  | _, .read .. | _, .definition .. | _, .classDefinition .. => isTrue trivial

/-- The chain inside a function, if its parameters are as asked. -/
def Chain.inside (chain : Chain) (_ : Site) (params : List Label) : Option Chain :=
  if (params.map Label.text).Nodup then some (params.map Label.text :: chain) else none

theorem Chain.inside_eq_some (chain : Chain) (site : Site) (params : List Label) (inner : Chain) :
    chain.inside site params = some inner ↔ OpenInner chain site params inner := by
  unfold inside OpenInner
  split <;> simp [*, eq_comm]

def Node.conforms : Node → Bool
  | .definition _ title params body =>
    !decide (Native.IsStandardName title.text) && decide (params.map Label.text).Nodup &&
      checkAll (fun chain u => decide (OpenUse chain u)) Chain.inside [params.map Label.text] body
  | .classDefinition _ title _ _ => !decide (Native.IsStandardName title.text)
  | unit => unit.check (fun chain u => decide (OpenUse chain u)) Chain.inside []

theorem Node.conforms_iff (unit : Node) : unit.conforms = true ↔ unit.Conforms := by
  have hp : ∀ chain u, (decide (OpenUse chain u)) = true ↔ OpenUse chain u := by simp
  have hnode := Node.check_iff hp Chain.inside_eq_some [] unit
  cases unit with
  | definition site title params body =>
    have hbody := checkAll_iff hp Chain.inside_eq_some [params.map Label.text] body
    simp [conforms, Conforms, hbody, and_assoc]
  | classDefinition site title parent members => simp [conforms, Conforms]
  | _ => exact hnode

instance : DecidablePred Node.Conforms := fun unit => decidable_of_iff _ unit.conforms_iff

/-- The use is one of those that code outside class bodies may make, and no definition. -/
def PlainUse (chain : Chain) (u : Use) : Prop := u.isPlain ∧ OpenUse chain u

theorem Node.Plain.every_plainUse {chain : Chain} {node : Node} (hplain : node.Plain)
    (h : node.Every OpenUse OpenInner chain) : node.Every PlainUse OpenInner chain :=
  Node.Every.merge (R := fun _ chain chain' => chain' = chain) (S := fun _ => True)
    (by rintro _ chain _ u rfl _ hu hopen; exact ⟨hu, hopen⟩)
    (by rintro _ chain _ site params _ inner rfl _ _ hinner; exact ⟨inner, hinner, rfl⟩)
    node () chain chain rfl (fun _ _ => trivial) hplain h

theorem Node.Conforms.cases {unit : Node} (h : unit.Conforms) (hunit : unit.IsUnit) :
    unit.Every PlainUse OpenInner [] ∨
      (∃ site title params body, unit = .definition site title params body ∧
        ¬ Native.IsStandardName title.text ∧ (params.map Label.text).Nodup ∧
        AllEvery PlainUse OpenInner [params.map Label.text] body) ∨
      ∃ site title parent members, unit = .classDefinition site title parent members ∧
        ¬ Native.IsStandardName title.text ∧ ∀ member ∈ members, member.IsMember := by
  rcases hunit with hplain | ⟨site, title, params, body, rfl, hbody⟩ |
    ⟨site, title, parent, members, rfl, hmembers⟩
  · refine .inl (hplain.every_plainUse ?_)
    cases unit with
    | definition | classDefinition => simp [Node.Plain, Node.Every, Use.isPlain] at hplain
    | _ => exact h
  · obtain ⟨htitle, hparams, hopen⟩ := h
    refine .inr (.inl ⟨site, title, params, body, rfl, htitle, hparams, ?_⟩)
    rw [allEvery_iff] at hopen ⊢
    exact fun n hn => (hbody n hn).every_plainUse (hopen n hn)
  · exact .inr (.inr ⟨site, title, parent, members, rfl, h, hmembers⟩)

namespace Chain

/-- The place of a parameter: how many functions further out, and which of the parameters there. -/
def find? : Chain → Text → Option (Nat × Nat)
  | [], _ => none
  | params :: outer, name =>
    match params.idxOf? name with
    | some slot => some (0, slot)
    | none => (find? outer name).map fun place => (place.1 + 1, place.2)

theorem exists_find? {chain : Chain} {name : Text} (h : ∃ params ∈ chain, name ∈ params) :
    ∃ place, chain.find? name = some place := by
  induction chain with
  | nil => simp at h
  | cons params outer ih =>
    unfold find?
    cases hslot : params.idxOf? name with
    | some slot => exact ⟨_, rfl⟩
    | none =>
      have hnot := List.idxOf?_eq_none_iff.mp hslot
      obtain ⟨place, hplace⟩ := ih (by simpa [hnot] using h)
      exact ⟨(place.1 + 1, place.2), by simp [hplace]⟩

def tables (chain : Chain) : Scope := chain.map (Table.mk .locals)

theorem isInner_tables (chain : Chain) : chain.tables.IsInner := by
  intro t ht
  obtain ⟨params, -, rfl⟩ := List.mem_map.mp ht
  simp

theorem depth_tables (chain : Chain) : chain.tables.depth = chain.length := by
  induction chain with
  | nil => rfl
  | cons params outer ih =>
    simp only [tables, Scope.depth, List.map_cons, List.countP_cons] at ih ⊢
    simp [Table.isMembers]

theorem lookup_tables (chain : Chain) (name : Text) :
    Scope.lookup false name chain.tables = (chain.find? name).map fun place => .lexical place.1 place.2 := by
  induction chain with
  | nil => rfl
  | cons params outer ih =>
    simp only [tables, List.map_cons, Scope.lookup, find?, Table.find?] at ih ⊢
    cases hslot : params.idxOf? name with
    | some slot => rfl
    | none =>
      simp only [ih, Option.map_map]
      rfl

/-- The scope of open code: the functions around it, and the globals. -/
def scope (chain : Chain) (globals : List Text) : Scope := chain.tables ++ [⟨.globals, globals⟩]

theorem get?_scope (chain : Chain) (globals : List Text) (name : Text) :
    (chain.scope globals).get? name
      = ((chain.find? name).map fun place => .lexical place.1 place.2).or
          ((globals.idxOf? name).map (.lexical chain.length)) := by
  unfold Scope.get? scope
  rw [Scope.lookup_globals chain.isInner_tables, lookup_tables, depth_tables]

theorem put_scope {chain : Chain} (globals : List Text) {name : Text} {place : Nat × Nat}
    (h : chain.find? name = some place) :
    (chain.scope globals).put name = (.lexical place.1 place.2, chain.scope globals) := by
  cases chain with
  | nil => cases h
  | cons params outer =>
    have hlookup := Scope.lookup_inner (isInner_tables (params :: outer)) globals name
    rw [lookup_tables, h] at hlookup
    simp only [scope, tables, List.map_cons, List.cons_append] at hlookup ⊢
    rw [Scope.put]
    simp only [hlookup, Option.map_some]

end Chain

end StoneLang
