/-
  What a search through tables finds.

  A name keeps its slot while its table grows (`idxOf?_of_isPrefix`).  The global table is the outermost
  one, so a search first looks at the tables inside it, and what it finds there does not depend on the
  globals (`Scope.lookup_globals`).  A location that is found inside stays inside: it hops over fewer
  scopes than there are (`Scope.Reaches`).
-/
import Mathlib.Data.List.Forall2
import StoneLang.Scope.Basic

namespace StoneLang

section
variable {α : Type} [BEq α] [LawfulBEq α] {a : α} {xs ys : List α} {i : Nat}

theorem lt_of_idxOf? (h : xs.idxOf? a = some i) : i < xs.length :=
  (List.idxOf?_eq_some_iff.mp h).1

theorem getElem?_of_idxOf? (h : xs.idxOf? a = some i) : xs[i]? = some a := by
  obtain ⟨hlt, heq, -⟩ := List.idxOf?_eq_some_iff.mp h
  exact List.getElem?_eq_some_iff.mpr ⟨hlt, heq⟩

theorem idxOf?_inj (h : xs.idxOf? a = some i) (h' : xs.idxOf? b = some i) : a = b :=
  Option.some.inj ((getElem?_of_idxOf? h).symm.trans (getElem?_of_idxOf? h'))

omit [LawfulBEq α] in
theorem idxOf?_of_isPrefix (hxy : xs <+: ys) (h : xs.idxOf? a = some i) : ys.idxOf? a = some i := by
  obtain ⟨zs, rfl⟩ := hxy
  unfold List.idxOf? at h ⊢
  rw [List.findIdx?_append, h]
  rfl

omit [BEq α] [LawfulBEq α] in
theorem getElem?_of_isPrefix (hxy : xs <+: ys) (h : xs[i]? = some a) : ys[i]? = some a := by
  obtain ⟨zs, rfl⟩ := hxy
  rw [List.getElem?_append_left (List.getElem?_eq_some_iff.mp h).1, h]

theorem idxOf?_concat_of_notMem (h : a ∉ xs) : (xs ++ [a]).idxOf? a = some xs.length := by
  have hnone := List.idxOf?_eq_none_iff.mpr h
  unfold List.idxOf? at hnone ⊢
  rw [List.findIdx?_append, hnone]
  simp [List.findIdx?_cons]

theorem exists_idxOf? (h : a ∈ xs) : ∃ i, xs.idxOf? a = some i :=
  Option.isSome_iff_exists.mp (List.isSome_idxOf?.mpr h)

end

def TableKind.isFixed : TableKind → Bool
  | .receiver | .methods => true
  | _ => false

namespace Table

/-- The table has the same role and at least the same names, in the same slots. -/
structure Grows (t t' : Table) : Prop where
  kind : t'.kind = t.kind
  names : t.names <+: t'.names
  fixed : t.kind.isFixed = true → t'.names = t.names

namespace Grows

variable {t t' t'' : Table}

theorem refl (t : Table) : t.Grows t := ⟨rfl, List.prefix_rfl, fun _ => rfl⟩

theorem trans (h : t.Grows t') (h' : t'.Grows t'') : t.Grows t'' :=
  ⟨h'.kind.trans h.kind, h.names.trans h'.names,
    fun hfixed => (h'.fixed (by rwa [h.kind])).trans (h.fixed hfixed)⟩

end Grows

theorem find?_add_self (t : Table) (name : Text) : (t.add name).2.find? name = some (t.add name).1 := by
  unfold add
  cases hslot : t.find? name with
  | some slot => exact hslot
  | none => exact idxOf?_concat_of_notMem (List.idxOf?_eq_none_iff.mp hslot)

theorem add_spec {t : Table} (h : t.kind.isFixed = false) (name : Text) :
    t.Grows (t.add name).2 ∧ (t.add name).2.find? name = some (t.add name).1 := by
  refine ⟨?_, find?_add_self t name⟩
  unfold add
  cases t.find? name with
  | some slot => exact .refl t
  | none => exact ⟨rfl, List.prefix_append .., fun hfixed => absurd (h.symm.trans hfixed) nofun⟩

theorem nodup_add {t : Table} (h : t.names.Nodup) (name : Text) : (t.add name).2.names.Nodup := by
  unfold add
  cases hslot : t.find? name with
  | some slot => exact h
  | none =>
    have hnew : name ∉ t.names := List.idxOf?_eq_none_iff.mp hslot
    refine List.nodup_append.mpr ⟨h, by simp, fun a ha b hb heq => ?_⟩
    rw [List.mem_singleton] at hb
    exact hnew (hb ▸ heq ▸ ha)

theorem addAll_grows {t : Table} (h : t.kind.isFixed = false) (names : List Text) :
    t.Grows (t.addAll names) := by
  induction names generalizing t with
  | nil => exact .refl t
  | cons name rest ih =>
    have hadd := (add_spec h name).1
    exact hadd.trans (ih (by rw [hadd.kind, h]))

theorem addAll_of_nodup (t : Table) (names : List Text) (h : (t.names ++ names).Nodup) :
    t.addAll names = { t with names := t.names ++ names } := by
  induction names generalizing t with
  | nil => simp [addAll]
  | cons name rest ih =>
    have hnew : name ∉ t.names := by
      intro hmem
      have hdisjoint := (List.nodup_append.mp h).2.2 name hmem name (by simp)
      exact hdisjoint rfl
    have hadd : (t.add name).2 = { t with names := t.names ++ [name] } := by
      simp only [add, find?, List.idxOf?_eq_none_iff.mpr hnew]
    show addAll (t.add name).2 rest = _
    rw [hadd, ih _ (by simpa using h)]
    simp

end Table

namespace Scope

/-! ## Inside the globals -/

def IsInner (inner : Scope) : Prop := ∀ t ∈ inner, t.kind ≠ .globals

/-- The number of scopes at run time that the tables stand for. -/
def depth (inner : Scope) : Nat := inner.countP fun t => !t.isMembers

/-- How far a location reaches: a lexical one stays inside, and the receiver of a member is inside or, as
seen from the members themselves, right at hand. -/
def Reaches (inner : Scope) : Location → Prop
  | .lexical nest _ => nest < depth inner
  | .field _ hops | .method _ hops =>
    hops + (if fromBody.startsWithMembers inner then 0 else 1) ≤ depth inner

section
variable {inner : Scope} {t : Table} {name : Text} {location : Location}

theorem IsInner.head (h : IsInner (t :: inner)) : t.kind ≠ .globals := h t (by simp)

theorem IsInner.tail (h : IsInner (t :: inner)) : IsInner inner := fun t ht => h t (by simp [ht])

theorem startsWithMembers_append (inner : Scope) (globals : List Text) :
    fromBody.startsWithMembers (inner ++ [⟨.globals, globals⟩]) = fromBody.startsWithMembers inner := by
  cases inner <;> rfl

theorem fromBody_append (inner : Scope) (globals : List Text) (location : Location) :
    fromBody (inner ++ [⟨.globals, globals⟩]) location = fromBody inner location := by
  cases location <;> simp only [fromBody, startsWithMembers_append]

theorem lookup_inner (h : IsInner inner) (globals : List Text) (name : Text) :
    lookup false name (inner ++ [⟨.globals, globals⟩]) = lookup false name inner := by
  induction inner with
  | nil => rfl
  | cons t rest ih =>
    have hfrom : fromBody (rest ++ [⟨.globals, globals⟩]) = fromBody rest :=
      funext (fromBody_append rest globals)
    simp only [List.cons_append, lookup, ih h.tail, hfrom]

theorem lookup_globals (h : IsInner inner) (globals : List Text) (name : Text) :
    lookup true name (inner ++ [⟨.globals, globals⟩])
      = (lookup false name inner).or ((globals.idxOf? name).map (.lexical (depth inner))) := by
  induction inner with
  | nil =>
    simp only [List.nil_append, lookup, if_true, Table.find?, Option.none_or]
    rfl
  | cons t rest ih =>
    have hfrom : fromBody (rest ++ [⟨.globals, globals⟩]) = fromBody rest :=
      funext (fromBody_append rest globals)
    have hkind := h.head
    simp only [List.cons_append, lookup, ih h.tail, hfrom, depth, List.countP_cons]
    cases hk : t.kind <;> simp only [hk] at hkind ⊢ <;> cases hslot : t.find? name <;>
      simp [Table.isMembers, hk, Option.map_or, fromBody, fromInitializer, Function.comp_def]
    · exact absurd rfl hkind
    · exact absurd rfl hkind

theorem reaches_of_lookup (h : IsInner inner) (hfound : lookup false name inner = some location) :
    Reaches inner location := by
  induction inner generalizing location with
  | nil => cases hfound
  | cons t rest ih =>
    simp only [lookup] at hfound
    cases hk : t.kind with
    | globals => exact absurd hk h.head
    | locals | receiver =>
      cases hslot : t.find? name with
      | some slot =>
        simp only [hk, hslot, Option.some.injEq] at hfound
        subst hfound
        simp [Table.locate, hk, Reaches, depth, Table.isMembers]
      | none =>
        simp only [hk, hslot, Option.map_eq_some_iff] at hfound
        obtain ⟨outer, houter, rfl⟩ := hfound
        have hreach := ih h.tail houter
        cases outer <;>
          simp only [fromBody, fromInitializer, Reaches, depth, List.countP_cons, Table.isMembers, hk,
            fromBody.startsWithMembers] at hreach ⊢ <;> grind
    | fields | methods =>
      cases hslot : t.find? name with
      | some slot =>
        simp only [hk, hslot, Option.some.injEq] at hfound
        subst hfound
        simp [Table.locate, hk, Reaches, Table.isMembers, fromBody.startsWithMembers]
      | none =>
        simp only [hk, hslot] at hfound
        have hreach := ih h.tail hfound
        cases location <;>
          simp only [Reaches, depth, List.countP_cons, Table.isMembers, hk,
            fromBody.startsWithMembers] at hreach ⊢ <;> grind

/-- Where no function is around, only members are found inside the globals, and these are not counted in hops. -/
theorem fromInitializer_of_lookup (hlocals : ∀ t ∈ inner, t.kind ≠ .locals)
    (hreceivers : ∀ t ∈ inner, t.kind = .receiver → t.find? name = none) (h : lookup false name inner = some location) :
    fromInitializer location = location := by
  induction inner generalizing location with
  | nil => cases h
  | cons t outer ih =>
    rw [List.forall_mem_cons] at hlocals hreceivers
    have hinner := fun {found} => @ih found hlocals.2 hreceivers.2
    unfold lookup at h
    cases hk : t.kind with
    | locals => exact absurd hk hlocals.1
    | globals => simp [hk] at h
    | receiver =>
      simp only [hk, hreceivers.1 hk] at h
      obtain ⟨found, hfound, rfl⟩ := Option.map_eq_some_iff.mp h
      rw [hinner hfound, hinner hfound]
    | fields | methods =>
      cases hslot : t.find? name with
      | none =>
        simp only [hk, hslot] at h
        exact hinner h
      | some slot =>
        simp only [hk, hslot, Option.some.injEq] at h
        rw [← h, Table.locate, hk]
        rfl

/-! ## Growing scopes -/

/-- Every table of a scope grows. -/
abbrev Grows (inner inner' : Scope) : Prop := List.Forall₂ Table.Grows inner inner'

theorem Grows.refl (inner : Scope) : Grows inner inner := List.forall₂_same.mpr fun t _ => .refl t

theorem Grows.kinds (h : Grows inner inner') : inner'.map Table.kind = inner.map Table.kind := by
  induction h with
  | nil => rfl
  | cons hhead _ ih => simp [hhead.kind, ih]

/-- The innermost table takes the names that are assigned for the first time: a function does, and field
initializers make fields of them. -/
def Takes : Scope → Prop
  | t :: outer =>
    t.kind = .locals ∨ (t.kind = .receiver ∧ ∃ f m, outer = [f, m] ∧ f.kind = .fields ∧ m.kind = .methods)
  | [] => False

theorem put_inner (h : IsInner inner) (htakes : Takes inner) (globals : List Text) (name : Text) :
    put name (inner ++ [⟨.globals, globals⟩])
      = ((put name inner).1, (put name inner).2 ++ [⟨.globals, globals⟩]) := by
  cases inner with
  | nil => exact absurd htakes id
  | cons t outer =>
    have hlookup := lookup_inner h globals name
    rcases htakes with hk | ⟨hk, f, m, rfl, hf, -⟩
    · simp only [List.cons_append, put, hk] at hlookup ⊢
      rw [hlookup]
      cases lookup false name (t :: outer) <;> rfl
    · have hlookup' := lookup_inner h.tail globals name
      simp only [List.cons_append, List.nil_append, put, hk, hf] at hlookup' ⊢
      cases t.find? name with
      | some slot => rfl
      | none =>
        rw [hlookup']
        cases lookup false name [f, m] <;> rfl

theorem put_spec (htakes : Takes inner) (name : Text) :
    Grows inner (put name inner).2 ∧ lookup false name (put name inner).2 = some (put name inner).1 := by
  cases inner with
  | nil => exact absurd htakes id
  | cons t outer =>
    rcases htakes with hk | ⟨hk, f, m, rfl, hf, hm⟩
    · simp only [put, hk]
      cases hfound : lookup false name (t :: outer) with
      | some location => exact ⟨.refl _, hfound⟩
      | none =>
        obtain ⟨hgrows, hslot⟩ := Table.add_spec (by rw [hk]; rfl) name
        refine ⟨.cons hgrows (Grows.refl outer), ?_⟩
        simp only [declare, lookup, hgrows.kind, hk, hslot]
    · simp only [put, hk]
      cases hthis : t.find? name with
      | some slot =>
        refine ⟨.refl _, ?_⟩
        simp only [lookup, hk, hthis]
      | none =>
        -- a member, old or new
        simp only [hf]
        cases hfound : lookup false name [f, m] with
        | some location =>
          refine ⟨.refl _, ?_⟩
          have hmember : fromInitializer location = location :=
            fromInitializer_of_lookup (by simp [hf, hm]) (by simp [hf, hm]) hfound
          rw [lookup]
          simp only [hk, hthis, hfound, Option.map_some, hmember]
        | none =>
          obtain ⟨hgrows, hslot⟩ := Table.add_spec (by rw [hf]; rfl) name
          refine ⟨.cons (.refl t) (.cons hgrows (Grows.refl [m])), ?_⟩
          simp only [declare, lookup, hk, hthis, hgrows.kind, hf, hslot, Table.locate, Option.map_some,
            fromInitializer]

theorem put_globals (globals : List Text) (name : Text) :
    ∃ slot more, put name [⟨.globals, globals⟩] = (.lexical 0 slot, [⟨.globals, globals ++ more⟩]) ∧
      (globals ++ more).idxOf? name = some slot ∧ (∀ other ∈ more, other = name) ∧
      (globals.Nodup → (globals ++ more).Nodup) := by
  have hnodup := fun h : globals.Nodup => Table.nodup_add (t := ⟨.globals, globals⟩) h name
  unfold Table.add Table.find? at hnodup
  unfold put declare Table.add Table.find?
  cases hslot : globals.idxOf? name with
  | some slot => exact ⟨slot, [], by simp [Table.locate], by simpa using hslot, by simp, by simp⟩
  | none =>
    simp only [hslot] at hnodup
    refine ⟨globals.length, [name], rfl, ?_, by simp, hnodup⟩
    exact idxOf?_concat_of_notMem (List.idxOf?_eq_none_iff.mp hslot)

end

end Scope

end StoneLang
