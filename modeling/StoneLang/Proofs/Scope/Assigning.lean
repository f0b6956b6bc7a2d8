/-
  The place of a name that is assigned, and the place where it is read.

  PROGRAM: `Scope.put` gives the location that an assignment writes, and declares the name if no table in sight has it;
  `Scope.get?` gives the location of a name that is read.  The two search the tables separately.

  SPEC: after an assignment a read finds the same location, a second assignment changes nothing, no other name moves as
  seen from any scope, and only the global level declares global names (`Scope.assigned_name_is_found`).  There is one
  exception.  A field initializer has a scope of its own, a hop that a read counts and an assignment does not; so a
  variable of a function around the class is read one hop further out than it is assigned.

  The crux is that an assignment changes at most one table, by one name (`Scope.declares_put`).
-/
import StoneLang.Proofs.Scope.Tables

namespace StoneLang

namespace Table

variable {t : Table} {name other : Text}

theorem find?_add (h : other ≠ name) : (t.add name).2.find? other = t.find? other := by
  unfold add
  cases t.find? name with
  | some slot => rfl
  | none =>
    show (t.names ++ [name]).idxOf? other = t.names.idxOf? other
    cases hslot : t.names.idxOf? other with
    | some slot => exact idxOf?_of_isPrefix (List.prefix_append ..) hslot
    | none =>
      rw [List.idxOf?_eq_none_iff] at hslot ⊢
      simp [hslot, h]

theorem kind_add (t : Table) (name : Text) : (t.add name).2.kind = t.kind := by
  unfold add
  cases t.find? name <;> rfl

theorem add_of_find? (h : t.find? name = some slot) : t.add name = (slot, t) := by
  unfold add
  rw [h]

theorem find?_ofReceiver (h : name ≠ thisName) : ofReceiver.find? name = none := by
  rw [find?, List.idxOf?_eq_none_iff]
  simpa [ofReceiver] using h

/-- A table before and after an assignment to `name` in a scope that it belongs to. -/
def Declares (name : Text) (t t' : Table) : Prop := t' = t ∨ t' = (t.add name).2

theorem Declares.kind (h : t.Declares name t') : t'.kind = t.kind := by
  rcases h with rfl | rfl
  · rfl
  · exact kind_add t name

theorem Declares.find? (h : t.Declares name t') (hother : other ≠ name) : t'.find? other = t.find? other := by
  rcases h with rfl | rfl
  · rfl
  · exact find?_add hother

end Table

namespace Scope

variable {name other : Text} {s s' : Scope} {t : Table} {location : Location}

/-! ## Searching -/

theorem get?_of_lookup (h : lookup false name s = some location) : s.get? name = some location := by
  unfold get?
  induction s generalizing location with
  | nil => cases h
  | cons t outer ih =>
    unfold lookup at h ⊢
    cases hslot : t.find? name with
    | some slot => cases hk : t.kind <;> simp_all
    | none =>
      cases hk : t.kind with
      | globals => simp [hk] at h
      | fields | methods =>
        simp only [hk, hslot] at h ⊢
        exact ih h
      | locals | receiver =>
        simp only [hk, hslot] at h ⊢
        obtain ⟨inner, hinner, rfl⟩ := Option.map_eq_some_iff.mp h
        rw [ih hinner]
        rfl

theorem get?_of_declares (h : List.Forall₂ (Table.Declares name) s s') (hother : other ≠ name) :
    s'.get? other = s.get? other := by
  unfold get?
  induction h with
  | nil => rfl
  | @cons t t' outer outer' hhead hrest ih =>
    -- hops are counted by the roles of the tables
    have hfrom : fromBody outer' = fromBody outer := by
      funext location
      have hstarts : fromBody.startsWithMembers outer' = fromBody.startsWithMembers outer := by
        cases hrest with
        | nil => rfl
        | cons hnext _ => simp only [fromBody.startsWithMembers, Table.isMembers, hnext.kind]
      cases location <;> simp only [fromBody, hstarts]
    have hlocate : t'.locate = t.locate := by
      funext slot
      simp only [Table.locate, hhead.kind]
    simp only [lookup, hhead.kind, hhead.find? hother, hlocate, hfrom, ih]

/-! ## Assigning -/

/-- The chains of tables that can be made, the empty one too: the globals are outermost, a receiver is right inside the
members of its class, and every table may hold any names. -/
inductive Chain : Scope → Prop where
  | nil : Chain []
  | globals (names : List Text) : Chain [⟨.globals, names⟩]
  | table (kind : TableKind) (names : List Text) {outer : Scope} (role : kind = .locals ∨ kind = .fields ∨ kind = .methods)
      (around : Chain outer) : Chain (⟨kind, names⟩ :: outer)
  | receiver {t : Table} {outer : Scope} (members : t.isMembers = true) (around : Chain (t :: outer)) :
      Chain (.ofReceiver :: t :: outer)

theorem Chain.find?_receiver (h : Chain s) (hname : name ≠ thisName) : ∀ t ∈ s, t.kind = .receiver → t.find? name = none := by
  induction h with
  | nil | globals names => simp
  | table kind names role around ih =>
    refine List.forall_mem_cons.mpr ⟨fun hk => ?_, ih⟩
    rcases role with rfl | rfl | rfl <;> cases hk
  | receiver members around ih => exact List.forall_mem_cons.mpr ⟨fun _ => Table.find?_ofReceiver hname, ih⟩

/-- Outside the field initializers an assignment finds the name inside the globals, or declares it right there. -/
theorem put_here (outer : Scope) (hkind : t.kind ≠ .receiver) (name : Text) :
    (t.kind ≠ .globals ∧ lookup false name (t :: outer) = some (put name (t :: outer)).1 ∧
        (put name (t :: outer)).2 = t :: outer) ∨
      put name (t :: outer) = (t.locate (t.add name).1, (t.add name).2 :: outer) := by
  have hdeclare : declare t outer name = (t.locate (t.add name).1, (t.add name).2 :: outer) := by
    simp only [declare, Table.locate, Table.kind_add]
  cases hk : t.kind with
  | receiver => exact absurd hk hkind
  | globals =>
    simp only [put, hk]
    exact .inr hdeclare
  | locals | fields | methods =>
    simp only [put, hk]
    cases lookup false name (t :: outer) with
    | none => exact .inr hdeclare
    | some location => exact .inl ⟨fun h => (by cases h), rfl, rfl⟩

theorem found_here (outer : Scope) (hkind : t.kind ≠ .receiver) (name : Text) :
    (put name (t :: outer)).2.get? name = some (put name (t :: outer)).1 ∧
      put name (put name (t :: outer)).2 = put name (t :: outer) := by
  rcases put_here outer hkind name with ⟨-, hfound, hsame⟩ | hput
  · rw [hsame]
    exact ⟨get?_of_lookup hfound, rfl⟩
  · rw [hput]
    have hslot := Table.find?_add_self t name
    have hagain := Table.add_of_find? hslot
    have hlocate : (t.add name).2.locate = t.locate := by
      funext slot
      simp only [Table.locate, Table.kind_add]
    cases hk : t.kind with
    | receiver => exact absurd hk hkind
    | globals => simp [get?, lookup, put, declare, Table.kind_add, hk, hslot, hagain, hlocate]
    | locals | fields | methods => simp [get?, lookup, put, Table.kind_add, hk, hslot, hlocate]

/-- A field initializer has the receiver at hand, and leaves every other name to the members. -/
theorem put_receiver (name : Text) (s : Scope) :
    name = thisName ∧ put name (.ofReceiver :: s) = (.lexical 0 0, .ofReceiver :: s) ∧
        get? (.ofReceiver :: s) name = some (.lexical 0 0) ∨
      name ≠ thisName ∧ put name (.ofReceiver :: s) = ((put name s).1, .ofReceiver :: (put name s).2) ∧
        ∀ s' : Scope, get? (.ofReceiver :: s') name = (s'.get? name).map fromInitializer := by
  by_cases hname : name = thisName
  · subst hname
    have hslot : Table.ofReceiver.find? thisName = some 0 := by decide
    refine .inl ⟨rfl, ?_, ?_⟩
    · simp only [put, hslot]
      rfl
    · simp only [get?, lookup, hslot]
      rfl
  · have hslot := Table.find?_ofReceiver hname
    refine .inr ⟨hname, ?_, fun s' => ?_⟩
    · simp only [put, hslot]
      rfl
    · simp only [get?, lookup, hslot]
      rfl

theorem declares_put (name : Text) (s : Scope) : List.Forall₂ (Table.Declares name) s (put name s).2 := by
  have hrefl : ∀ s : Scope, List.Forall₂ (Table.Declares name) s s := fun s => List.forall₂_same.mpr fun _ _ => .inl rfl
  induction s with
  | nil => exact .nil
  | cons t outer ih =>
    by_cases hkind : t.kind = .receiver
    · simp only [put, hkind]
      cases t.find? name with
      | some slot => exact hrefl _
      | none => exact .cons (.inl rfl) ih
    · rcases put_here outer hkind name with ⟨-, -, hput⟩ | hput
      · rw [hput]
        exact hrefl _
      · rw [hput]
        exact .cons (.inr rfl) (hrefl outer)

theorem globals_put (h : Chain s) (hinner : s.head?.map Table.kind ≠ some .globals) (name : Text) :
    List.Forall₂ (fun t t' => t.kind = .globals → t' = t) s (put name s).2 := by
  have hsame : ∀ s : Scope, List.Forall₂ (fun t t' : Table => t.kind = .globals → t' = t) s s :=
    fun s => List.forall₂_same.mpr fun _ _ _ => rfl
  have hhere : ∀ {t : Table} {outer : Scope}, t.kind ≠ .receiver → t.kind ≠ .globals →
      List.Forall₂ (fun t t' => t.kind = .globals → t' = t) (t :: outer) (put name (t :: outer)).2 := by
    intro t outer hkind hglobals
    rcases put_here outer hkind name with ⟨-, -, hput⟩ | hput
    · rw [hput]
      exact hsame _
    · rw [hput]
      exact .cons (fun hk => absurd hk hglobals) (hsame outer)
  cases h with
  | nil => exact .nil
  | globals names => exact absurd rfl hinner
  | table kind names role around => rcases role with rfl | rfl | rfl <;> exact hhere nofun nofun
  | @receiver t outer members around =>
    have hmember : t.kind = .fields ∨ t.kind = .methods := by simpa [Table.isMembers] using members
    rcases put_receiver name (t :: outer) with ⟨-, hput, -⟩ | ⟨-, hput, -⟩
    · rw [hput]
      exact hsame _
    · rw [hput]
      exact .cons (fun _ => rfl) (hhere (by rcases hmember with hk | hk <;> simp [hk])
        (by rcases hmember with hk | hk <;> simp [hk]))

/-- A name is read where it was assigned, a second assignment finds the same place and declares nothing, no other name
moves as seen from any scope of the chain, the ones inside included, and no scope but the global one declares a global
name.  In a field initializer a read counts one hop more than an assignment, which shows only where the name is a
variable of a function around the class. -/
theorem assigned_name_is_found (h : Chain s) (hne : s ≠ []) (name : Text) :
    let location := (put name s).1
    let s' := (put name s).2
    (s'.get? name =
        some (if s.head? = some .ofReceiver ∧ name ≠ thisName then fromInitializer location else location)) ∧
      ((s.head? = some .ofReceiver → ∀ t ∈ s, t.kind ≠ .locals) → s'.get? name = some location) ∧
      put name s' = (location, s') ∧
      (∀ (inner : Scope) (k : Nat) (other : Text), other ≠ name →
        get? ((inner ++ s').drop k) other = get? ((inner ++ s).drop k) other) ∧
      (s.head?.map Table.kind ≠ some .globals →
        List.Forall₂ (fun t t' => t.kind = .globals → t' = t) s s') := by
  intro location s'
  have hothers : ∀ (inner : Scope) (k : Nat) (other : Text), other ≠ name →
      get? ((inner ++ s').drop k) other = get? ((inner ++ s).drop k) other := by
    intro inner k other hother
    have hinner : List.Forall₂ (Table.Declares name) inner inner := List.forall₂_same.mpr fun _ _ => .inl rfl
    exact get?_of_declares (List.forall₂_drop k (List.rel_append hinner (declares_put name s))) hother
  refine and_assoc.mp (and_assoc.mp ⟨?_, hothers, fun hinner => globals_put h hinner name⟩)
  -- outside the field initializers
  have hplain : ∀ {t : Table} {outer : Scope}, s = t :: outer → t.kind ≠ .receiver → (s'.get? name =
        some (if s.head? = some .ofReceiver ∧ name ≠ thisName then fromInitializer location else location) ∧
      ((s.head? = some .ofReceiver → ∀ t ∈ s, t.kind ≠ .locals) → s'.get? name = some location)) ∧
      put name s' = (location, s') := by
    rintro t outer rfl hkind
    obtain ⟨hfound, hagain⟩ := found_here outer hkind name
    rw [if_neg]
    · exact ⟨⟨hfound, fun _ => hfound⟩, hagain⟩
    · rintro ⟨hhead, -⟩
      cases hhead
      exact hkind rfl
  cases h with
  | nil => exact absurd rfl hne
  | globals names => exact hplain rfl nofun
  | table kind names role around => exact hplain rfl (by rcases role with rfl | rfl | rfl <;> nofun)
  | @receiver t outer members around =>
    have hmember : t.kind = .fields ∨ t.kind = .methods := by simpa [Table.isMembers] using members
    have hkind : t.kind ≠ .receiver := by rcases hmember with hk | hk <;> simp [hk]
    obtain ⟨hfound, hagain⟩ := found_here outer hkind name
    rcases put_receiver name (t :: outer) with ⟨rfl, hput, hget⟩ | ⟨hname, hput, hget⟩
    · obtain ⟨hlocation, hsame⟩ : location = .lexical 0 0 ∧ s' = .ofReceiver :: t :: outer := Prod.ext_iff.mp hput
      rw [if_neg fun hother => hother.2 rfl, hlocation, hsame]
      exact ⟨⟨hget, fun _ => hget⟩, hput⟩
    · obtain ⟨hlocation, hmade⟩ : location = (put name (t :: outer)).1 ∧ s' = .ofReceiver :: (put name (t :: outer)).2 :=
        Prod.ext_iff.mp hput
      rw [if_pos ⟨rfl, hname⟩, hlocation, hmade, hget, hfound, Option.map_some]
      refine ⟨⟨rfl, fun hlocals => ?_⟩, ?_⟩
      · -- what the members find or declare is a member
        refine congrArg some ?_
        rcases put_here outer hkind name with ⟨-, hlookup, -⟩ | hnew
        · exact fromInitializer_of_lookup (fun u hu => hlocals rfl u (List.mem_cons_of_mem _ hu))
            (around.find?_receiver hname) hlookup
        · rw [hnew]
          rcases hmember with hk | hk <;> simp only [Table.locate, hk, fromInitializer]
      · rcases put_receiver name (put name (t :: outer)).2 with ⟨hthis, -, -⟩ | ⟨-, hput', -⟩
        · exact absurd hthis hname
        · rw [hput', hagain]

/-- The scope of the field initializers of a class inside a function that has a variable `x`. -/
def classInFunction : Scope :=
  [.ofReceiver, ⟨.fields, []⟩, ⟨.locals, [text "x"]⟩, ⟨.globals, []⟩]

/-- A field initializer there assigns to `x` where the fields see it, and reads it one hop further out. -/
theorem outer_variable_is_missed :
    (put (text "x") classInFunction).1 = .lexical 0 0 ∧
      get? (put (text "x") classInFunction).2 (text "x") = some (.lexical 1 0) := by
  have hchain : Chain classInFunction :=
    .receiver rfl (.table .fields [] (.inr (.inl rfl)) (.table .locals _ (.inl rfl) (.globals [])))
  have hread := (assigned_name_is_found hchain (List.cons_ne_nil _ _) (text "x")).1
  have hassigned : (put (text "x") classInFunction).1 = .lexical 0 0 := by decide
  rw [hassigned, if_pos ⟨rfl, by decide⟩] at hread
  exact ⟨hassigned, hread⟩

end Scope

end StoneLang
