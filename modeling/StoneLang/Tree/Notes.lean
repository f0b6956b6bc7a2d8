/-
  What the passes learn about a tree.

  `Notes` holds, by site: the location of a name, the slot in which a definition is bound, the number of
  slots that a function needs, and what a member access found last.  A site without an entry has not
  been reached, and names without a location are looked up by name.

  `SiteMap` is a table with one entry per site: `get?_set` and `get?_clear` are all that is to know.
-/
import StoneLang.Text.Decimal
import StoneLang.Tree.Basic

namespace StoneLang

/-- Where a name lives. -/
inductive Location where
  /-- The slot `index` of the scope `nest` hops outward. -/
  | lexical (nest index : Nat)
  /-- The field `index` of the receiver, which is in slot zero of the scope `receiver` hops outward. -/
  | field (index receiver : Nat)
  /-- The method `index` of the receiver, found in the same way. -/
  | method (index receiver : Nat)
deriving DecidableEq, Repr

namespace Location

/-- The slot of a location in its scope or in its class. -/
def index : Location → Nat
  | lexical _ index | field index _ | method index _ => index

def isMember : Location → Bool
  | lexical .. => false
  | field .. | method .. => true

/-- The location as it is shown. -/
def shown : Location → Text
  | lexical nest index => Decimal.ofNat nest ++ text ":" ++ Decimal.ofNat index
  | field index receiver =>
    text "field#" ++ Decimal.ofNat index ++ text "(this@" ++ Decimal.ofNat receiver ++ text ")"
  | method index receiver =>
    text "method#" ++ Decimal.ofNat index ++ text "(this@" ++ Decimal.ofNat receiver ++ text ")"

end Location

/-- What a member access found the last time: in the class with the number `classId`, the member is the
field or the method `index`. -/
structure MemberCache where
  classId : Nat
  isField : Bool
  index : Nat
deriving DecidableEq, Repr

/-- A table with at most one entry per site. -/
structure SiteMap (α : Type) where
  entries : Array (Option α)
deriving Repr

namespace SiteMap

variable {α : Type}

def empty : SiteMap α := ⟨#[]⟩

/-- The entry of a site. -/
def get? (m : SiteMap α) (site : Nat) : Option α := (m.entries[site]?).join

def reserve (m : SiteMap α) (n : Nat) : SiteMap α :=
  ⟨m.entries ++ Array.replicate (n - m.entries.size) none⟩

/-- The table with the entry of `site` replaced. -/
def put (m : SiteMap α) (site : Nat) (entry : Option α) : SiteMap α :=
  ⟨(m.reserve (site + 1)).entries.setIfInBounds site entry⟩

def set (m : SiteMap α) (site : Nat) (a : α) : SiteMap α := m.put site (some a)

def clear (m : SiteMap α) (site : Nat) : SiteMap α := m.put site none

theorem get?_reserve (m : SiteMap α) (n : Nat) (site : Nat) :
    (m.reserve n).get? site = m.get? site := by
  unfold reserve get?
  rw [Array.getElem?_append]
  split
  · rfl
  · next h =>
    -- beyond the old entries the reserved places are all empty
    rw [Array.getElem?_replicate, Array.getElem?_eq_none (Nat.le_of_not_lt h)]
    split <;> rfl

theorem get?_put (m : SiteMap α) (site other : Nat) (entry : Option α) :
    (m.put site entry).get? other = if other = site then entry else m.get? other := by
  have hsize : site < (m.reserve (site + 1)).entries.size := by
    simp only [reserve, Array.size_append, Array.size_replicate]
    omega
  by_cases h : other = site
  · subst h
    simp [put, get?, hsize]
  · have hkeep := get?_reserve m (site + 1) other
    simp only [get?] at hkeep
    simp [put, get?, h, Ne.symm h, hkeep]

@[simp] theorem get?_set (m : SiteMap α) (site other : Nat) (a : α) :
    (m.set site a).get? other = if other = site then some a else m.get? other :=
  get?_put m site other (some a)

@[simp] theorem get?_clear (m : SiteMap α) (site other : Nat) :
    (m.clear site).get? other = if other = site then none else m.get? other :=
  get?_put m site other none

@[simp] theorem get?_empty (site : Nat) : (empty : SiteMap α).get? site = none := by
  simp [empty, get?]

end SiteMap

/-- What is known about the sites of all trees. -/
structure Notes where
  /-- The locations of names. -/
  places : SiteMap Location
  /-- The slots in which functions, methods and classes are bound. -/
  slots : SiteMap Nat
  /-- The numbers of slots that functions need. -/
  sizes : SiteMap Nat
  /-- What member accesses found last. -/
  caches : SiteMap MemberCache

def Notes.empty : Notes := ⟨.empty, .empty, .empty, .empty⟩

end StoneLang
