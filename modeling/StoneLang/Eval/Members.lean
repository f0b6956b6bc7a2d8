/-
  Members of objects.

  `searchMember` finds a member in the layout of a class, the fields first.  A member access remembers
  what it found and for which class, and does not search again while the class stays the same; the
  memory changes how fast a member is found and never which one.
-/
import StoneLang.Eval.Names

namespace StoneLang

def searchMember (c : Class) (name : Text) : Option MemberCache :=
  match c.layout.field? name with
  | some index => some ⟨c.id, true, index⟩
  | none => (c.layout.method? name).map fun index => ⟨c.id, false, index⟩

namespace Run

def remember (site : Site) (entry : MemberCache) : Run Unit :=
  modify fun m => { m with notes := { m.notes with caches := m.notes.caches.set site entry } }

/-- The member of an object that an access at `site` refers to. -/
def lookupMember (object : Nat) (site : Site) (title : Label) : Run MemberCache := do
  match (← get).classOf? object with
  | none => fault (.noMember [] title.text) (orLine title.line 0)
  | some c =>
    match ((← get).notes.caches.get? site).filter fun entry => entry.classId == c.id with
    | some entry => return entry
    | none =>
      match searchMember c title.text with
      | some entry =>
        remember site entry
        return entry
      | none => fault (.noMember c.name title.text) (orLine title.line 0)

/-- The member of an object that an access at `site` reads. -/
def readMember (object : Nat) (site : Site) (title : Label) : Run Value := do
  let entry ← lookupMember object site title
  if entry.isField then
    return (fieldAt? (← get) object entry.index).getD .null
  else
    match methodAt? (← get) object entry.index with
    | some d => return .method object d
    | none => return .null

/-- Assigns to a member. -/
def assignMember (target : Value) (site : Site) (title : Label) (value : Value) : Run Unit := do
  match target with
  | .object object =>
    let entry ← lookupMember object site title
    if entry.isField then setField object entry.index value
    else
      fault (.methodAssignment ((← get).className object ++ text "." ++ title.text))
        (orLine title.line 0)
  | other => fault (.noMemberStore title.text other.kind) (orLine title.line 0)

end Run

end StoneLang
