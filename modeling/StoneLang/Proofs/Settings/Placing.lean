/-
  Placing names under other settings.

  PROGRAM: `resolve` and `resolveClass`, which stop at a limit of nesting, note in the journal what they meet if they
  are watched, and carry along what member accesses remember.

  SPEC: two walks over one tree whose limits differ by `k` declare the same names and note the same places, watched or
  not, and whatever is remembered of members, unless the lower limit is met (`Resolve.Agrees`).
-/
import StoneLang.Proofs.Result
import StoneLang.Proofs.Scope.Walk

namespace StoneLang

def Notes.remembering (notes : Notes) (memory : SiteMap MemberCache → SiteMap MemberCache) : Notes :=
  { notes with caches := memory notes.caches }

/-- The state of a walk with other memories of members and another journal. -/
def Resolving.beside (s : Resolving) (memory : SiteMap MemberCache → SiteMap MemberCache) (records : Array Record) :
    Resolving :=
  { s with notes := s.notes.remembering memory, records }

namespace Resolve

variable {α β : Type}

/-! ## Two walks -/

/-- How a walk ends and one whose limit is higher by `k`: alike, or the first one at its limit. -/
def Agree (k : Nat) (memory : SiteMap MemberCache → SiteMap MemberCache)
    (left right : EStateM.Result Failure Resolving α) : Prop :=
  (∃ records, right = onState (Resolving.beside · memory records) left) ∨
    0 < k ∧ ∃ e s, left = .error e s ∧ e.kind = .stackExhausted

/-- The two walks agree, whatever is remembered of members and stands in the journal. -/
def Agrees (k : Nat) (x y : Resolve α) : Prop :=
  ∀ s memory records, Agree k memory (x s) (y (s.beside memory records))

variable {k : Nat}

theorem Agrees.pure (a : α) : Agrees k (Pure.pure a) (Pure.pure a) := fun _ _ records => .inl ⟨records, rfl⟩

theorem Agrees.throw (e : Failure) : Agrees k (MonadExcept.throw e : Resolve α) (MonadExcept.throw e) :=
  fun _ _ records => .inl ⟨records, rfl⟩

theorem Agrees.bind (hx : Agrees k x y) (hf : ∀ a, Agrees k (f a) (g a)) : Agrees k (x >>= f) (y >>= g) := by
  intro s memory records
  rw [bind_apply, bind_apply]
  rcases hx s memory records with ⟨records', hright⟩ | ⟨hk, e, s', hleft, he⟩
  · rw [hright]
    cases x s with
    | ok a s' => exact hf a s' memory records'
    | error e s' => exact .inl ⟨records', rfl⟩
  · rw [hleft]
    exact .inr ⟨hk, e, s', rfl, he⟩

/-! ## Steps of a walk -/

theorem agrees_note (settings settings' : ResolveSettings) (record record' : Record) :
    Agrees k (note settings record) (note settings' record') := by
  intro s memory records
  refine .inl ?_
  cases hwatched : settings.watched <;> cases hwatched' : settings'.watched <;>
    exact ⟨_, by simp only [note, hwatched, hwatched']; rfl⟩

theorem agrees_enter (t : Table) : Agrees k (enter t) (enter t) := fun _ _ records => .inl ⟨records, rfl⟩

theorem agrees_leave : Agrees k leave leave := by
  rintro ⟨scope, notes, journal⟩ memory records
  cases scope <;> exact .inl ⟨records, rfl⟩

theorem agrees_steps : Paired fun _ x y => Agrees k x y where
  pure := .pure
  bind := .bind
  note settings settings' record := agrees_note settings settings' record record
  get? _ := fun _ _ records => .inl ⟨records, rfl⟩
  put _ := fun _ _ records => .inl ⟨records, rfl⟩
  place _ _ := fun _ _ records => .inl ⟨records, rfl⟩
  unplace _ := fun _ _ records => .inl ⟨records, rfl⟩
  noteSlot _ _ := fun _ _ records => .inl ⟨records, rfl⟩
  noteSize _ _ := fun _ _ records => .inl ⟨records, rfl⟩
  function hvisit _ _ _ := (agrees_enter _).bind fun _ => (hvisit _).bind fun _ => agrees_leave

end Resolve

open Resolve

variable {k : Nat}

/-! ## Trees -/

section
variable (settings settings' : ResolveSettings) (hdepth : settings'.maxDepth = settings.maxDepth + k)

include hdepth

theorem agrees_visit (node : Node) : Agrees k (visit settings node) (visit settings' node) := by
  unfold visit
  rw [hdepth]
  refine agrees_steps.visitWithin settings settings' k (fun node => ?_) settings.maxDepth node
  by_cases hk : 0 < k
  · exact fun s _ _ => .inr ⟨hk, _, s, rfl, rfl⟩
  · obtain rfl : k = 0 := by omega
    show Agrees 0 (MonadExcept.throw _) (MonadExcept.throw _)
    rw [hdepth]
    exact .throw _

theorem agree_resolve (unit : Node) (globals : List Text) (notes : Notes) (memory : SiteMap MemberCache → SiteMap MemberCache) :
    Resolve.Agree k memory (resolve settings unit globals notes)
      (resolve settings' unit globals (notes.remembering memory)) :=
  agrees_visit settings settings' hdepth unit (.start globals notes) memory #[]

/-! ## Classes -/

theorem agrees_layOutClass (title : Text) (members : List Node) (base : Layout) :
    Agrees k (layOutClass settings title members base) (layOutClass settings' title members base) :=
  agrees_steps.layOutClass settings settings' (agrees_visit settings settings' hdepth) agrees_enter agrees_leave
    (fun hf s memory records => hf s (s.beside memory records) rfl s memory records) title members base

theorem agree_resolveClass (title : Text) (members : List Node) (base : Option Layout) (globals : List Text)
    (notes : Notes) (memory : SiteMap MemberCache → SiteMap MemberCache) :
    Resolve.Agree k memory (resolveClass settings title members base globals notes)
      (resolveClass settings' title members base globals (notes.remembering memory)) :=
  agrees_layOutClass settings settings' hdepth title members (base.getD .empty) (.start globals notes) memory #[]

end

/-! ## What is remembered -/

theorem Resolve.Agree.caches {caches : SiteMap MemberCache} {left : EStateM.Result Failure Resolving α}
    (h : Agree 0 (fun _ => caches) left left) : (finalState left).notes.caches = caches := by
  rcases h with ⟨records, hsame⟩ | ⟨hdeeper, -⟩
  · rw [hsame, finalState_onState]
    rfl
  · exact absurd hdeeper (Nat.lt_irrefl 0)

theorem caches_resolve (settings : ResolveSettings) (unit : Node) (globals : List Text) (notes : Notes) :
    (finalState (resolve settings unit globals notes)).notes.caches = notes.caches :=
  (agree_resolve settings settings rfl unit globals notes fun _ => notes.caches).caches

theorem caches_resolveClass (settings : ResolveSettings) (title : Text) (members : List Node) (base : Option Layout)
    (globals : List Text) (notes : Notes) :
    (finalState (resolveClass settings title members base globals notes)).notes.caches = notes.caches :=
  (agree_resolveClass settings settings rfl title members base globals notes fun _ => notes.caches).caches

end StoneLang
