/-
  The text of a value whose arrays may share each other and contain each other in circles.

  PROGRAM: `Machine.render`, a walk that carries the arrays it is inside of and is given one level for
  every array of the store.

  SPEC: the unfolding of the value.  It is the tree that opens every array except one that it is
  inside of already (`Unfolds`).  The relation has no bound of its own, so a tree that stands in it is
  a walk that ended.

  An open array is one of the store and is not opened again, so the open arrays are never more than the
  arrays of the store: that is why the levels are enough (`exists_unfolds`).  A walk that keeps one set
  of open arrays for the whole text, opens an array before its elements and closes it after them, finds
  the same text, because every element gives the set back as it was (`renderOpening_eq`).
-/
import Mathlib.Data.Finset.Basic
import StoneLang.Render

namespace StoneLang

/-! ## The unfolding of a value -/

/-- What is shown of a value. -/
inductive Unfolding where
  /-- A value that is no array. -/
  | single (shown : Text)
  /-- An array inside itself. -/
  | again
  /-- The elements of an array. -/
  | row (elements : List Unfolding)

mutual

/-- The text of an unfolding: the elements of a row stand in brackets, with commas between them. -/
def Unfolding.text : Unfolding → Text
  | .single shown => shown
  | .again => StoneLang.text "[...]"
  | .row elements =>
    StoneLang.text "[" ++ Text.join (StoneLang.text ", ") (Unfolding.texts elements)
      ++ StoneLang.text "]"

def Unfolding.texts : List Unfolding → List Text
  | [] => []
  | tree :: trees => tree.text :: Unfolding.texts trees

end

namespace Machine

variable {m : Machine}

def elementsOf (m : Machine) (ref : Nat) : List Value := ((m.arrays[ref]?).getD #[]).toList

mutual

/-- The tree unfolds the value, inside the arrays `above`. -/
inductive Unfolds (m : Machine) : List Nat → Value → Unfolding → Prop where
  | single {above : List Nat} {value : Value} (flat : ∀ ref, value ≠ .array ref) :
    Unfolds m above value (.single (m.renderFlat value))
  | again {above : List Nat} {ref : Nat} (inside : ref ∈ above) :
    Unfolds m above (.array ref) .again
  | row {above : List Nat} {ref : Nat} {trees : List Unfolding} (outside : ref ∉ above)
    (each : UnfoldsEach m (ref :: above) (m.elementsOf ref) trees) :
    Unfolds m above (.array ref) (.row trees)

/-- The trees unfold the values one by one. -/
inductive UnfoldsEach (m : Machine) : List Nat → List Value → List Unfolding → Prop where
  | nil {above : List Nat} : UnfoldsEach m above [] []
  | cons {above : List Nat} {value : Value} {tree : Unfolding} {values : List Value}
    {trees : List Unfolding} (first : Unfolds m above value tree)
    (rest : UnfoldsEach m above values trees) :
    UnfoldsEach m above (value :: values) (tree :: trees)

end

mutual

theorem Unfolds.unique :
    Unfolds m above value tree → Unfolds m above value other → tree = other
  | .single _, .single _ => rfl
  | .single flat, .again _ | .single flat, .row _ _ => absurd rfl (flat _)
  | .again _, .single flat | .row _ _, .single flat => absurd rfl (flat _)
  | .again _, .again _ => rfl
  | .again inside, .row outside _ | .row outside _, .again inside => absurd inside outside
  | .row _ each, .row _ each' => congrArg Unfolding.row (each.unique each')

theorem UnfoldsEach.unique :
    UnfoldsEach m above values trees → UnfoldsEach m above values others → trees = others
  | .nil, .nil => rfl
  | .cons first rest, .cons first' rest' =>
    congrArg₂ List.cons (first.unique first') (rest.unique rest')

end

/-! ## The levels are enough -/

variable {opened : List Nat} {ref : Nat}

theorem length_le_arrays (different : opened.Nodup) (known : ∀ ref ∈ opened, ref < m.arrays.size) :
    opened.length ≤ m.arrays.size := by
  have sub : opened ⊆ List.range m.arrays.size := by
    intro ref h
    exact List.mem_range.mpr (known ref h)
  have le := (different.subperm sub).length_le
  rwa [List.length_range] at le

theorem elementsOf_of_le (h : m.arrays.size ≤ ref) : m.elementsOf ref = [] := by
  show ((m.arrays[ref]?).getD #[]).toList = []
  rw [Array.getElem?_eq_none h]
  rfl

theorem renderWithin_of_flat (flat : ∀ ref, value ≠ .array ref) (levels : Nat)
    (opened : List Nat) : m.renderWithin levels opened value = m.renderFlat value := by
  unfold renderWithin
  split
  · exact absurd rfl (flat _)
  · rfl

theorem renderWithin_of_mem (inside : ref ∈ opened) (levels : Nat) :
    m.renderWithin (levels + 1) opened (.array ref) = text "[...]" := by
  show (if opened.contains ref then text "[...]" else _) = text "[...]"
  rw [if_pos (List.contains_iff_mem.mpr inside)]

theorem renderWithin_of_not_mem (outside : ref ∉ opened) (levels : Nat) :
    m.renderWithin (levels + 1) opened (.array ref)
      = text "[" ++ Text.join (text ", ")
          ((m.elementsOf ref).map (m.renderWithin levels (ref :: opened))) ++ text "]" := by
  show (if opened.contains ref then text "[...]" else _) = _
  rw [if_neg (mt List.contains_iff_mem.mp outside)]
  rfl

theorem exists_unfoldsEach (values : List Value)
    (each : ∀ value ∈ values, ∃ tree, m.Unfolds above value tree ∧ shown value = tree.text) :
    ∃ trees, m.UnfoldsEach above values trees ∧ values.map shown = Unfolding.texts trees := by
  induction values with
  | nil => exact ⟨[], .nil, rfl⟩
  | cons value values ih =>
    obtain ⟨tree, first, eq⟩ := each value List.mem_cons_self
    obtain ⟨trees, rest, eqs⟩ := ih fun v h => each v (List.mem_cons_of_mem _ h)
    refine ⟨tree :: trees, .cons first rest, ?_⟩
    rw [List.map_cons, eq, eqs]
    rfl

/-- With one level for every array that is not open yet, and one more, a value is shown as its
unfolding. -/
theorem exists_unfolds (different : opened.Nodup) (known : ∀ ref ∈ opened, ref < m.arrays.size)
    (enough : m.arrays.size < levels + opened.length) (value : Value) :
    ∃ tree, m.Unfolds opened value tree ∧ m.renderWithin levels opened value = tree.text := by
  induction levels generalizing opened value with
  | zero =>
    have := length_le_arrays different known
    omega
  | succ levels ih =>
    by_cases flat : ∀ ref, value ≠ .array ref
    · exact ⟨_, .single flat, renderWithin_of_flat flat _ _⟩
    obtain ⟨ref, rfl⟩ := not_forall_not.mp flat
    by_cases inside : ref ∈ opened
    · exact ⟨_, .again inside, renderWithin_of_mem inside levels⟩
    -- Only an array of the store has elements, and then it counts among the open ones below.
    have each : ∀ value ∈ m.elementsOf ref, ∃ tree, m.Unfolds (ref :: opened) value tree ∧
        m.renderWithin levels (ref :: opened) value = tree.text := by
      intro element h
      have lt : ref < m.arrays.size := by
        by_contra le
        rw [elementsOf_of_le (Nat.le_of_not_lt le)] at h
        exact List.not_mem_nil h
      apply ih
      · exact List.nodup_cons.mpr ⟨inside, different⟩
      · exact List.forall_mem_cons.mpr ⟨lt, known⟩
      · rw [List.length_cons]
        omega
    obtain ⟨trees, unfolded, eq⟩ := exists_unfoldsEach _ each
    refine ⟨.row trees, .row inside unfolded, ?_⟩
    rw [renderWithin_of_not_mem inside, eq]
    rfl

/-! ## One set of open arrays for the whole text -/

/-- The walk that keeps the open arrays in one set: an array is opened before its elements are shown
and closed after them. -/
def renderOpening (m : Machine) : Nat → Value → StateM (Finset Nat) Text
  | levels + 1, .array ref => do
    if ref ∈ (← get) then
      return text "[...]"
    else
      modify fun opened => insert ref opened
      let parts ← (m.elementsOf ref).mapM (m.renderOpening levels)
      modify fun opened => opened.erase ref
      return text "[" ++ Text.join (text ", ") parts ++ text "]"
  | _, value => return m.renderFlat value

theorem mapM_run_of_restores {opened : Finset Nat} {step : Value → StateM (Finset Nat) Text}
    {shown : Value → Text} (each : ∀ value, (step value).run opened = (shown value, opened))
    (values : List Value) : (values.mapM step).run opened = (values.map shown, opened) := by
  induction values with
  | nil => rfl
  | cons value values ih =>
    rw [List.mapM_cons, StateT.run_bind, each]
    show (values.mapM step >>= fun parts => pure (shown value :: parts)).run opened = _
    rw [StateT.run_bind, ih]
    rfl

/-- Showing a value with one set for all gives the text of the walk that carries the arrays it is
inside of, and gives the set back. -/
theorem renderOpening_eq (levels : Nat) {marked : Finset Nat} (same : ∀ ref, ref ∈ marked ↔ ref ∈ opened)
    (value : Value) :
    (m.renderOpening levels value).run marked = (m.renderWithin levels opened value, marked) := by
  induction levels generalizing opened marked value with
  | zero => rfl
  | succ levels ih =>
    by_cases flat : ∀ ref, value ≠ .array ref
    · rw [renderWithin_of_flat flat]
      unfold renderOpening
      split
      · exact absurd rfl (flat _)
      · rfl
    obtain ⟨ref, rfl⟩ := not_forall_not.mp flat
    by_cases inside : ref ∈ opened
    · rw [renderWithin_of_mem inside]
      have marked' := (same ref).mpr inside
      simp only [renderOpening, StateT.run_bind]
      show (if ref ∈ marked then (pure (text "[...]") : StateM _ _) else _).run marked = _
      rw [if_pos marked']
      rfl
    · rw [renderWithin_of_not_mem inside]
      have free := mt (same ref).mp inside
      have below : ∀ other, other ∈ insert ref marked ↔ other ∈ ref :: opened := by
        intro other
        rw [Finset.mem_insert, List.mem_cons, same]
      have parts := mapM_run_of_restores (fun element => ih below element) (m.elementsOf ref)
      simp only [renderOpening, StateT.run_bind]
      show (if ref ∈ marked then (pure (text "[...]") : StateM _ _) else _).run marked = _
      rw [if_neg free]
      show (((m.elementsOf ref).mapM (m.renderOpening levels)).run (insert ref marked) >>= fun
        (parts, after) => (pure (text "[" ++ Text.join (text ", ") parts ++ text "]", after.erase ref)
          : Id (Text × Finset Nat))) = _
      rw [parts]
      show (_, (insert ref marked).erase ref) = _
      rw [Finset.erase_insert free]

/-- Every value is shown as its unfolding, of which there is exactly one: an array stands for itself
exactly where it is inside of itself, and is shown in full everywhere else.  More levels show no more.
One set of open arrays gives the same text, and showing any element from any set gives the set back. -/
theorem render_unfolds (m : Machine) (value : Value) :
    (∃ tree, (∀ other, m.Unfolds [] value other ↔ other = tree) ∧ m.render value = tree.text) ∧
    (∀ levels, m.arrays.size < levels → m.renderWithin levels [] value = m.render value) ∧
    (m.renderOpening (m.arrays.size + 1) value).run ∅ = (m.render value, ∅) ∧
    ∀ levels opened element, ((m.renderOpening levels element).run opened).2 = opened := by
  have shown : ∀ levels, m.arrays.size < levels →
      ∃ tree, m.Unfolds [] value tree ∧ m.renderWithin levels [] value = tree.text := by
    intro levels enough
    apply exists_unfolds List.nodup_nil
    · intro ref h
      exact absurd h List.not_mem_nil
    · exact enough
  obtain ⟨tree, unfolded, eq⟩ := shown _ (Nat.lt_succ_self _)
  refine ⟨⟨tree, ?_, eq⟩, ?_, ?_, ?_⟩
  · intro other
    constructor
    · intro h
      exact h.unique unfolded
    · rintro rfl
      exact unfolded
  · intro levels enough
    obtain ⟨other, unfolded', eq'⟩ := shown levels enough
    rw [eq', unfolded'.unique unfolded]
    exact eq.symm
  · exact renderOpening_eq _ (by simp) value
  · intro levels opened element
    have same : ∀ ref, ref ∈ opened ↔ ref ∈ opened.toList := fun ref => Finset.mem_toList.symm
    rw [renderOpening_eq levels same element]

-- The first array holds the second twice, and both hold the first: the second is shown in full at both
-- places, the first only once.
example :
    ({ Machine.start ⟨0, true, false, 0⟩ (.ofText []) none 0 with
        arrays := #[#[.array 1, .array 1, .integer 7], #[.array 0]] } : Machine).render (.array 0)
      = text "[[[...]], [[...]], 7]" := by decide +kernel

end Machine

end StoneLang
