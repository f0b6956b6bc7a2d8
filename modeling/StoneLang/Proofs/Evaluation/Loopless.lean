/-
  Running without loops.

  PROGRAM: `Run.execute`, whose nesting is bounded by the settings and whose loops are bounded by the number of rounds
  that the settings allow.

  SPEC: a unit without loops, run on a machine that holds no loops, ends by itself: with a value or with a failure other
  than that of a loop that is cut short, for every bound on nesting and every number of rounds, also if none is allowed.
  The machine holds no loops then either (`execution_ends_without_loops`).

  That all code is without loops is kept up by running (`Upkeep.ends_execute`), so no loop is met.
-/
import StoneLang.Proofs.Evaluation.Upkeep

namespace StoneLang

/-- No native of the machine fails as if a loop had been cut short. -/
def Machine.NativesEnd (m : Machine) : Prop := ∀ n ∈ m.natives.toList, n.pretends = false

/-! ## Code without loops -/

mutual

/-- There is no loop in the tree, the bodies of functions and classes included. -/
@[grind =] def Node.isLoopless : Node → Bool
  | .leaf _ | .number .. | .string _ | .name .. | .empty | .parameters _ => true
  | .list children | .block children | .array children | .classBody children => allLoopless children
  | .binary left _ right => left.isLoopless && right.isLoopless
  | .negative operand => operand.isLoopless
  | .conditional condition consequence none => condition.isLoopless && consequence.isLoopless
  | .conditional condition consequence (some alternative) =>
    condition.isLoopless && consequence.isLoopless && alternative.isLoopless
  | .loop .. => false
  | .definition _ _ _ body | .closure _ _ body => allLoopless body
  | .primary operand inner last => operand.isLoopless && allSuffixesLoopless inner && last.isLoopless
  | .suffix s => s.isLoopless
  | .classDefinition _ _ _ members => allLoopless members

/-- The same of a suffix. -/
@[grind =] def Suffix.isLoopless : Suffix → Bool
  | .arguments values => allLoopless values
  | .member .. => true
  | .element index => index.isLoopless

@[grind =] def allLoopless : List Node → Bool
  | [] => true
  | n :: rest => n.isLoopless && allLoopless rest

@[grind =] def allSuffixesLoopless : List Suffix → Bool
  | [] => true
  | s :: rest => s.isLoopless && allSuffixesLoopless rest

end

theorem allLoopless_iff : allLoopless nodes = true ↔ ∀ n ∈ nodes, n.isLoopless = true := by
  induction nodes with
  | nil => simp [allLoopless]
  | cons n rest ih => simp [allLoopless, ih]

theorem allSuffixesLoopless_iff :
    allSuffixesLoopless suffixes = true ↔ ∀ s ∈ suffixes, s.isLoopless = true := by
  induction suffixes with
  | nil => simp [allSuffixesLoopless]
  | cons s rest ih => simp [allSuffixesLoopless, ih]

def CodeKind.loopless : CodeKind where
  node n := n.isLoopless = true
  suffix s := s.isLoopless = true
  loops := False
  block := allLoopless_iff
  binary h := by simpa [Node.isLoopless] using h
  negative h := h
  conditional {_ _ alternative} h := by
    cases alternative with
    | none => simpa [Node.isLoopless] using h
    | some other => simpa [Node.isLoopless, and_assoc] using h
  loop h := by cases h
  primary h := by
    simp only [Node.isLoopless, Bool.and_eq_true, allSuffixesLoopless_iff] at h
    exact ⟨h.1.1, h.1.2, h.2⟩
  array h := allLoopless_iff.mp h
  definition h := allLoopless_iff.mp h
  closure h := allLoopless_iff.mp h
  classDefinition h := allLoopless_iff.mp h
  arguments h := allLoopless_iff.mp h
  element h := h

def Upkeep.loopless : Upkeep :=
  .ofClasses .loopless (fun _ => True) (fun _ _ _ _ => trivial) (fun _ _ _ _ => trivial) fun _ _ _ => trivial

namespace Machine

def frameValues : Frame → List Value
  | .builtins bindings | .byName bindings => bindings.map Prod.snd
  | .slots values | .globals _ values => values.toList.filterMap id

def values (m : Machine) : List Value :=
  m.frames.toList.flatMap frameValues ++ m.arrays.toList.flatMap Array.toList
    ++ m.objects.toList.flatMap fun o => o.fields.toList

/-- The code that a machine holds: its functions, the members of its classes and the methods that they have, and the
methods among its values. -/
def code (m : Machine) : List Node :=
  m.functions.toList.map Function.body
    ++ m.classes.toList.flatMap (fun c => c.members ++ c.layout.definitions.flatMap Definition.body)
    ++ m.values.flatMap Value.code

/-- There is no loop in the machine. -/
def Loopless (m : Machine) : Prop := ∀ n ∈ m.code, n.isLoopless = true

instance (m : Machine) : Decidable m.Loopless := inferInstanceAs (Decidable (∀ n ∈ m.code, n.isLoopless = true))

variable {m : Machine}

theorem holds_frameValues : frame.Holds P ↔ ∀ v ∈ frameValues frame, P v := by
  cases frame with
  | builtins bindings | byName bindings =>
    simp only [Frame.Holds, Bindings.Holds, frameValues, List.forall_mem_map]
  | slots values | globals _ values =>
    simp only [Frame.Holds, SlotsHold, frameValues, List.mem_filterMap, id, exists_eq_right, Array.mem_toList_iff,
      Array.mem_iff_getElem?]
    exact ⟨fun h v hv => hv.elim fun i hi => h i v hi, fun h i v hi => h v ⟨i, hi⟩⟩

theorem holds_iff_values : m.Holds P ↔ ∀ v ∈ m.values, P v := by
  simp only [values, List.forall_mem_append, List.forall_mem_flatMap, Array.mem_toList_iff, ← holds_frameValues]
  constructor
  · intro h
    refine ⟨⟨?_, ?_⟩, ?_⟩
    · intro frame hframe
      obtain ⟨f, hf⟩ := Array.mem_iff_getElem?.mp hframe
      exact h.frames f frame hf
    · intro elements helements
      obtain ⟨ref, href⟩ := Array.mem_iff_getElem?.mp helements
      exact h.arrays ref elements href
    · intro o ho
      obtain ⟨ref, href⟩ := Array.mem_iff_getElem?.mp ho
      exact h.objects ref o href
  · rintro ⟨⟨hframes, harrays⟩, hobjects⟩
    exact ⟨fun _ frame hf => hframes frame (Array.mem_of_getElem? hf),
      fun _ elements h => harrays elements (Array.mem_of_getElem? h), fun _ o h => hobjects o (Array.mem_of_getElem? h)⟩

theorem carries_iff_code : m.Carries P ↔ ∀ n ∈ m.code, P n := by
  simp only [code, List.forall_mem_append, List.forall_mem_map, List.forall_mem_flatMap, Array.mem_toList_iff,
    ← holds_iff_values]
  constructor
  · intro h
    exact ⟨⟨h.functions, fun c hc => ⟨h.members c hc, h.methods c hc⟩⟩, h.held⟩
  · rintro ⟨⟨hfunctions, hclasses⟩, hheld⟩
    exact ⟨hfunctions, fun c hc => (hclasses c hc).1, fun c hc => (hclasses c hc).2, hheld⟩

/-- The machine with other bounds on nesting and on the rounds of loops. -/
def bounded (m : Machine) (maxDepth rounds : Nat) : Machine :=
  { m with settings := { m.settings with maxDepth, rounds } }

end Machine

/-- Where there is no loop, running ends.  Whatever machine holds no loop, a unit without loops ends with a value or with
a failure that is not that of a loop cut short, for every bound on nesting and even if no loop may make a round.  The
machine holds no loop then. -/
theorem execution_ends_without_loops {m : Machine} (hm : m.Loopless) (hnatives : m.NativesEnd) {unit : Node}
    (hunit : unit.isLoopless = true) (maxDepth rounds : Nat) :
    (∃ value m', Run.execute unit (m.bounded maxDepth rounds) = .ok value m' ∧ m'.Loopless) ∨
      ∃ failure m', Run.execute unit (m.bounded maxDepth rounds) = .error failure m' ∧ failure ≠ .unfinished ∧
        m'.Loopless := by
  let start := m.bounded maxDepth rounds
  have hheld : Upkeep.loopless.Holds start :=
    ⟨Machine.carries_iff_code.mpr hm, fun _ _ => trivial, fun _ _ => trivial, trivial⟩
  have hended : Coupling.Ended (Upkeep.loopless.Upheld start.surroundings) Upkeep.loopless.good
      (Upkeep.loopless.Fails start.surroundings) (Run.execute unit start) :=
    Upkeep.ends_execute hunit trivial start ⟨rfl, hheld⟩
  generalize Run.execute unit start = res at hended ⊢
  cases res with
  | ok value m' => exact .inl ⟨value, m', rfl, Machine.carries_iff_code.mp hended.1.2.carries⟩
  | error failure m' =>
    refine .inr ⟨failure, m', rfl, ?_, Machine.carries_iff_code.mp hended.1.2.carries⟩
    intro hunfinished
    rcases hended.2.2 hunfinished with hloops | ⟨n, hn, hpretends⟩
    · exact hloops
    · have hends : n.pretends = false := hnatives n (Array.mem_toList_iff.mpr hn)
      rw [hends] at hpretends
      cases hpretends

/-- A loop that has ended, a function that calls itself without end, two closures that call each other, and a class whose
field is an object of the class. -/
def recursiveMachine : Machine :=
  ((((Session.start .default false (.ofText []) none 0).evalLine (text "i = 0; while i < 3 \x7b i = i + 1 \x7d\n")).2.evalLine
    (text "def f(n) \x7b f(n + 1) \x7d; g = fun (n) \x7b h(n) \x7d; h = fun (n) \x7b g(n) \x7d\n")).2.evalLine
      (text "class A \x7b x = A.new \x7d\n")).2.machine

/-- The call of the function, the call of a closure and the making of an object, in an array. -/
def recursiveUnit : Node :=
  .array [.primary (.name 90 ⟨text "f", 0⟩) [] (.arguments [.number ⟨text "0", 0⟩ 0]),
    .primary (.name 91 ⟨text "g", 0⟩) [] (.arguments [.number ⟨text "0", 0⟩ 0]),
    .primary (.name 92 ⟨text "A", 0⟩) [] (.member 93 (.plain ⟨text "new", 0⟩))]

/-- They end, though no loop may make a round. -/
theorem recursion_ends :
    recursiveMachine.Loopless ∧ recursiveMachine.NativesEnd ∧ recursiveUnit.isLoopless = true ∧
      recursiveMachine.code.length = 4 ∧
      ((∃ value m', Run.execute recursiveUnit (recursiveMachine.bounded 50 0) = .ok value m' ∧ m'.Loopless) ∨
        ∃ failure m', Run.execute recursiveUnit (recursiveMachine.bounded 50 0) = .error failure m' ∧
          failure ≠ .unfinished ∧ m'.Loopless) := by
  have hm : recursiveMachine.Loopless := by decide +kernel
  have hnatives : recursiveMachine.NativesEnd := by
    unfold Machine.NativesEnd
    decide +kernel
  exact ⟨hm, hnatives, by decide, by decide +kernel, execution_ends_without_loops hm hnatives (by decide) 50 0⟩

end StoneLang
