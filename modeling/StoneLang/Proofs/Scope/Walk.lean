/-
  Two walks side by side.

  PROGRAM: `visitWithin` and `layOutClass`, which place the names of a tree and of a class body.

  SPEC: a relation that holds of the single steps of two walks, and of two walks one after the other, holds of the whole
  walks (`Paired.visitWithin`, `Paired.layOutClass`).

  The two walks go over one tree and may have different settings.  What is to be shown of one walk alone is a relation
  that does not look at the other.  The relation may depend on the names that are assigned on the way (`Node.targets`).
-/
import StoneLang.Proofs.Tree.Every
import StoneLang.Scope.Resolve

namespace StoneLang

/-- The state in which a walk starts, at the top. -/
abbrev Resolving.start (globals : List Text) (notes : Notes) : Resolving := ⟨[⟨.globals, globals⟩], notes, #[]⟩

/-! ## Assigned names -/

def Node.plainName : Node → List Text
  | .name _ word => [word.text]
  | _ => []

mutual

/-- The names that are assigned outside every function and class, in the order in which they are evaluated.  A definition
or a class counts with its name. -/
@[grind =] def Node.targets : Node → List Text
  | .leaf _ | .number .. | .string _ | .name .. | .empty | .parameters _ | .closure .. => []
  | .binary left operator right =>
    if operator.text = text "=" then right.targets ++ (left.plainName ++ left.targets) else left.targets ++ right.targets
  | .definition _ title .. | .classDefinition _ title .. => [title.text]
  | .list nodes | .block nodes | .array nodes | .classBody nodes => allTargets nodes
  | .negative operand => operand.targets
  | .conditional condition consequence none => condition.targets ++ consequence.targets
  | .conditional condition consequence (some alternative) =>
    condition.targets ++ (consequence.targets ++ alternative.targets)
  | .loop condition body => condition.targets ++ body.targets
  | .primary operand inner last => operand.targets ++ (suffixTargets inner ++ last.targets)
  | .suffix s => s.targets

/-- The targets in a suffix. -/
@[grind =] def Suffix.targets : Suffix → List Text
  | .arguments values => allTargets values
  | .member .. => []
  | .element index => index.targets

@[grind =] def allTargets : List Node → List Text
  | [] => []
  | node :: rest => node.targets ++ allTargets rest

@[grind =] def suffixTargets : List Suffix → List Text
  | [] => []
  | s :: rest => s.targets ++ suffixTargets rest

end

theorem allTargets_append (nodes more : List Node) : allTargets (nodes ++ more) = allTargets nodes ++ allTargets more := by
  induction nodes with
  | nil => rfl
  | cons node rest ih => simp [allTargets, ih]

theorem allTargets_suffixes (suffixes : List Suffix) : allTargets (suffixes.map .suffix) = suffixTargets suffixes := by
  induction suffixes with
  | nil => rfl
  | cons s rest ih => simp [allTargets, suffixTargets, Node.targets, ih]

theorem targets_row {node : Node} (h : node.isRow) : node.targets = allTargets node.children := by
  cases node with
  | conditional condition consequence alternative =>
    cases alternative <;> simp [Node.targets, Node.children, allTargets]
  | primary operand inner last =>
    simp [Node.targets, Node.children, allTargets, allTargets_append, allTargets_suffixes]
  | suffix s => cases s <;> simp_all [Node.targets, Suffix.targets, Node.children, Suffix.children, allTargets, Node.isRow]
  | name | binary | definition | closure | classDefinition | parameters => simp [Node.isRow] at h
  | _ => simp [Node.targets, Node.children, allTargets]

theorem Label.targets_toNode (label : Label) : label.toNode.targets = [] := by
  cases label <;> simp [toNode, Node.targets]

end StoneLang

namespace StoneLang.Resolve

/-- A relation between two walks that holds of their steps.  A function is one step: its table is there only as long as
its body is visited. -/
structure Paired (R : {α : Type} → List Text → Resolve α → Resolve α → Prop) : Prop where
  pure : ∀ {α : Type} (a : α), R [] (Pure.pure a) (Pure.pure a)
  bind : ∀ {α β : Type} {names more : List Text} {x y : Resolve α} {f g : α → Resolve β}, R names x y →
    (∀ a, R more (f a) (g a)) → R (names ++ more) (x >>= f) (y >>= g)
  note : ∀ (settings settings' : ResolveSettings) (record : Record), R [] (note settings record) (note settings' record)
  get? : ∀ name, R [] (get? name) (get? name)
  put : ∀ name, R [name] (put name) (put name)
  place : ∀ site location, R [] (place site location) (place site location)
  unplace : ∀ site, R [] (unplace site) (unplace site)
  noteSlot : ∀ site slot, R [] (noteSlot site slot) (noteSlot site slot)
  noteSize : ∀ site size, R [] (noteSize site size) (noteSize site size)
  function : ∀ {visit visit' : Node → Resolve Unit}, (∀ node, R node.targets (visit node) (visit' node)) →
    ∀ first params body, R [] (visitFunction visit first params body) (visitFunction visit' first params body)

namespace Paired

variable {R : {α : Type} → List Text → Resolve α → Resolve α → Prop} (S : Paired R) (settings settings' : ResolveSettings)

include S

/-! ## Trees -/

section
variable {visit visit' : Node → Resolve Unit} (hvisit : ∀ node, R node.targets (visit node) (visit' node))

include hvisit

theorem visitAll (nodes : List Node) : R (allTargets nodes) (visitAll visit nodes) (StoneLang.visitAll visit' nodes) := by
  induction nodes with
  | nil => exact S.pure ()
  | cons node rest ih => exact S.bind (hvisit node) fun _ => ih

theorem visitNode (node : Node) :
    R node.targets (visitNode settings visit node) (StoneLang.visitNode settings' visit' node) := by
  cases node with
  | name site word =>
    refine S.bind (S.get? word.text) fun location => ?_
    cases location with
    | some location => exact S.place site location
    | none => exact S.bind (S.unplace site) fun _ => S.note settings settings' _
  | binary left operator right =>
    simp only [StoneLang.visitNode, Node.targets]
    split
    · refine S.bind (hvisit right) fun _ => ?_
      cases left with
      | name site word => exact S.bind (S.put word.text) fun location => S.place site location
      | _ => exact hvisit _
    · have hoperator := hvisit operator.toNode
      rw [Label.targets_toNode] at hoperator
      exact S.bind (hvisit left) fun _ => S.bind hoperator fun _ => hvisit right
  | definition site title params body =>
    exact S.bind (S.put title.text) fun location => S.bind (S.noteSlot site _) fun _ =>
      S.bind (S.function hvisit [] params body) fun size => S.noteSize site size
  | closure site params body => exact S.bind (S.function hvisit [] params body) fun size => S.noteSize site size
  | classDefinition site title parent members => exact S.bind (S.put title.text) fun location => S.noteSlot site _
  | parameters labels => exact S.pure ()
  | suffix s =>
    cases s with
    | member site title => exact S.pure ()
    | _ =>
      rw [targets_row (by rfl)]
      exact S.visitAll hvisit _
  | _ =>
    rw [targets_row (by rfl)]
    exact S.visitAll hvisit _

end

/-- It holds of two walks whose limits differ by `k` if it holds of them where the first one has no level left. -/
theorem visitWithin (k : Nat) (hnone : ∀ node : Node, R node.targets (visitWithin settings 0 node)
      (visitWithin settings' k node)) (levels : Nat) (node : Node) :
    R node.targets (visitWithin settings levels node) (StoneLang.visitWithin settings' (levels + k) node) := by
  induction levels generalizing node with
  | zero =>
    rw [Nat.zero_add]
    exact hnone node
  | succ levels ih =>
    rw [Nat.succ_add]
    exact S.visitNode settings settings' ih node

/-! ## Classes -/

def initializersOf (members : List Node) : List Node := members.filter fun m => (Definition.ofNode? m).isNone

theorem layOutMethods (members : List Node) (layout : Layout) :
    R [] (layOutMethods members layout) (StoneLang.layOutMethods members layout) := by
  induction members generalizing layout with
  | nil => exact S.pure layout
  | cons member rest ih =>
    unfold StoneLang.layOutMethods
    cases Definition.ofNode? member with
    | none => exact ih layout
    | some d => exact S.bind (S.noteSlot _ _) fun _ => ih _

variable (hvisit : ∀ node : Node, R node.targets (visit settings node) (visit settings' node))

include hvisit

theorem visitInitializers (members : List Node) :
    R (allTargets (initializersOf members)) (visitInitializers settings members)
      (StoneLang.visitInitializers settings' members) := by
  induction members with
  | nil => exact S.pure ()
  | cons member rest ih =>
    unfold StoneLang.visitInitializers initializersOf
    rw [List.filter_cons]
    split
    · exact S.bind (hvisit member) fun _ => ih
    · exact ih

theorem visitMethods (members : List Node) :
    R [] (visitMethods settings members) (StoneLang.visitMethods settings' members) := by
  induction members with
  | nil => exact S.pure ()
  | cons member rest ih =>
    unfold StoneLang.visitMethods
    cases Definition.ofNode? member with
    | none => exact ih
    | some d => exact S.bind (S.function hvisit _ _ _) fun size => S.bind (S.noteSize d.site size) fun _ => ih

/-- A class is laid out in tables that are entered and left one by one, and its fields are read off the scope. -/
theorem layOutClass (henter : ∀ t, R [] (enter t) (enter t)) (hleave : R [] leave leave)
    (hscope : ∀ {α : Type} {f g : Resolving → Resolve α}, (∀ s t : Resolving, t.scope = s.scope → R [] (f s) (g t)) →
      R [] (get >>= f) (get >>= g))
    (title : Text) (members : List Node) (base : Layout) :
    R (allTargets (initializersOf members)) (layOutClass settings title members base)
      (StoneLang.layOutClass settings' title members base) := by
  -- the names, stage by stage
  rw [show allTargets (initializersOf members) = [] ++ ([] ++ ([] ++ ([] ++ (allTargets (initializersOf members) ++ [])))) by simp]
  refine S.bind (S.layOutMethods members base) fun layout => ?_
  refine S.bind (henter _) fun _ => S.bind (henter _) fun _ => S.bind (henter _) fun _ => ?_
  refine S.bind (S.visitInitializers settings settings' hvisit members) fun _ => S.bind hleave fun _ => ?_
  refine S.bind (S.visitMethods settings settings' hvisit members) fun _ => ?_
  refine hscope fun s t hsame => ?_
  simp only [hsame]
  exact S.bind (S.note settings settings' _) fun _ => S.pure _

end Paired

end StoneLang.Resolve
