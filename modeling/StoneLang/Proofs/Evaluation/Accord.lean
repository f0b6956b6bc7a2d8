/-
  Evaluators that run in step.

  `Accord code R A B` lists what is to be shown of the actions of two evaluators: that a relation `R` between computations
  goes with results, failures and sequences, and that it holds between the actions.  Then `R` holds between the two
  evaluators on all code that may be evaluated (`Accord.evaluateNode`).  What `R` says is left open; besides the two
  computations it is told what is known before them, and what is known after them of their common result.

  What is known grows while the evaluators run, so it is an element of a preorder.  Two things are asked of it: which values
  may turn up (`Accord.value`), and which code may be evaluated in which environment (`Evaluable`).  The code may be of a
  certain kind wherever it is stored (`CodeKind`), or fit a description of the scopes that it stands in (`Scoping`).

  The walk takes `hrec`, that the nodes inside are evaluated in step, and hands what one part has found out to the next.
-/
import Mathlib.Order.Basic
import StoneLang.Proofs.Evaluation.Actions
import StoneLang.Proofs.Evaluation.Coupling
import StoneLang.Proofs.Tree.Every

namespace StoneLang

/-! ## Code that may be evaluated -/

/-- Which code may be evaluated in which environment, with what is known.  What may be evaluated has parts that may be. -/
structure Evaluable (W : Type) [Preorder W] where
  env : W → Env → Prop
  node : W → Env → Node → Prop
  suffix : W → Env → Suffix → Prop
  /-- The node may be assigned to. -/
  target : W → Env → Node → Prop
  /-- There may be loops. -/
  loops : Prop
  node_mono : ∀ {u w e n}, u ≤ w → node u e n → node w e n
  suffix_mono : ∀ {u w e s}, u ≤ w → suffix u e s → suffix w e s
  target_mono : ∀ {u w e n}, u ≤ w → target u e n → target w e n
  around : ∀ {w e s}, suffix w e s → env w e
  block : ∀ {w e statements}, node w e (.block statements) → ∀ n ∈ statements, node w e n
  assignment : ∀ {w e left right} {operator : Label}, operator.text = text "=" → node w e (.binary left operator right) →
    target w e left ∧ node w e right
  binary : ∀ {w e left right} {operator : Label}, operator.text ≠ text "=" → node w e (.binary left operator right) →
    node w e left ∧ node w e right
  negative : ∀ {w e operand}, node w e (.negative operand) → node w e operand
  conditional : ∀ {w e condition consequence alternative}, node w e (.conditional condition consequence alternative) →
    node w e condition ∧ node w e consequence ∧ ∀ other ∈ alternative, node w e other
  loop : ∀ {w e condition body}, node w e (.loop condition body) → loops ∧ node w e condition ∧ node w e body
  primary : ∀ {w e operand inner last}, node w e (.primary operand inner last) →
    node w e operand ∧ (∀ s ∈ inner, suffix w e s) ∧ suffix w e last
  access : ∀ {w e operand inner last}, target w e (.primary operand inner last) →
    node w e operand ∧ (∀ s ∈ inner, suffix w e s) ∧ suffix w e last
  array : ∀ {w e elements}, node w e (.array elements) → ∀ n ∈ elements, node w e n
  arguments : ∀ {w e values}, suffix w e (.arguments values) → ∀ n ∈ values, node w e n
  element : ∀ {w e index}, suffix w e (.element index) → node w e index

/-- A kind of code: what is of the kind has parts of the kind. -/
structure CodeKind where
  node : Node → Prop
  suffix : Suffix → Prop
  /-- There may be loops in code of the kind. -/
  loops : Prop
  block : ∀ {statements}, node (.block statements) ↔ ∀ n ∈ statements, node n
  binary : ∀ {left operator right}, node (.binary left operator right) → node left ∧ node right
  negative : ∀ {operand}, node (.negative operand) → node operand
  conditional : ∀ {condition consequence alternative}, node (.conditional condition consequence alternative) →
    node condition ∧ node consequence ∧ ∀ other ∈ alternative, node other
  loop : ∀ {condition body}, node (.loop condition body) → loops ∧ node condition ∧ node body
  primary : ∀ {operand inner last}, node (.primary operand inner last) →
    node operand ∧ (∀ s ∈ inner, suffix s) ∧ suffix last
  array : ∀ {elements}, node (.array elements) → ∀ n ∈ elements, node n
  definition : ∀ {site title params body}, node (.definition site title params body) → ∀ n ∈ body, node n
  closure : ∀ {site params body}, node (.closure site params body) → ∀ n ∈ body, node n
  classDefinition : ∀ {site title parent members}, node (.classDefinition site title parent members) →
    ∀ n ∈ members, node n
  arguments : ∀ {values}, suffix (.arguments values) → ∀ n ∈ values, node n
  element : ∀ {index}, suffix (.element index) → node index

/-- All code is of the kind. -/
def CodeKind.any : CodeKind where
  node _ := True
  suffix _ := True
  loops := True
  block := ⟨fun _ _ _ => trivial, fun _ => trivial⟩
  binary _ := ⟨trivial, trivial⟩
  negative _ := trivial
  conditional _ := ⟨trivial, trivial, fun _ _ => trivial⟩
  loop _ := ⟨trivial, trivial, trivial⟩
  primary _ := ⟨trivial, fun _ _ => trivial, trivial⟩
  array _ _ _ := trivial
  definition _ _ _ := trivial
  closure _ _ _ := trivial
  classDefinition _ _ _ := trivial
  arguments _ _ _ := trivial
  element _ := trivial

/-- Code of a kind may be evaluated in the environments that may turn up. -/
def CodeKind.evaluable (K : CodeKind) {W : Type} [Preorder W] (env : W → Env → Prop)
    (hmono : ∀ {u w e}, u ≤ w → env u e → env w e) : Evaluable W where
  env := env
  node w e n := env w e ∧ K.node n
  suffix w e s := env w e ∧ K.suffix s
  target w e n := env w e ∧ K.node n
  loops := K.loops
  node_mono hle h := ⟨hmono hle h.1, h.2⟩
  suffix_mono hle h := ⟨hmono hle h.1, h.2⟩
  target_mono hle h := ⟨hmono hle h.1, h.2⟩
  around h := h.1
  block h n hn := ⟨h.1, K.block.mp h.2 n hn⟩
  assignment _ h := ⟨⟨h.1, (K.binary h.2).1⟩, h.1, (K.binary h.2).2⟩
  binary _ h := ⟨⟨h.1, (K.binary h.2).1⟩, h.1, (K.binary h.2).2⟩
  negative h := ⟨h.1, K.negative h.2⟩
  conditional h :=
    have ⟨hcondition, hconsequence, hother⟩ := K.conditional h.2
    ⟨⟨h.1, hcondition⟩, ⟨h.1, hconsequence⟩, fun other hmem => ⟨h.1, hother other hmem⟩⟩
  loop h :=
    have ⟨hloops, hcondition, hbody⟩ := K.loop h.2
    ⟨hloops, ⟨h.1, hcondition⟩, h.1, hbody⟩
  primary h :=
    have ⟨hoperand, hinner, hlast⟩ := K.primary h.2
    ⟨⟨h.1, hoperand⟩, fun s hs => ⟨h.1, hinner s hs⟩, h.1, hlast⟩
  access h :=
    have ⟨hoperand, hinner, hlast⟩ := K.primary h.2
    ⟨⟨h.1, hoperand⟩, fun s hs => ⟨h.1, hinner s hs⟩, h.1, hlast⟩
  array h n hn := ⟨h.1, K.array h.2 n hn⟩
  arguments h n hn := ⟨h.1, K.arguments h.2 n hn⟩
  element h := ⟨h.1, K.element h.2⟩

/-- What does not depend on what has been made so far stands in a world that does not change. -/
inductive Still where
  | still

instance : Preorder Still where
  le _ _ := True
  le_refl _ := trivial
  le_trans _ _ _ _ _ := trivial

def CodeKind.fixed (K : CodeKind) (env : Env → Prop) : Evaluable Still := K.evaluable (fun _ => env) fun _ h => h

/-- All code may be evaluated. -/
def Evaluable.any : Evaluable Still := CodeKind.any.fixed fun _ => True

/-- How code stands in its scopes, and which environments belong to them. -/
structure Scoping (W : Type) [Preorder W] where
  /-- What a scope is described by. -/
  ι : Type
  /-- What a use of a scope satisfies. -/
  use : W → ι → Use → Prop
  /-- How the scope of a function is described inside another one. -/
  inner : W → ι → Site → List Label → ι → Prop
  /-- The environment belongs to the scope. -/
  fits : W → Env → ι → Prop
  use_mono : ∀ {u w c x}, u ≤ w → use u c x → use w c x
  inner_mono : ∀ {u w c site params c'}, u ≤ w → inner u c site params c' → inner w c site params c'
  fits_mono : ∀ {u w e c}, u ≤ w → fits u e c → fits w e c

namespace Scoping

variable {W : Type} [Preorder W] (S : Scoping W)

/-- The node stands in a scope that the environment belongs to, and all its uses are as they should. -/
def Code (w : W) (e : Env) (n : Node) : Prop := ∃ c, S.fits w e c ∧ n.Every (S.use w) (S.inner w) c

def SuffixCode (w : W) (e : Env) (s : Suffix) : Prop := ∃ c, S.fits w e c ∧ s.Every (S.use w) (S.inner w) c

def Assigned (w : W) (c : S.ι) : Node → Prop
  | .name site word => S.use w c (.assign site word)
  | n => n.Every (S.use w) (S.inner w) c

variable {S} {u w : W} {c : S.ι}

theorem every_mono (h : u ≤ w) {n : Node} (hn : n.Every (S.use u) (S.inner u) c) : n.Every (S.use w) (S.inner w) c :=
  Node.Every.mono (R := Eq) (S := fun _ => True)
    (by rintro c _ x rfl _ hx; exact S.use_mono h hx)
    (by rintro c _ site params c' rfl _ hd; exact ⟨c', S.inner_mono h hd, rfl⟩)
    n c c rfl (fun _ _ => trivial) hn

theorem allEvery_mono (h : u ≤ w) (hn : AllEvery (S.use u) (S.inner u) c nodes) :
    AllEvery (S.use w) (S.inner w) c nodes := by
  rw [allEvery_iff] at hn ⊢
  exact fun n hmem => every_mono h (hn n hmem)

theorem parts_of_primary {inner : List Suffix} (hfits : S.fits w e c)
    (h : (Node.primary operand inner last).Every (S.use w) (S.inner w) c) :
    S.Code w e operand ∧ (∀ s ∈ inner, S.SuffixCode w e s) ∧ S.SuffixCode w e last := by
  simp only [Node.Every, allSuffixesEvery_iff] at h
  have hinner : ∀ s ∈ inner, s.Every (S.use w) (S.inner w) c := fun s hs =>
    (allEvery_iff _ _).mp h.2.1 (.suffix s) (List.mem_map_of_mem hs)
  exact ⟨⟨c, hfits, h.1⟩, fun s hs => ⟨c, hfits, hinner s hs⟩, c, hfits, h.2.2⟩

/-- Code may be evaluated that stands in a scope which the environment belongs to. -/
def evaluable (S : Scoping W) : Evaluable W where
  env w e := ∃ c, S.fits w e c
  node := S.Code
  suffix := S.SuffixCode
  target w e n := ∃ c, S.fits w e c ∧ S.Assigned w c n
  loops := True
  node_mono := fun hle ⟨c, hfits, hn⟩ => ⟨c, S.fits_mono hle hfits, every_mono hle hn⟩
  suffix_mono := by
    rintro u w e s hle ⟨c, hfits, hs⟩
    refine ⟨c, S.fits_mono hle hfits, ?_⟩
    cases s with
    | arguments values => exact allEvery_mono hle hs
    | member site title => trivial
    | element index => exact every_mono hle hs
  target_mono := by
    rintro u w e n hle ⟨c, hfits, hn⟩
    refine ⟨c, S.fits_mono hle hfits, ?_⟩
    cases n with
    | name site word => exact S.use_mono hle hn
    | _ => exact every_mono hle hn
  around := fun ⟨c, hfits, _⟩ => ⟨c, hfits⟩
  block := fun ⟨c, hfits, h⟩ n hn => ⟨c, hfits, (allEvery_iff _ _).mp h n hn⟩
  assignment := by
    rintro w e left right operator heq ⟨c, hfits, h⟩
    simp only [Node.Every, heq, if_true] at h
    refine ⟨⟨c, hfits, ?_⟩, c, hfits, h.1⟩
    cases left <;> exact h.2
  binary := by
    rintro w e left right operator hne ⟨c, hfits, h⟩
    simp only [Node.Every, hne, if_false] at h
    exact ⟨⟨c, hfits, h.1⟩, c, hfits, h.2⟩
  negative := fun ⟨c, hfits, h⟩ => ⟨c, hfits, h⟩
  conditional := by
    rintro w e condition consequence alternative ⟨c, hfits, h⟩
    cases alternative with
    | none =>
      simp only [Node.Every] at h
      exact ⟨⟨c, hfits, h.1⟩, ⟨c, hfits, h.2⟩, nofun⟩
    | some other =>
      simp only [Node.Every] at h
      refine ⟨⟨c, hfits, h.1⟩, ⟨c, hfits, h.2.1⟩, ?_⟩
      rintro _ ⟨⟩
      exact ⟨c, hfits, h.2.2⟩
  loop := by
    rintro w e condition body ⟨c, hfits, h⟩
    simp only [Node.Every] at h
    exact ⟨trivial, ⟨c, hfits, h.1⟩, c, hfits, h.2⟩
  primary := fun ⟨_, hfits, h⟩ => parts_of_primary hfits h
  access := fun ⟨_, hfits, h⟩ => parts_of_primary hfits h
  array := fun ⟨c, hfits, h⟩ n hn => ⟨c, hfits, (allEvery_iff _ _).mp h n hn⟩
  arguments := fun ⟨c, hfits, h⟩ n hn => ⟨c, hfits, (allEvery_iff _ _).mp h n hn⟩
  element := fun ⟨c, hfits, h⟩ => ⟨c, hfits, h⟩

end Scoping

/-! ## Actions in step -/

def Function.Resembles (f g : Function) : Prop :=
  f.parameters = g.parameters ∧ f.shownName = g.shownName ∧ f.body = g.body

theorem rel_self (h : ∀ a, found = some a → r a a) : Option.Rel r found found := by
  cases found with
  | none => exact .none
  | some a => exact .some (h a rfl)

/-- What is to be shown of the actions of two evaluators for `R` to hold between them. -/
structure Accord {W : Type} [Preorder W] (code : Evaluable W) {σ τ : Type}
    (R : {α : Type} → W → (W → α → Prop) → EStateM Failure σ α → EStateM Failure τ α → Prop) (A : Actions σ)
    (B : Actions τ) where
  /-- A value that may turn up. -/
  value : W → Value → Prop
  /-- A native that may be called. -/
  native : Native → Prop
  /-- The two entries of a function can be called in step. -/
  callable : W → Nat → Function → Function → Prop
  /-- The two entries of a class can be instantiated in step. -/
  constructible : W → Nat → Class → Class → Prop
  /-- The initializers of a class can be run on an object. -/
  initializes : W → Nat → Nat → Prop
  /-- An element of an array that may be read or set. -/
  place : W → Nat × Nat → Prop
  pure : ∀ {w} {α : Type} {Q : W → α → Prop} {a : α}, Q w a → R w Q (Pure.pure a) (Pure.pure a)
  throw : ∀ {w} {α : Type} {Q : W → α → Prop} (d : Diagnostic), d.cause.isOwn = true →
    R w Q (MonadExcept.throw (.diagnostic d)) (MonadExcept.throw (.diagnostic d))
  /-- A loop is cut short. -/
  unfinished : ∀ {w} {α : Type} {Q : W → α → Prop}, code.loops →
    R w Q (MonadExcept.throw .unfinished) (MonadExcept.throw .unfinished)
  bind : ∀ {w} {α β : Type} {P : W → α → Prop} {Q : W → β → Prop} {x : EStateM Failure σ α} {y : EStateM Failure τ α}
    {f : α → EStateM Failure σ β} {g : α → EStateM Failure τ β}, R w P x y →
    (∀ w' a, w ≤ w' → P w' a → R w' Q (f a) (g a)) → R w Q (x >>= f) (y >>= g)
  value_mono : ∀ {u w v}, u ≤ w → value u v → value w v := by exact fun _ h => h
  callable_mono : ∀ {u w ref f g}, u ≤ w → callable u ref f g → callable w ref f g := by exact fun _ h => h
  initializes_mono : ∀ {u w object ref}, u ≤ w → initializes u object ref → initializes w object ref := by
    exact fun _ h => h
  value_null : ∀ w, value w .null := by exact fun _ => trivial
  value_integer : ∀ w n, value w (.integer n) := by exact fun _ _ => trivial
  value_string : ∀ w t, value w (.string t) := by exact fun _ _ => trivial
  rounds : ∀ w, code.loops → R w (fun _ _ => True) A.rounds B.rounds
  readName : ∀ w e site word, code.node w e (.name site word) →
    R w value (A.readName site word e) (B.readName site word e)
  assignName : ∀ w e site word v, code.target w e (.name site word) → value w v →
    R w (fun _ _ => True) (A.assignName site word v e) (B.assignName site word v e)
  operate : ∀ w operator a b line, value w a → value w b →
    R w value (A.operate operator a b line) (B.operate operator a b line)
  newArray : ∀ w values, (∀ v ∈ values, value w v) → R w value (A.newArray values) (B.newArray values)
  makeClosure : ∀ w e site params body, code.node w e (.closure site params body) →
    R w value (A.makeClosure e site params body) (B.makeClosure e site params body)
  define : ∀ w e site title params body line, code.node w e (.definition site title params body) →
    R w value (A.define e site title params body line) (B.define e site title params body line)
  defineClass : ∀ w e site title parent members line, code.node w e (.classDefinition site title parent members) →
    R w value (A.defineClass e site title parent members line) (B.defineClass e site title parent members line)
  native? : ∀ w ref, value w (.native ref) →
    R w (fun _ found => ∀ n, found = some n → native n) (A.native? ref) (B.native? ref)
  callNative : ∀ w e n line values, code.env w e → native n → (∀ v ∈ values, value w v) →
    (0 ≤ n.arity → n.arity = values.length) → R w value (A.callNative n e line values) (B.callNative n e line values)
  /-- A function may be another one in the second evaluator. -/
  function? : ∀ w ref {α : Type} {Q : W → α → Prop} {f : Option Function → EStateM Failure σ α}
    {g : Option Function → EStateM Failure τ α}, value w (.function ref) →
    (∀ w' found found', w ≤ w' → Option.Rel (fun f g => f.Resembles g ∧ callable w' ref f g) found found' →
      R w' Q (f found) (g found')) → R w Q (A.function? ref >>= f) (B.function? ref >>= g)
  enterFunction : ∀ w ref f g values, callable w ref f g → (∀ v ∈ values, value w v) →
    f.parameters.length = values.length →
    R w (fun w' e => code.node w' e f.body) (A.enterFunction ref f values) (B.enterFunction ref g values)
  className : ∀ w object d, value w (.method object d) → R w (fun _ _ => True) (A.className object) (B.className object)
  enterMethod : ∀ w object d values, value w (.method object d) → (∀ v ∈ values, value w v) →
    d.parameters.length = values.length →
    R w (fun w' e => code.node w' e (.block d.body)) (A.enterMethod object d values) (B.enterMethod object d values)
  /-- A class may be another one in the second evaluator. -/
  class? : ∀ w ref {α : Type} {Q : W → α → Prop} {f : Option Class → EStateM Failure σ α}
    {g : Option Class → EStateM Failure τ α}, value w (.classValue ref) →
    (∀ w' found found', w ≤ w' → Option.Rel (fun c d => c.name = d.name ∧ constructible w' ref c d) found found' →
      R w' Q (f found) (g found')) → R w Q (A.class? ref >>= f) (B.class? ref >>= g)
  newObject : ∀ w ref c d, constructible w ref c d →
    R w (fun w' made => value w' (.object made.1) ∧ ∀ r ∈ made.2, initializes w' made.1 r) (A.newObject ref c)
      (B.newObject ref d)
  enterInitializers : ∀ w object ref, initializes w object ref →
    R w (fun w' found => ∀ e members, found = some (e, members) → ∀ n ∈ members, Definition.ofNode? n = none →
      code.node w' e n) (A.enterInitializers object ref) (B.enterInitializers object ref)
  readMember : ∀ w e object site title, value w (.object object) → code.suffix w e (.member site title) →
    R w value (A.readMember object site title) (B.readMember object site title)
  assignMember : ∀ w e target site title v, value w target → code.suffix w e (.member site title) → value w v →
    R w (fun _ _ => True) (A.assignMember target site title v) (B.assignMember target site title v)
  element : ∀ w target i line, value w target → value w i →
    R w place (A.element target i line) (B.element target i line)
  readElement : ∀ w ref i, place w (ref, i) → R w value (A.readElement ref i) (B.readElement ref i)
  setElement : ∀ w ref i v, place w (ref, i) → value w v →
    R w (fun _ _ => True) (A.setElement ref i v) (B.setElement ref i v)

/-! ## The walk -/

namespace Accord

variable {W : Type} [Preorder W] {code : Evaluable W} {σ τ : Type}
  {R : {α : Type} → W → (W → α → Prop) → EStateM Failure σ α → EStateM Failure τ α → Prop} {A : Actions σ} {B : Actions τ}
  (S : Accord code R A B) {recur : Node → Env → EStateM Failure σ Value} {recur' : Node → Env → EStateM Failure τ Value}
  (hrec : ∀ w node env, code.node w env node → R w S.value (recur node env) (recur' node env)) {w : W} {env : Env}

include hrec

theorem evaluateAll (hnodes : ∀ n ∈ nodes, code.node w env n) :
    R w (fun w' values => values.length = nodes.length ∧ ∀ v ∈ values, S.value w' v) (Actions.evaluateAll recur env nodes)
      (Actions.evaluateAll recur' env nodes) := by
  induction nodes generalizing w with
  | nil => exact S.pure (by simp)
  | cons node rest ih =>
    obtain ⟨hnode, hrest⟩ := List.forall_mem_cons.mp hnodes
    refine S.bind (hrec w node env hnode) fun w' value hle hvalue => ?_
    refine S.bind (ih fun n hn => code.node_mono hle (hrest n hn)) fun w'' values hle' hvalues => ?_
    exact S.pure ⟨by simp [hvalues.1], List.forall_mem_cons.mpr ⟨S.value_mono hle' hvalue, hvalues.2⟩⟩

theorem evaluateBlock (hnodes : ∀ n ∈ nodes, code.node w env n) (hlast : S.value w last) :
    R w S.value (Actions.evaluateBlock recur env nodes last) (Actions.evaluateBlock recur' env nodes last) := by
  induction nodes generalizing w last with
  | nil => exact S.pure hlast
  | cons statement rest ih =>
    obtain ⟨hstatement, hrest⟩ := List.forall_mem_cons.mp hnodes
    simp only [Actions.evaluateBlock]
    split
    · exact ih hrest hlast
    · exact S.bind (hrec w statement env hstatement) fun w' value hle hvalue =>
        ih (fun n hn => code.node_mono hle (hrest n hn)) hvalue

theorem evaluateLoop (hloops : code.loops) (hcondition : code.node w env condition)
    (hbody : code.node w env body) (bound : Nat) (hlast : S.value w last) :
    R w S.value (Actions.evaluateLoop recur env condition body bound last)
      (Actions.evaluateLoop recur' env condition body bound last) := by
  induction bound generalizing w last with
  | zero => exact S.unfinished hloops
  | succ bound ih =>
    refine S.bind (hrec w condition env hcondition) fun w' test hle _ => ?_
    split
    · refine S.bind (hrec w' body env (code.node_mono hle hbody)) fun w'' value hle' hvalue => ?_
      have hlater := le_trans hle hle'
      exact ih (code.node_mono hlater hcondition) (code.node_mono hlater hbody) hvalue
    · exact S.pure (S.value_mono hle hlast)

variable {target : Value}

theorem call (htarget : S.value w target) (harguments : code.suffix w env (.arguments arguments)) :
    R w S.value (Actions.call A recur env target arguments) (Actions.call B recur' env target arguments) := by
  cases target with
  | native ref =>
    refine S.bind (S.native? w ref htarget) fun w' found hle hfound => ?_
    cases found with
    | none => exact S.throw _ rfl
    | some native =>
      dsimp only
      split
      · exact S.throw _ rfl
      · rename_i harity
        have harguments' := code.suffix_mono hle harguments
        refine S.bind (S.evaluateAll hrec (code.arguments harguments')) fun w'' values hle' hvalues => ?_
        have henv := code.around (code.suffix_mono hle' harguments')
        exact S.callNative w'' env native _ values henv (hfound native rfl) hvalues.2 (by have := hvalues.1; omega)
  | function ref =>
    refine S.function? w ref htarget fun w' found found' hle hfound => ?_
    cases hfound with
    | none => exact S.throw _ rfl
    | @some f g h =>
      obtain ⟨⟨hparams, hname, hbody⟩, hcallable⟩ := h
      dsimp only
      rw [← hparams, ← hname, ← hbody]
      split
      · exact S.throw _ rfl
      · rename_i hlength
        refine S.bind (S.evaluateAll hrec (code.arguments (code.suffix_mono hle harguments))) fun w'' values hle' hvalues => ?_
        have hcount : f.parameters.length = values.length := by have := hvalues.1; omega
        exact S.bind (S.enterFunction w'' ref f g values (S.callable_mono hle' hcallable) hvalues.2 hcount)
          fun w₃ inner _ hinner => hrec w₃ f.body inner hinner
  | method object d =>
    simp only [Actions.call]
    split
    · exact S.bind (S.className w object d htarget) fun _ _ _ _ => S.throw _ rfl
    · rename_i hlength
      refine S.bind (S.evaluateAll hrec (code.arguments harguments)) fun w' values hle hvalues => ?_
      have hcount : d.parameters.length = values.length := by have := hvalues.1; omega
      exact S.bind (S.enterMethod w' object d values (S.value_mono hle htarget) hvalues.2 hcount)
        fun w'' inner _ hinner => hrec w'' (.block d.body) inner hinner
  | _ => exact S.throw _ rfl

theorem initializeFields (hmembers : ∀ n ∈ members, Definition.ofNode? n = none → code.node w env n) :
    R w (fun _ _ => True) (Actions.initializeFields recur env members) (Actions.initializeFields recur' env members) := by
  induction members generalizing w with
  | nil => exact S.pure trivial
  | cons member rest ih =>
    obtain ⟨hmember, hrest⟩ := List.forall_mem_cons.mp hmembers
    simp only [Actions.initializeFields]
    split
    · rename_i hnone
      exact S.bind (hrec w member env (hmember (by simpa using hnone))) fun w' _ hle _ =>
        ih fun n hn hfield => code.node_mono hle (hrest n hn hfield)
    · exact ih hrest

theorem initializeAs (hrefs : ∀ ref ∈ refs, S.initializes w object ref) :
    R w (fun _ _ => True) (Actions.initializeAs A recur object refs) (Actions.initializeAs B recur' object refs) := by
  induction refs generalizing w with
  | nil => exact S.pure trivial
  | cons ref rest ih =>
    obtain ⟨href, hrest⟩ := List.forall_mem_cons.mp hrefs
    refine S.bind (S.enterInitializers w object ref href) fun w' found hle hfound => ?_
    have hrest' : ∀ r ∈ rest, S.initializes w' object r := fun r hr => S.initializes_mono hle (hrest r hr)
    cases found with
    | none => exact ih hrest'
    | some entry =>
      exact S.bind (S.initializeFields hrec (hfound entry.1 entry.2 rfl)) fun w'' _ hle' _ =>
        ih fun r hr => S.initializes_mono hle' (hrest' r hr)

theorem evaluateMember (htarget : S.value w target) (haccess : code.suffix w env (.member site title)) :
    R w S.value (Actions.evaluateMember A recur target site title)
      (Actions.evaluateMember B recur' target site title) := by
  cases target with
  | classValue ref =>
    refine S.class? w ref htarget fun w' found found' hle hfound => ?_
    cases hfound with
    | none => exact S.throw _ rfl
    | @some c d h =>
      obtain ⟨hname, hclass⟩ := h
      dsimp only
      rw [← hname]
      split
      · refine S.bind (S.newObject w' ref c d hclass) fun w'' made _ hmade => ?_
        exact S.bind (S.initializeAs hrec hmade.2) fun w₃ _ hle' _ => S.pure (S.value_mono hle' hmade.1)
      · exact S.throw _ rfl
  | object ref => exact S.readMember w env ref site title htarget haccess
  | _ => exact S.throw _ rfl

theorem evaluateIndex (htarget : S.value w target) (hindex : code.node w env index) :
    R w S.place (Actions.evaluateIndex A recur env target index) (Actions.evaluateIndex B recur' env target index) := by
  cases target with
  | array ref =>
    exact S.bind (hrec w index env hindex) fun w' i hle hi =>
      S.element w' (.array ref) i _ (S.value_mono hle htarget) hi
  | _ => exact S.throw _ rfl

theorem applySuffix (htarget : S.value w target) (hs : code.suffix w env s) :
    R w S.value (Actions.applySuffix A recur env target s) (Actions.applySuffix B recur' env target s) := by
  cases s with
  | arguments arguments => exact S.call hrec htarget hs
  | member site title => exact S.evaluateMember hrec htarget hs
  | element index =>
    exact S.bind (S.evaluateIndex hrec htarget (code.element hs)) fun w' place _ hplace =>
      S.readElement w' place.1 place.2 hplace

theorem applySuffixes (htarget : S.value w target) (hs : ∀ s ∈ suffixes, code.suffix w env s) :
    R w S.value (Actions.applySuffixes A recur env target suffixes)
      (Actions.applySuffixes B recur' env target suffixes) := by
  induction suffixes generalizing w target with
  | nil => exact S.pure htarget
  | cons s rest ih =>
    obtain ⟨hfirst, hrest⟩ := List.forall_mem_cons.mp hs
    exact S.bind (S.applySuffix hrec htarget hfirst) fun w' value hle hvalue =>
      ih hvalue fun s hs => code.suffix_mono hle (hrest s hs)

/-- The owner of a target with suffixes; what comes after it is told that time has passed. -/
theorem owner {inner : List Suffix} (hoperand : code.node w env operand)
    (hinner : ∀ s ∈ inner, code.suffix w env s) {α : Type} {Q : W → α → Prop} {f : Value → EStateM Failure σ α}
    {g : Value → EStateM Failure τ α} (hfg : ∀ w' v, w ≤ w' → S.value w' v → R w' Q (f v) (g v)) :
    R w Q (do f (← Actions.applySuffixes A recur env (← recur operand env) inner))
      (do g (← Actions.applySuffixes B recur' env (← recur' operand env) inner)) := by
  refine S.bind (hrec w operand env hoperand) fun w₁ base hle₁ hbase => ?_
  refine S.bind (S.applySuffixes hrec hbase fun s hs => code.suffix_mono hle₁ (hinner s hs)) fun w₂ v hle₂ hv => ?_
  exact hfg w₂ v (le_trans hle₁ hle₂) hv

theorem assign (hleft : code.target w env left) (hright : code.node w env right) (line : Int) :
    R w S.value (Actions.assign A recur env left right line) (Actions.assign B recur' env left right line) := by
  have hvalue := hrec w right env hright
  unfold Actions.assign
  split
  · rename_i site word
    refine S.bind hvalue fun w₁ v hle₁ hv => ?_
    exact S.bind (S.assignName w₁ env site word v (code.target_mono hle₁ hleft) hv) fun w₂ _ hle₂ _ =>
      S.pure (S.value_mono hle₂ hv)
  · rename_i operand inner site title
    refine S.bind hvalue fun w₁ v hle₁ hv => ?_
    obtain ⟨hoperand, hinner, haccess⟩ := code.access (code.target_mono hle₁ hleft)
    refine S.owner hrec hoperand hinner fun w₂ o hle₂ ho => ?_
    have hv₂ := S.value_mono hle₂ hv
    exact S.bind (S.assignMember w₂ env o site title v ho (code.suffix_mono hle₂ haccess) hv₂) fun w₃ _ hle₃ _ =>
      S.pure (S.value_mono hle₃ hv₂)
  · rename_i operand inner index
    refine S.bind hvalue fun w₁ v hle₁ hv => ?_
    obtain ⟨hoperand, hinner, hindex⟩ := code.access (code.target_mono hle₁ hleft)
    refine S.owner hrec hoperand hinner fun w₂ o hle₂ ho => ?_
    have hindex₂ := code.element (code.suffix_mono hle₂ hindex)
    refine S.bind (S.evaluateIndex hrec ho hindex₂) fun w₃ place hle₃ hplace => ?_
    have hv₃ := S.value_mono (le_trans hle₂ hle₃) hv
    exact S.bind (S.setElement w₃ place.1 place.2 v hplace hv₃) fun w₄ _ hle₄ _ => S.pure (S.value_mono hle₄ hv₃)
  · exact S.throw _ rfl

theorem evaluateNode (hnode : code.node w env node) :
    R w S.value (Actions.evaluateNode A recur env node) (Actions.evaluateNode B recur' env node) := by
  cases node with
  | number word value => exact S.pure (S.value_integer w value)
  | string word => exact S.pure (S.value_string w word.text)
  | name site word => exact S.readName w env site word hnode
  | empty => exact S.pure (S.value_null w)
  | block statements => exact S.evaluateBlock hrec (code.block hnode) (S.value_null w)
  | binary left operator right =>
    simp only [Actions.evaluateNode]
    split
    · rename_i heq
      obtain ⟨hleft, hright⟩ := code.assignment heq hnode
      exact S.assign hrec hleft hright _
    · rename_i hne
      obtain ⟨hleft, hright⟩ := code.binary hne hnode
      refine S.bind (hrec w left env hleft) fun w₁ a hle₁ ha => ?_
      exact S.bind (hrec w₁ right env (code.node_mono hle₁ hright)) fun w₂ b hle₂ hb =>
        S.operate w₂ operator.text a b _ (S.value_mono hle₂ ha) hb
  | negative operand =>
    refine S.bind (hrec w operand env (code.negative hnode)) fun w' value _ _ => ?_
    cases value with
    | integer n => exact S.pure (S.value_integer w' (-n))
    | _ => exact S.throw _ rfl
  | conditional condition consequence alternative =>
    obtain ⟨hcondition, hconsequence, hother⟩ := code.conditional hnode
    refine S.bind (hrec w condition env hcondition) fun w' test hle _ => ?_
    split
    · exact hrec w' consequence env (code.node_mono hle hconsequence)
    · cases alternative with
      | none => exact S.pure (S.value_integer w' 0)
      | some other => exact hrec w' other env (code.node_mono hle (hother other rfl))
  | loop condition body =>
    obtain ⟨hloops, hcondition, hbody⟩ := code.loop hnode
    exact S.bind (S.rounds w hloops) fun w' bound hle _ => S.evaluateLoop hrec hloops (code.node_mono hle hcondition)
      (code.node_mono hle hbody) bound (S.value_integer w' 0)
  | primary operand inner last =>
    obtain ⟨hoperand, hinner, hlast⟩ := code.primary hnode
    exact S.owner hrec hoperand hinner fun w' v hle hv => S.applySuffix hrec hv (code.suffix_mono hle hlast)
  | definition site title params body => exact S.define w env site title params body _ hnode
  | closure site params body => exact S.makeClosure w env site params body hnode
  | classDefinition site title parent members => exact S.defineClass w env site title parent members _ hnode
  | array elements =>
    exact S.bind (S.evaluateAll hrec (code.array hnode)) fun w' values _ hvalues =>
      S.newArray w' values hvalues.2
  | _ => exact S.throw _ rfl

omit hrec in
theorem evaluate (hdepth : ∀ w, R w (fun _ _ => True) A.maxDepth B.maxDepth) (levels : Nat)
    (hnode : code.node w env node) : R w S.value (A.evaluate levels node env) (B.evaluate levels node env) := by
  induction levels generalizing w node env with
  | zero => exact S.bind (hdepth w) fun _ _ _ _ => S.throw _ rfl
  | succ levels ih => exact S.evaluateNode (fun _ _ _ h => ih h) hnode

end Accord

end StoneLang
