/-
  Evaluation under other settings.

  PROGRAM: `Run.execute`, on a machine and on one in a guise that remembers the same of members.

  SPEC: both give the same value or the same failure, and the machines stay as much apart; or the first one
  fails at its limit of nesting, and then what it has written is the beginning of what the second one writes
  (`Run.Agrees`).

  The second half needs that nothing takes back what has been written, so `Run.Agrees` says this as well.
-/
import StoneLang.Proofs.Evaluation.Accord
import StoneLang.Proofs.Settings.Variants

namespace StoneLang

namespace Machine

variable (m : Machine) (v : Guise) (records : Array Record)

theorem baseLayout_guised (base : Option Nat) : (m.guised v records).baseLayout base = m.baseLayout base := by
  cases base with
  | none => rfl
  | some ref =>
    unfold baseLayout
    simp only [Option.bind_some, class?_guised, Option.map_map]
    rfl

theorem parentsOf_guised (base : Option Nat) : (m.guised v records).parentsOf base = m.parentsOf base := by
  cases base with
  | none => rfl
  | some ref =>
    simp only [parentsOf, Option.bind_some, class?_guised]
    cases m.classes[ref]? <;> rfl

theorem withClass_guised (title : Text) (parents : List Nat) (layout : Layout) (members : List Node) (env : Env) :
    (m.guised v records).withClass title parents layout members env
      = (m.withClass title parents layout members env).guised v records := by
  have hnext : m.nextClass + v.step + 1 = m.nextClass + 1 + v.step := Nat.add_right_comm ..
  simp only [withClass, guised, under, Array.map_push, Class.raised, hnext]

theorem note_guised (record record' : Record) :
    ∃ records', (m.guised v records).note record = (m.note record').guised v records' := by
  unfold note
  split <;> split <;> exact ⟨_, rfl⟩

theorem output_note (record : Record) : (m.note record).output = m.output := by
  rw [note_eq]

end Machine

namespace Run

variable {v : Guise} {α β : Type}

/-! ## Two runs -/

/-- How a run ends and one in a guise: alike, or the first one at its limit of nesting. -/
def Agree (v : Guise) (left right : EStateM.Result Failure Machine α) : Prop :=
  (∃ records, right = onState (Machine.guised · v records) left) ∨
    0 < v.deeper ∧ ∃ e m, left = .error e m ∧ e.kind = .stackExhausted ∧ m.output.Before (finalState right).output

/-- The two runs agree, what has been written stays written, and the results satisfy `Q`. -/
structure Agrees (v : Guise) (Q : α → Prop) (x y : Run α) : Prop where
  agree : ∀ (m : Machine) (records : Array Record), Agree v (x m) (y (m.guised v records))
  writes : ∀ m : Machine, m.output.Before (finalState (y m)).output
  holds : ∀ (m m' : Machine) (a : α), y m = .ok a m' → Q a

variable {Q : α → Prop}

theorem Indifferent.agrees (h : Indifferent v x) (hQ : ∀ a, Q a) : Agrees v Q x x :=
  ⟨fun m records => .inl (h.same m records), h.writes, fun _ _ a _ => hQ a⟩

theorem Agrees.pure (h : Q a) : Agrees v Q (Pure.pure a) (Pure.pure a) where
  agree _ records := .inl ⟨records, rfl⟩
  writes _ := .refl _
  holds m m' b hok := by
    cases hok
    exact h

theorem Agrees.throw (e : Failure) : Agrees v Q (MonadExcept.throw e) (MonadExcept.throw e) where
  agree _ records := .inl ⟨records, rfl⟩
  writes _ := .refl _
  holds _ _ _ := nofun

theorem Agrees.bind (hx : Agrees v P x y)
    (hf : ∀ a, P a → Agrees v Q (f a) (g a)) : Agrees v Q (x >>= f) (y >>= g) where
  agree m records := by
    rcases hx.agree m records with ⟨records', hright⟩ | ⟨hdeeper, e, m', hleft, he, hbefore⟩
    · rw [bind_apply, bind_apply]
      cases hleft : x m with
      | ok a m' =>
        rw [hleft] at hright
        rw [hright]
        exact (hf a (hx.holds _ _ a hright)).agree m' records'
      | error e m' =>
        rw [hright, hleft]
        exact .inl ⟨records', rfl⟩
    · rw [bind_apply, hleft]
      exact .inr ⟨hdeeper, e, m', rfl, he, before_bind hbefore fun a _ hright => (hf a (hx.holds _ _ a hright)).writes _⟩
  writes m := before_bind (hx.writes m) fun a m' hres => (hf a (hx.holds m m' a hres)).writes m'
  holds m m' b hok := by
    obtain ⟨a, m'', hy, hg⟩ := bind_eq_ok.mp hok
    exact (hf a (hx.holds m m'' a hy)).holds m'' m' b hg

/-! ## Names of a unit and of a class -/

theorem writes_placeNames (unit : Node) (m : Machine) : m.output.Before (finalState (placeNames unit m)).output := by
  rw [placeNames_eq, finalState_onState]
  exact .refl _

theorem agrees_placeNames (unit : Node) : Agrees v (fun _ => True) (placeNames unit) (placeNames unit) where
  agree m records := by
    rw [placeNames_eq, placeNames_eq]
    have hresolve := agree_resolve ⟨m.settings.maxDepth, m.settings.watched⟩
      ⟨m.settings.maxDepth + v.deeper, v.watched⟩ rfl unit m.globalNames m.notes v.memory
    rcases hresolve with ⟨more, hright⟩ | ⟨hdeeper, e, s, hleft, he⟩
    · refine .inl ⟨records ++ more, ?_⟩
      have hright' : resolve ⟨(m.guised v records).settings.maxDepth, (m.guised v records).settings.watched⟩ unit
          (m.guised v records).globalNames (m.guised v records).notes = _ := hright
      rw [hright']
      cases resolve ⟨m.settings.maxDepth, m.settings.watched⟩ unit m.globalNames m.notes <;> rfl
    · rw [hleft]
      refine .inr ⟨hdeeper, e, m.placed s, rfl, he, ?_⟩
      rw [finalState_onState]
      exact .refl _
  writes m := writes_placeNames unit m
  holds _ _ _ _ := trivial

theorem writes_defineClass (env : Env) (site : Site) (title : Label) (parent : Option Label) (members : List Node)
    (line : Int) (m : Machine) :
    m.output.Before (finalState (defineClass env site title parent members line m)).output := by
  rcases defineClass_cases env site title parent members line m with ⟨cause, -, hdefine⟩ |
    ⟨base, -, ⟨e, s, -, hdefine⟩ | ⟨layout, s, made, -, rfl, ⟨cause, -, hdefine⟩ | ⟨bound, record, hbound, hdefine⟩⟩⟩
  all_goals rw [hdefine]
  · exact .refl _
  · exact .refl _
  · exact .refl _
  · exact .of_eq ((bound.output_note record).trans (Machine.output_bound hbound :))

theorem agrees_defineClass (env : Env) (site : Site) (title : Label) (parent : Option Label) (members : List Node)
    (line : Int) :
    Agrees v (fun _ => True) (defineClass env site title parent members line)
      (defineClass env site title parent members line) where
  agree m records := by
    have hwritten := writes_defineClass env site title parent members line (m.guised v records)
    obtain ⟨record, hleft⟩ := defineClass_eq env site title parent members line m
    obtain ⟨record', hright⟩ := defineClass_eq env site title parent members line (m.guised v records)
    rw [Machine.superclass_guised] at hright
    rw [hleft]
    generalize defineClass env site title parent members line (m.guised v records) = right at hwritten hright ⊢
    generalize m.superclass env parent = base at hright ⊢
    cases base with
    | error cause => exact .inl ⟨records, hright⟩
    | ok base =>
      dsimp only at hright ⊢
      have hclass := agree_resolveClass ⟨m.settings.maxDepth, m.settings.watched⟩
        ⟨m.settings.maxDepth + v.deeper, v.watched⟩ rfl title.text members (m.baseLayout base)
        m.globalNames m.notes v.memory
      rcases hclass with ⟨more, hlaid⟩ | ⟨hdeeper, e, s, hfails, he⟩
      · rw [Machine.baseLayout_guised] at hright
        have hlaid' : resolveClass ⟨(m.guised v records).settings.maxDepth, (m.guised v records).settings.watched⟩ title.text
            members (m.baseLayout base) (m.guised v records).globalNames (m.guised v records).notes = _ := hlaid
        rw [hlaid'] at hright
        generalize resolveClass ⟨m.settings.maxDepth, m.settings.watched⟩ title.text members (m.baseLayout base)
          m.globalNames m.notes = laid at hright ⊢
        cases laid with
        | error e s => exact .inl ⟨records ++ more, hright⟩
        | ok layout s =>
          -- the class is made and bound on both sides
          dsimp only [onState] at hright ⊢
          let made := (m.laidOut s).withClass title.text (m.parentsOf base) layout members env
          have hmade : ((m.guised v records).laidOut (s.beside v.memory more)).withClass title.text
              ((m.guised v records).parentsOf base) layout members env = made.guised v (records ++ more) := by
            rw [Machine.parentsOf_guised]
            exact (m.laidOut s).withClass_guised v (records ++ more) title.text _ layout members env
          rw [hmade] at hright
          have hslot : (made.guised v (records ++ more)).notes.slots = made.notes.slots := rfl
          rw [hslot, Machine.bound_guised] at hright
          have hmadeLeft : (m.laidOut s).withClass title.text (m.parentsOf base) layout members env = made := rfl
          rw [hmadeLeft]
          have hsize : (m.guised v records).classes.size = m.classes.size := Array.size_map
          rw [hsize] at hright
          generalize made.bound env (made.notes.slots.get? site) title.text (.classValue m.classes.size) = bound at hright ⊢
          cases bound with
          | error cause => exact .inl ⟨records ++ more, hright⟩
          | ok bound =>
            dsimp only [Except.map] at hright ⊢
            obtain ⟨records', hnoted⟩ := bound.note_guised v (records ++ more)
              (record' (m.guised v records).nextClass layout) (record m.nextClass layout)
            rw [hnoted] at hright
            exact .inl ⟨records', hright⟩
      · rw [hfails]
        exact .inr ⟨hdeeper, e, m.laidOut s, rfl, he, hwritten⟩
  writes m := writes_defineClass env site title parent members line m
  holds _ _ _ _ := trivial

/-! ## Evaluation -/

theorem agrees_class? (ref : Nat)
    (h : ∀ found found', Option.Rel (fun c d : Class => c.name = d.name ∧ c.layout = d.layout) found found' →
      Agrees v Q (f found) (g found')) :
    Agrees v Q (Actions.machine.class? ref >>= f) (Actions.machine.class? ref >>= g) where
  agree m records := by
    refine (h m.classes[ref]? (m.guised v records).classes[ref]? ?_).agree m records
    rw [Machine.class?_guised]
    cases m.classes[ref]? with
    | none => exact .none
    | some c => exact .some ⟨rfl, rfl⟩
  writes m := (h m.classes[ref]? _ (rel_self fun _ _ => ⟨rfl, rfl⟩)).writes m
  holds m := (h m.classes[ref]? _ (rel_self fun _ _ => ⟨rfl, rfl⟩)).holds m

def accord (v : Guise) (hv : v.Recalls) :
    Accord .any (fun _ Q x y => Agrees v (Q .still) x y) Actions.machine Actions.machine where
  value _ _ := True
  native _ := True
  callable _ _ f g := f = g
  constructible _ _ c d := c.layout = d.layout
  initializes _ _ _ := True
  place _ _ := True
  pure := .pure
  throw d _ := .throw (.diagnostic d)
  unfinished _ := .throw .unfinished
  bind hx hf := hx.bind fun a ha => hf .still a le_rfl ha
  rounds _ _ := (indifferent_get (fun _ _ => rfl) fun _ => .pure _).agrees fun _ => trivial
  readName _ env site word _ := (indifferent_readName site word env).agrees fun _ => trivial
  assignName _ env site word value _ _ := (indifferent_assignName site word value env).agrees fun _ => trivial
  operate _ operator a b line _ _ := (indifferent_operate operator a b line).agrees fun _ => trivial
  newArray _ _ _ := (indifferent_modifyGet (fun _ _ => rfl) fun _ => .refl _).agrees fun _ => trivial
  makeClosure _ env site params body _ := (indifferent_makeFunction env site [] params body).agrees fun _ => trivial
  define _ env site title params body line _ :=
    (indifferent_define env site title params body line).agrees fun _ => trivial
  defineClass _ env site title parent members line _ := agrees_defineClass env site title parent members line
  native? _ _ _ := (indifferent_get (fun _ _ => rfl) fun _ => .pure _).agrees fun _ _ _ => trivial
  callNative _ env native line values _ _ _ _ := (indifferent_callNative native env line values).agrees fun _ => trivial
  function? _ ref _ _ _ _ _ hfg :=
    have hlook : Agrees v (fun _ => True) (Actions.machine.function? ref) (Actions.machine.function? ref) :=
      (indifferent_get (fun _ _ => rfl) fun _ => .pure _).agrees fun _ => trivial
    hlook.bind fun found _ => hfg .still found found le_rfl (rel_self fun _ _ => ⟨⟨rfl, rfl, rfl⟩, rfl⟩)
  enterFunction _ _ f g values hsame _ _ := by
    obtain rfl : f = g := hsame
    exact (indifferent_enter (Actions.functionFrame f values) f.env).agrees fun _ => ⟨trivial, trivial⟩
  className _ object _ _ := (indifferent_get (fun m records => by rw [m.className_guised v records object])
    fun _ => .pure _).agrees fun _ => trivial
  enterMethod _ object d values _ _ _ := (indifferent_enterMethod object d values).agrees fun _ => ⟨trivial, trivial⟩
  class? _ ref _ _ _ _ _ hfg := agrees_class? ref fun found found' => hfg .still found found' le_rfl
  newObject _ ref c d hlayout := by
    have hsame : Actions.machine.newObject ref d = Actions.machine.newObject ref c := by
      unfold Actions.machine
      simp only [show d.layout = c.layout from hlayout.symm]
    rw [hsame]
    exact (indifferent_newObject ref c).agrees fun _ => ⟨trivial, fun _ _ => trivial⟩
  enterInitializers _ object ref _ :=
    (indifferent_enterInitializers object ref).agrees fun _ _ _ _ _ _ _ => ⟨trivial, trivial⟩
  readMember _ _ object site title _ _ := (indifferent_readMember hv object site title).agrees fun _ => trivial
  assignMember _ _ target site title value _ _ _ :=
    (indifferent_assignMember hv target site title value).agrees fun _ => trivial
  element _ target index line _ _ := (indifferent_element target index line).agrees fun _ => trivial
  readElement _ _ _ _ := (indifferent_get (fun _ _ => rfl) fun _ => .pure _).agrees fun _ => trivial
  setElement _ _ _ _ _ _ := (indifferent_modifyGet (fun _ _ => rfl) fun _ => .refl _).agrees fun _ => trivial

theorem agrees_evaluate_of (hv : v.Recalls)
    (hzero : ∀ node env, Agrees v (fun _ => True) (evaluate 0 node env) (evaluate v.deeper node env)) (levels : Nat) (node : Node)
    (env : Env) : Agrees v (fun _ => True) (evaluate levels node env) (evaluate (levels + v.deeper) node env) := by
  induction levels generalizing node env with
  | zero =>
    rw [Nat.zero_add]
    exact hzero node env
  | succ levels ih =>
    have hlevels : levels + 1 + v.deeper = (levels + v.deeper) + 1 := by omega
    rw [hlevels]
    unfold evaluate
    rw [← Actions.evaluateNode_machine, ← Actions.evaluateNode_machine]
    have hrec : ∀ (_ : Still) node env, Evaluable.any.node .still env node →
        Agrees v (fun _ => True) (evaluate levels node env) (evaluate (levels + v.deeper) node env) :=
      fun _ node env _ => ih node env
    exact (accord v hv).evaluateNode hrec (w := .still) ⟨trivial, trivial⟩

theorem agrees_evaluate_zero (hdeeper : v.deeper = 0) (node : Node) (env : Env) :
    Agrees v (fun _ => True) (evaluate 0 node env) (evaluate v.deeper node env) := by
  obtain ⟨⟨deeper, watched, memory⟩, step, site⟩ := v
  change deeper = 0 at hdeeper
  subst hdeeper
  exact ⟨fun _ records => .inl ⟨records, rfl⟩, fun _ => .refl _, fun _ _ _ _ => trivial⟩

theorem writes_evaluate (levels : Nat) (node : Node) (env : Env) (m : Machine) :
    m.output.Before (finalState (evaluate levels node env m)).output :=
  (agrees_evaluate_of (Variant.recalls (v := ⟨0, true, id⟩) rfl) (agrees_evaluate_zero rfl) levels node env).writes m

theorem agrees_evaluate (hv : v.Recalls) (levels : Nat) (node : Node) (env : Env) :
    Agrees v (fun _ => True) (evaluate levels node env) (evaluate (levels + v.deeper) node env) := by
  refine agrees_evaluate_of hv (fun node env => ⟨fun m records => ?_, writes_evaluate _ node env,
    fun _ _ _ _ => trivial⟩) levels node env
  by_cases hdeeper : 0 < v.deeper
  · exact .inr ⟨hdeeper, _, m, rfl, rfl, writes_evaluate v.deeper node env (m.guised v records)⟩
  · exact (agrees_evaluate_zero (Nat.eq_zero_of_not_pos hdeeper) node env).agree m records

theorem agrees_execute (hv : v.Recalls) (unit : Node) :
    Agrees v (fun _ => True) (execute unit) (execute unit) where
  agree m records := by
    have hevaluate := agrees_evaluate hv m.settings.maxDepth unit Machine.globalEnv
    unfold execute
    rw [get_bind_apply, get_bind_apply]
    by_cases hplaces : m.settings.placesNames = true
    · have hplaces' : (m.guised v records).settings.placesNames = true := hplaces
      rw [if_pos hplaces, if_pos hplaces']
      exact ((agrees_placeNames unit).bind fun _ _ => hevaluate).agree m records
    · have hplaces' : ¬ (m.guised v records).settings.placesNames = true := hplaces
      rw [if_neg hplaces, if_neg hplaces']
      exact hevaluate.agree m records
  writes m := by
    unfold execute
    rw [get_bind_apply]
    split
    · exact before_bind (writes_placeNames unit m) fun _ _ _ => writes_evaluate _ unit Machine.globalEnv _
    · exact writes_evaluate _ unit Machine.globalEnv m
  holds _ _ _ _ := trivial

end Run

end StoneLang
