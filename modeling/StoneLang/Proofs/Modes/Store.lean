/-
  The part of a machine that is the same in both modes.

  Arrays, objects, classes, natives, the streams and what member accesses found do not depend on how names
  are addressed.  `Machine.withStoreOf` gives one machine this part of another.  An action is store-only
  (`Run.StoreOnly`) if it reads and changes this part alone; then it does the same on two machines that
  share it, whatever their frames, functions and other notes are.
-/
import StoneLang.Proofs.Evaluation.Actions
import StoneLang.Proofs.Evaluation.Natives

namespace StoneLang

def Machine.withStoreOf (m s : Machine) : Machine :=
  { m with
    arrays := s.arrays
    natives := s.natives
    classes := s.classes
    objects := s.objects
    notes := { m.notes with caches := s.notes.caches }
    input := s.input
    output := s.output
    nextClass := s.nextClass
    stopwatch := s.stopwatch }

def Machine.SameNames (m s : Machine) : Prop :=
  ∀ ref : Nat, (m.functions[ref]?).map Function.shownName = (s.functions[ref]?).map Function.shownName

def Run.StoreOnly {α : Type} (x : Run α) : Prop :=
  ∀ m s : Machine, m.SameNames s → x (m.withStoreOf s) = onState m.withStoreOf (x s) ∧
    finalState (x s) = s.withStoreOf (finalState (x s))

theorem Machine.render_withStoreOf {m s : Machine} (h : m.SameNames s) (value : Value) :
    (m.withStoreOf s).render value = s.render value := by
  have hflat : ∀ v, (m.withStoreOf s).renderFlat v = s.renderFlat v := by
    intro v
    cases v with
    | function ref =>
      simp only [Machine.renderFlat]
      rw [← h ref]
      rfl
    | _ => rfl
  exact @render_congr s (m.withStoreOf s) rfl hflat value

namespace Run.StoreOnly

theorem operate (operator : Text) (a b : Value) (line : Int) :
    StoreOnly (Actions.machine.operate operator a b line) := by
  intro m s hnames
  have hsame : binaryOperation (m.withStoreOf s) operator a b = binaryOperation s operator a b := by
    unfold binaryOperation
    rw [Machine.render_withStoreOf hnames, Machine.render_withStoreOf hnames]
  have heq : ∀ m, Actions.machine.operate operator a b line m
      = Run.ofCause line (binaryOperation m operator a b) m := fun _ => rfl
  rw [heq, heq, hsame]
  cases binaryOperation s operator a b <;> exact ⟨rfl, rfl⟩

theorem newArray (elements : Array Value) : StoreOnly (Run.newArray elements) :=
  fun _ _ _ => ⟨rfl, rfl⟩

theorem readElement (ref index : Nat) : StoreOnly (Run.readElement ref index) :=
  fun _ _ _ => ⟨rfl, rfl⟩

theorem setElement (ref index : Nat) (value : Value) : StoreOnly (Run.setElement ref index value) :=
  fun _ _ _ => ⟨rfl, rfl⟩

theorem element (target index : Value) (line : Int) : StoreOnly (Run.element target index line) := by
  intro m s _
  cases target with
  | array ref =>
    cases index with
    | integer i =>
      have heq : ∀ m : Machine, Run.element (.array ref) (.integer i) line m
          = if i.toInt < 0 ∨ (((m.arrays[ref]?).getD #[]).size : Int) ≤ i.toInt then
              Run.fault (.indexOutOfBounds i ((m.arrays[ref]?).getD #[]).size) line m
            else .ok (ref, i.toInt.toNat) m := by
        intro m
        show (if _ then _ else _ : Run (Nat × Nat)) m = _
        split <;> rfl
      rw [heq, heq]
      show (if i.toInt < 0 ∨ (((s.arrays[ref]?).getD #[]).size : Int) ≤ i.toInt then _ else _) = _ ∧ _
      split <;> exact ⟨rfl, rfl⟩
    | _ => exact ⟨rfl, rfl⟩
  | _ => cases index <;> exact ⟨rfl, rfl⟩

theorem newObject (ref : Nat) (c : Class) : StoreOnly (Actions.machine.newObject ref c) :=
  fun _ _ _ => ⟨rfl, rfl⟩

theorem member (m s : Machine) (object : Nat) (site : Site) (title : Label) :
    (m.withStoreOf s).member object site title
        = (s.member object site title).map (fun found => (found.1, m.withStoreOf found.2)) ∧
      ∀ entry s', s.member object site title = .ok (entry, s') → s' = s.withStoreOf s' := by
  have hclass : (m.withStoreOf s).classOf? object = s.classOf? object := rfl
  unfold Machine.member
  rw [hclass]
  cases s.classOf? object with
  | none => exact ⟨rfl, by simp⟩
  | some c =>
    dsimp only
    have hcache : (m.withStoreOf s).notes.caches = s.notes.caches := rfl
    rw [hcache]
    cases (s.notes.caches.get? site).filter fun entry => entry.classId == c.id with
    | some entry =>
      refine ⟨rfl, ?_⟩
      rintro _ _ ⟨⟩
      rfl
    | none =>
      dsimp only
      cases searchMember c title.text with
      | none => exact ⟨rfl, by simp⟩
      | some entry =>
        refine ⟨rfl, ?_⟩
        rintro _ _ ⟨⟩
        rfl

theorem readMember (object : Nat) (site : Site) (title : Label) :
    StoreOnly (Run.readMember object site title) := by
  intro m s _
  obtain ⟨hmember, hkept⟩ := member m s object site title
  rw [Run.readMember_eq, Run.readMember_eq, hmember]
  cases hfound : s.member object site title with
  | error cause => exact ⟨rfl, rfl⟩
  | ok found => exact ⟨rfl, hkept found.1 found.2 hfound⟩

theorem assignMember (target : Value) (site : Site) (title : Label) (value : Value) :
    StoreOnly (Run.assignMember target site title value) := by
  intro m s _
  cases target with
  | object ref =>
    obtain ⟨hmember, hkept⟩ := member m s ref site title
    rw [Run.assignMember_eq, Run.assignMember_eq, hmember]
    cases hfound : s.member ref site title with
    | error cause => exact ⟨rfl, rfl⟩
    | ok found =>
      have hs := hkept found.1 found.2 hfound
      obtain ⟨entry, s'⟩ := found
      dsimp only at hs
      simp only [Except.map]
      cases entry.isField with
      | true =>
        refine ⟨rfl, ?_⟩
        show s'.withField ref entry.index value = s.withStoreOf (s'.withField ref entry.index value)
        rw [hs]
        rfl
      | false => exact ⟨rfl, hs⟩
  | _ => exact ⟨rfl, rfl⟩

theorem callNative {native : Native} (h : native.IsStandard) (env : Env) (line : Int)
    (arguments : List Value) : StoreOnly (Run.callNative native env line arguments) := by
  intro m s hnames
  have hstreams : s.SameStreams (m.withStoreOf s) :=
    ⟨rfl, rfl, rfl, rfl, Machine.render_withStoreOf hnames⟩
  have hfinal := Run.finalState_callNative h env line arguments s
  rw [Run.callNative_standard hstreams h env env line arguments]
  cases hres : Run.callNative native env line arguments s with
  | ok value s' | error e s' =>
    rw [hres] at hfinal
    have hfinal : s' = s.withStreamsOf s' := hfinal
    rw [hfinal]
    exact ⟨rfl, rfl⟩

end Run.StoreOnly

end StoneLang
