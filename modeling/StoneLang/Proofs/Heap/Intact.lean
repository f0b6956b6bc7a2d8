/-
  Machines in which every number leads somewhere.

  A value of the language is often a number: of an array, of a function, of a class.  `Machine.Valid` says that the machine
  has the entry.  `Machine.Intact` says this of all values that a machine holds, and likewise of its environments, of the
  classes and fields of its objects, of the sizes of its methods, and of what member accesses remember.

  Entries are never removed (`Machine.Grows`), so what is valid once is valid for ever.  Each step of the evaluator is
  shown to lead from an intact machine to an intact one that has grown (`Machine.Lands`).
-/
import StoneLang.Proofs.Members.Memory

namespace StoneLang

/-! ## What is there -/

def NativeAction.reads : NativeAction → Nat
  | .print | .length | .toInt => 1
  | _ => 0

/-- The native takes as many arguments as it looks at, if it looks at any. -/
def Native.Fits (n : Native) : Prop := n.action.reads = 0 ∨ n.arity = n.action.reads

/-- The layout has the field or the method that is remembered. -/
def Layout.Covers (l : Layout) (entry : MemberCache) : Prop :=
  entry.index < if entry.isField then l.fieldCount else l.definitions.length

namespace Machine

/-- The entry that a value refers to is there; a method has its receiver, and the number of its slots is known. -/
def Valid (m : Machine) : Value → Prop
  | .null | .integer _ | .string _ => True
  | .array ref => ref < m.arrays.size
  | .function ref => ref < m.functions.size
  | .native ref => ref < m.natives.size
  | .classValue ref => ref < m.classes.size
  | .object ref => ref < m.objects.size
  | .method object d => object < m.objects.size ∧ (m.notes.sizes.get? d.site).isSome

def HasEnv (m : Machine) (env : Env) : Prop := ∀ f ∈ env, f < m.frames.size

/-- All that a class refers to is there: its environment, its superclasses, and its methods with their sizes. -/
structure Hosts (m : Machine) (c : Class) : Prop where
  env : m.HasEnv c.env
  parents : ∀ ref ∈ c.parents, ref < m.classes.size
  layout : c.layout.Sound
  sized : ∀ d ∈ c.layout.definitions, (m.notes.sizes.get? d.site).isSome

/-- The object has a class, and one slot for every field of it. -/
def Fits (m : Machine) (o : Object) : Prop :=
  ∃ c, m.classes[o.classRef]? = some c ∧ o.fields.size = c.layout.fieldCount

/-- Every number in the machine leads somewhere. -/
structure Intact (m : Machine) : Prop where
  held : m.Holds m.Valid
  globals : m.HasEnv globalEnv
  functions : ∀ f ∈ m.functions, m.HasEnv f.env
  natives : ∀ n ∈ m.natives, n.Fits
  classes : ∀ c ∈ m.classes, m.Hosts c
  objects : ∀ o ∈ m.objects, m.Fits o
  /-- What a member access remembers is in range, in the class for which it remembers it. -/
  memory : m.Recalling fun _ c entry => c.layout.Covers entry

/-- The second machine has all entries of the first. -/
structure Grows (m m' : Machine) : Prop where
  frames : m.frames.size ≤ m'.frames.size
  arrays : m.arrays.size ≤ m'.arrays.size
  functions : m.functions.toList <+: m'.functions.toList
  natives : m.natives.size ≤ m'.natives.size
  classes : m.classes.size ≤ m'.classes.size
  objects : m.objects.size ≤ m'.objects.size
  sizes : ∀ site : Nat, (m.notes.sizes.get? site).isSome → (m'.notes.sizes.get? site).isSome

variable {m m' m'' : Machine}

theorem Grows.refl (m : Machine) : m.Grows m :=
  ⟨Nat.le_refl _, Nat.le_refl _, List.prefix_rfl, Nat.le_refl _, Nat.le_refl _, Nat.le_refl _, fun _ => id⟩

theorem Grows.trans (h : m.Grows m') (h' : m'.Grows m'') : m.Grows m'' where
  frames := Nat.le_trans h.frames h'.frames
  arrays := Nat.le_trans h.arrays h'.arrays
  functions := h.functions.trans h'.functions
  natives := Nat.le_trans h.natives h'.natives
  classes := Nat.le_trans h.classes h'.classes
  objects := Nat.le_trans h.objects h'.objects
  sizes site hsite := h'.sizes site (h.sizes site hsite)

theorem Grows.function (h : m.Grows m') {ref : Nat} {f : Function} (hf : m.functions[ref]? = some f) :
    m'.functions[ref]? = some f := by
  obtain ⟨added, hadded⟩ := h.functions
  rw [← Array.getElem?_toList] at hf ⊢
  rw [← hadded, List.getElem?_append_left (List.getElem?_eq_some_iff.mp hf).1]
  exact hf

variable {value : Value} {env : Env} {c : Class} {entry : MemberCache}

theorem Valid.later (h : m.Grows m') (hv : m.Valid value) : m'.Valid value := by
  cases value with
  | null => trivial
  | integer n => trivial
  | string t => trivial
  | array ref => exact Nat.lt_of_lt_of_le hv h.arrays
  | function ref =>
    have hle := h.functions.length_le
    simp only [Array.length_toList] at hle
    exact Nat.lt_of_lt_of_le hv hle
  | native ref => exact Nat.lt_of_lt_of_le hv h.natives
  | classValue ref => exact Nat.lt_of_lt_of_le hv h.classes
  | object ref => exact Nat.lt_of_lt_of_le hv h.objects
  | method object d => exact ⟨Nat.lt_of_lt_of_le hv.1 h.objects, h.sizes d.site hv.2⟩

theorem valid_of_isFlat (h : value.isFlat) : m.Valid value := by
  cases value with
  | null => trivial
  | integer n => trivial
  | string t => trivial
  | _ => cases h

theorem HasEnv.later (h : m.Grows m') (henv : m.HasEnv env) : m'.HasEnv env :=
  fun f hf => Nat.lt_of_lt_of_le (henv f hf) h.frames

theorem HasEnv.cons (hf : f < m.frames.size) (h : m.HasEnv env) : m.HasEnv (f :: env) :=
  List.forall_mem_cons.mpr ⟨hf, h⟩

theorem Hosts.later (h : m.Grows m') (hc : m.Hosts c) : m'.Hosts c where
  env := hc.env.later h
  parents ref href := Nat.lt_of_lt_of_le (hc.parents ref href) h.classes
  layout := hc.layout
  sized d hd := h.sizes d.site (hc.sized d hd)

namespace Intact

theorem classOf (h : m.Intact) (hobject : object < m.objects.size) :
    ∃ o c, m.objects[object]? = some o ∧ m.classOf? object = some c ∧ o.fields.size = c.layout.fieldCount := by
  have ho : m.objects[object]? = some m.objects[object] := Array.getElem?_eq_getElem hobject
  obtain ⟨c, hc, hsize⟩ := h.objects _ (Array.mem_of_getElem? ho)
  exact ⟨_, c, ho, by simp [classOf?, ho, hc], hsize⟩

theorem isSome_classOf (h : m.Intact) (hobject : object < m.objects.size) : (m.classOf? object).isSome := by
  obtain ⟨o, c, -, hc, -⟩ := h.classOf hobject
  exact Option.isSome_of_eq_some hc

theorem valid_method (h : m.Intact) (hd : Run.methodAt? m object index = some d) :
    m.Valid (.method object d) := by
  obtain ⟨c, hc, hd⟩ := Option.bind_eq_some_iff.mp hd
  obtain ⟨o, ho, -⟩ := Option.bind_eq_some_iff.mp hc
  exact ⟨(Array.getElem?_eq_some_iff.mp ho).1, (h.classes c (mem_of_classOf? hc)).sized d (List.mem_of_getElem? hd)⟩

theorem stepped (h : m.Intact) (hgrows : m.Grows m') (hclasses : m'.classes = m.classes) (hnext : m'.nextClass = m.nextClass)
    (hcaches : m'.notes.caches = m.notes.caches) (hheld : m'.Holds m'.Valid)
    (hfunctions : ∀ f ∈ m'.functions, f ∈ m.functions ∨ m'.HasEnv f.env)
    (hnatives : ∀ n ∈ m'.natives, n ∈ m.natives ∨ n.Fits) (hobjects : ∀ o ∈ m'.objects, m.Fits o) : m'.Intact where
  held := hheld
  globals := h.globals.later hgrows
  functions f hf := (hfunctions f hf).elim (fun hold => (h.functions f hold).later hgrows) id
  natives n hn := (hnatives n hn).elim (h.natives n) id
  classes c hc := (h.classes c (hclasses ▸ hc)).later hgrows
  objects o ho := by
    obtain ⟨c, hc, hsize⟩ := hobjects o ho
    exact ⟨c, hclasses ▸ hc, hsize⟩
  memory := h.memory.same hclasses hnext hcaches

/-- A step that touches no entry but frames and the fields and elements that are there. -/
theorem overwritten (h : m.Intact) (hgrows : m.Grows m') (hclasses : m'.classes = m.classes)
    (hnext : m'.nextClass = m.nextClass) (hcaches : m'.notes.caches = m.notes.caches) (hheld : m'.Holds m.Valid)
    (hfunctions : m'.functions = m.functions) (hnatives : m'.natives = m.natives)
    (hobjects : ∀ o ∈ m'.objects, m.Fits o) : m'.Intact :=
  h.stepped hgrows hclasses hnext hcaches (hheld.mono fun _ hv => hv.later hgrows) (fun _ hf => .inl (hfunctions ▸ hf))
    (fun _ hn => .inl (hnatives ▸ hn)) hobjects

end Intact

/-! ## Frames -/

theorem size_bindIn (frames : Frames) (target : Option Nat) (name : Text) (value : Value) :
    (frames.bindIn target name value).size = frames.size := by
  cases target <;> simp [Frames.bindIn]

theorem size_write (frames : Frames) (f : Nat) (index : Int) (value : Value) :
    (frames.write f index value).size = frames.size := by
  simp [Frames.write]

theorem grows_withFrames {frames : Frames} (h : m.frames.size ≤ frames.size) : m.Grows { m with frames } :=
  { Grows.refl m with frames := h }

theorem Intact.withFrames (h : m.Intact) {frames : Frames} (hsize : m.frames.size ≤ frames.size)
    (hframes : frames.Hold m.Valid) : Machine.Intact { m with frames } :=
  h.overwritten (grows_withFrames hsize) rfl rfl rfl (h.held.withFrames hframes) rfl rfl h.objects

theorem fits_withField (h : m.Intact) (object index : Nat) (value : Value) :
    ∀ o ∈ (m.withField object index value).objects, m.Fits o := by
  intro o ho
  obtain ⟨i, hi⟩ := Array.mem_iff_getElem?.mp ho
  simp only [withField, Array.getElem?_modify] at hi
  split at hi
  · obtain ⟨old, hold, rfl⟩ := Option.map_eq_some_iff.mp hi
    obtain ⟨c, hc, hsize⟩ := h.objects old (Array.mem_of_getElem? hold)
    exact ⟨c, hc, by simpa using hsize⟩
  · exact h.objects o (Array.mem_of_getElem? hi)

theorem grows_withField (m : Machine) (object index : Nat) (value : Value) : m.Grows (m.withField object index value) :=
  { Grows.refl m with objects := by simp [withField] }

theorem Intact.withField (h : m.Intact) (object index : Nat) (hvalue : m.Valid value) :
    (m.withField object index value).Intact :=
  h.overwritten (grows_withField m object index value) rfl rfl rfl (h.held.withField object index hvalue) rfl rfl
    (fits_withField h object index value)

theorem Intact.read (h : m.Intact) (nextSite : Site) (records : Array Record) :
    Machine.Intact { m with nextSite, records } :=
  h.overwritten { Grows.refl m with } rfl rfl rfl ⟨h.held.frames, h.held.arrays, h.held.objects⟩ rfl rfl h.objects

theorem Intact.note (h : m.Intact) (record : Record) : (m.note record).Intact := by
  rw [note_eq]
  exact h.read m.nextSite _

theorem Grows.note (h : m.Grows m') (record : Record) : m.Grows (m'.note record) := by
  rw [note_eq]
  exact { h with }

theorem Intact.registerNative (h : m.Intact) (hn : n.Fits) : (m.registerNative n).Intact := by
  have hsize : m.frames.size ≤ (m.frames.define [builtinFrame] n.name (.native m.natives.size)).size :=
    Nat.le_of_eq (size_bindIn _ _ _ _).symm
  have hpush : m.natives.size < (m.natives.push n).size := by simp
  have hgrows : m.Grows (m.registerNative n) := { Grows.refl m with frames := hsize, natives := Nat.le_of_lt hpush }
  have hvalue : (m.registerNative n).Valid (.native m.natives.size) := hpush
  have hheld := h.held.mono fun _ hv => Valid.later hgrows hv
  exact h.stepped hgrows rfl rfl rfl ⟨hheld.frames.bindIn _ _ hvalue, hheld.arrays, hheld.objects⟩
    (fun _ hf => .inl hf) (fun other hother => (Array.mem_push.mp hother).elim .inl (.inr <| · ▸ hn)) h.objects

/-! ## Members -/

theorem covers_searchMember (h : searchMember c name = some entry) : c.layout.Covers entry := by
  unfold searchMember at h
  split at h
  · rename_i index hindex
    cases h
    exact lt_of_idxOf? hindex
  · obtain ⟨index, hindex, rfl⟩ := Option.map_eq_some_iff.mp h
    have hlt : index < c.layout.definitions.length := of_decide_eq_true (Option.filter_eq_some_iff.mp hindex).2
    exact hlt

theorem Intact.remembering (h : m.Intact) (hc : c ∈ m.classes)
    (hfound : searchMember c name = some entry) : (m.remembering site entry).Intact :=
  { h with
    held := ⟨h.held.frames, h.held.arrays, h.held.objects⟩
    classes c hc := (h.classes c hc).later { Grows.refl m with }
    memory := h.memory.remembering hc hfound (covers_searchMember hfound) }

theorem Intact.member (h : m.Intact) (hc : m.classOf? object = some c)
    (hmember : m.member object site title = .ok (entry, m')) :
    c.layout.Covers entry ∧ m.Grows m' ∧ m'.Intact := by
  have hmem := mem_of_classOf? hc
  unfold Machine.member at hmember
  rw [hc] at hmember
  dsimp only at hmember
  split at hmember
  · rename_i kept hkept
    cases hmember
    obtain ⟨hentry, hid⟩ := Option.filter_eq_some_iff.mp hkept
    exact ⟨h.memory.found site entry hentry c hmem (beq_iff_eq.mp hid).symm, .refl m, h⟩
  · split at hmember
    · rename_i found hfound
      cases hmember
      exact ⟨covers_searchMember hfound, { Grows.refl m with }, h.remembering hmem hfound⟩
    · cases hmember

/-! ## Classes -/

theorem grows_laidOut
    (hsizes : ∀ site : Nat, (m.notes.sizes.get? site).isSome → (s.notes.sizes.get? site).isSome) : m.Grows (m.laidOut s) :=
  { Grows.refl m with sizes := hsizes }

theorem Intact.laidOut (h : m.Intact) (hcaches : s.notes.caches = m.notes.caches)
    (hsizes : ∀ site : Nat, (m.notes.sizes.get? site).isSome → (s.notes.sizes.get? site).isSome) : (m.laidOut s).Intact :=
  h.overwritten (grows_laidOut hsizes) rfl rfl hcaches ⟨h.held.frames, h.held.arrays, h.held.objects⟩ rfl rfl h.objects

theorem grows_withClass (m : Machine) (title : Text) (parents : List Nat) (layout : Layout) (members : List Node) (env : Env) :
    m.Grows (m.withClass title parents layout members env) :=
  { Grows.refl m with classes := by simp [withClass] }

theorem Intact.withClass (h : m.Intact) (title : Text) (members : List Node)
    (hhosts : m.Hosts ⟨m.nextClass, title, parents, layout, members, env⟩) :
    (m.withClass title parents layout members env).Intact := by
  have hgrows := grows_withClass m title parents layout members env
  constructor
  case held =>
    have hheld := h.held.mono fun _ hv => Valid.later hgrows hv
    exact ⟨hheld.frames, hheld.arrays, hheld.objects⟩
  case globals => exact h.globals
  case functions => exact h.functions
  case natives => exact h.natives
  case classes =>
    exact Array.forall_mem_push.mpr ⟨hhosts.later hgrows, fun c hc => (h.classes c hc).later hgrows⟩
  case objects =>
    intro o ho
    obtain ⟨c, hc, hsize⟩ := h.objects o ho
    exact ⟨c, (Array.getElem?_push_lt (Array.getElem?_eq_some_iff.mp hc).1).trans
      (congrArg some (Array.getElem?_eq_some_iff.mp hc).2), hsize⟩
  case memory => exact h.memory.withClass title parents layout members env

/-- The superclasses of a class to be are there, and so are the methods that it inherits. -/
theorem Intact.base (h : m.Intact) (base : Option Nat) :
    (∀ ref ∈ m.parentsOf base, ref < m.classes.size) ∧ ((m.baseLayout base).getD .empty).Sound ∧
      ∀ d ∈ ((m.baseLayout base).getD .empty).definitions, (m.notes.sizes.get? d.site).isSome := by
  have hnone : base.bind (m.classes[·]?) = none → m.parentsOf base = [] ∧ m.baseLayout base = none := by
    intro hc
    cases base <;> simp_all [parentsOf, baseLayout]
  cases hc : base.bind (m.classes[·]?) with
  | none =>
    obtain ⟨hparents, hlayout⟩ := hnone hc
    rw [hparents, hlayout]
    exact ⟨nofun, Layout.sound_empty, nofun⟩
  | some c =>
    obtain ⟨ref, rfl, hclass⟩ := Option.bind_eq_some_iff.mp hc
    have hparents : m.parentsOf (some ref) = ref :: c.parents := by simp [parentsOf, hclass]
    have hlayout : m.baseLayout (some ref) = some c.layout := by simp [baseLayout, hclass]
    have hhosts := h.classes c (Array.mem_of_getElem? hclass)
    rw [hparents, hlayout]
    exact ⟨List.forall_mem_cons.mpr ⟨(Array.getElem?_eq_some_iff.mp hclass).1, hhosts.parents⟩, hhosts.layout,
      hhosts.sized⟩

end Machine

end StoneLang
