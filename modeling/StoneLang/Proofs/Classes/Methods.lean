/-
  Which method is called.

  SPEC: a method that an object has is the last definition in the most derived class that defines it, bound to the object.
  This is what `o.m` gives, by a search for the name or from memory, and what a bare `m` gives in any method that the class
  of the object has, by the slot that it was given when its own class was laid out.

  PROGRAM: a session that is given lines, sources and natives, in every state that it passes through (`Observed.Passes`).

  Three invariants come together here: classes are laid out on top of their superclasses (`Observed.Developed`), what
  member accesses remember is what a search finds (`Observed.Known`), and the names in the body of a method are placed in
  tables that all classes with this method extend (`Addresses.Inv`).
-/
import StoneLang.Proofs.Classes.Inheritance
import StoneLang.Proofs.Members.Transparency

namespace StoneLang

/-! ## States -/

namespace Observed

theorem developed_discipline : Discipline carrier execute (fun _ => Developed) fun _ _ => True where
  read nextSite records hs := ⟨hs.machine.of_classes rfl, hs.moments⟩
  widen _ hs := hs
  execute {_ _ s unit} hs _ _ _ := by
    have hdeveloped := developed_execute hs unit
    refine ⟨(machine_execute unit s).1, ?_⟩
    generalize execute unit s = res at hdeveloped ⊢
    cases res with
    | ok value s' => exact hdeveloped
    | error e s' => exact ⟨hdeveloped, trivial⟩

theorem Developed.passes {s : Observed} (h : s.Developed) {m : Machine} (hm : s.Passes m) :
    m.Inheriting ∧ m.classes.toList <+: s.machine.classes.toList := by
  rcases hm with rfl | ⟨moment, hmoment, rfl⟩
  · exact ⟨h.machine, List.prefix_rfl⟩
  · exact h.moments moment hmoment

end Observed

/-! ## Members of an object -/

namespace Machine

variable {m : Machine} {object : Nat} {c : Class} {name : Text}

theorem Inheriting.methodAt? (h : m.Inheriting) (hc : m.classOf? object = some c)
    (hslot : c.layout.methods[slot]? = some name) :
    ∃ d, m.inherited? c name = some d ∧ Run.methodAt? m object slot = some d := by
  have hmem := mem_of_classOf? hc
  obtain ⟨d, hd, hderived⟩ := (h.realises hmem).derived slot name hslot
  refine ⟨d, ?_, ?_⟩
  · unfold inherited?
    rw [← hderived, List.map_map]
    rfl
  · unfold Run.methodAt?
    rw [hc]
    exact hd

theorem Inheriting.searchMember (h : m.Inheriting) (hc : c ∈ m.classes) (hmethod : name ∈ c.layout.methods)
    (hfield : name ∉ c.layout.fields) :
    ∃ slot, c.layout.methods[slot]? = some name ∧ StoneLang.searchMember c name = some ⟨c.id, false, slot⟩ := by
  obtain ⟨slot, hslot⟩ := exists_idxOf? hmethod
  refine ⟨slot, getElem?_of_idxOf? hslot, ?_⟩
  have hlt : slot < c.layout.definitions.length := by
    rw [(h.realises hc).full]
    exact lt_of_idxOf? hslot
  unfold StoneLang.searchMember Layout.field? Layout.method?
  rw [List.idxOf?_eq_none_iff.mpr hfield, hslot]
  simp [hlt]

theorem Inheriting.readMember (h : m.Inheriting) (hc : m.classOf? object = some c) (hremembers : m.Remembers t)
    (hsite : t.Has (site, title)) (hmethod : title.text ∈ c.layout.methods)
    (hfield : title.text ∉ c.layout.fields) :
    ∃ d m', m.inherited? c title.text = some d ∧ Run.readMember object site title m = .ok (.method object d) m' := by
  have hmem := mem_of_classOf? hc
  obtain ⟨slot, hslot, hsearch⟩ := h.searchMember hmem hmethod hfield
  obtain ⟨d, hinherited, hd⟩ := h.methodAt? hc hslot
  have hsearched : m.searched object title = .ok ⟨c.id, false, slot⟩ := by
    unfold searched
    rw [hc]
    dsimp only
    rw [hsearch]
  have hvalue : m.memberValue object ⟨c.id, false, slot⟩ = .method object d := by simp [memberValue, hd]
  rcases hremembers.member_eq object hsite with ⟨cause, hfails, -⟩ | ⟨entry, m', hfound, hmember, hsame⟩
  · rw [hsearched] at hfails
    cases hfails
  · rw [hsearched] at hfound
    cases hfound
    refine ⟨d, m', hinherited, ?_⟩
    rw [Run.readMember_eq, hmember]
    have hvalue' : m'.memberValue object ⟨c.id, false, slot⟩ = .method object d := by
      rcases hsame with rfl | rfl <;> exact hvalue
    rw [← hvalue']

theorem Inheriting.readName (h : m.Inheriting) (hc : m.classOf? object = some c)
    (hplace : m.notes.places.get? site = some (.method slot hops))
    (hslot : c.layout.methods[slot]? = some word.text) (hreceiver : m.receiver? env hops = some object) :
    ∃ d, m.inherited? c word.text = some d ∧ Run.readName site word env m = .ok (.method object d) m := by
  obtain ⟨d, hinherited, hd⟩ := h.methodAt? hc hslot
  refine ⟨d, hinherited, ?_⟩
  have hread : m.read site word env = .ok (.method object d) := by
    unfold Machine.read
    rw [hplace]
    dsimp only
    rw [hreceiver]
    dsimp only
    rw [hd]
  rw [Run.readName_eq, hread]

end Machine

/-! ## Names in class bodies -/

theorem AllEvery.imp {P Q : Unit → Use → Prop} (h : AllEvery P (fun _ _ _ _ => True) () nodes)
    (himp : ∀ use, P () use → Q () use) : AllEvery Q (fun _ _ _ _ => True) () nodes :=
  (allEvery_iff _ _).mpr fun node hnode => Node.Every.mono (R := fun _ _ => True) (S := fun _ => True)
    (fun _ _ use _ _ => himp use) (fun _ _ _ _ _ _ _ _ => ⟨(), trivial, trivial⟩) node () () trivial (fun _ _ => trivial)
    ((allEvery_iff _ _).mp h node hnode)

/-- Every name that is read in the row of nodes, in closures too, is as `P` says. -/
def AllReads (P : Site → Word → Prop) (nodes : List Node) : Prop :=
  AllEvery (fun (_ : Unit) use => ∀ site word, use = .read site word → P site word) (fun _ _ _ _ => True) () nodes

variable {P : Site → Word → Prop} {nodes : List Node}

theorem AllReads.mono (h : AllReads P nodes) (himp : ∀ site word, P site word → Q site word) :
    AllReads Q nodes :=
  AllEvery.imp h fun _ hread site word huse => himp site word (hread site word huse)

/-- Every name that is read or assigned in the row of nodes, in closures too, is as `P` says. -/
def AllNames (P : Site → Word → Prop) (nodes : List Node) : Prop :=
  AllEvery (fun (_ : Unit) use => ∀ site word, use = .read site word ∨ use = .assign site word → P site word)
    (fun _ _ _ _ => True) () nodes

theorem AllNames.mono (h : AllNames P nodes) (himp : ∀ site word, P site word → Q site word) :
    AllNames Q nodes :=
  AllEvery.imp h fun _ hname site word huse => himp site word (hname site word huse)

theorem AllNames.reads (h : AllNames P nodes) : AllReads P nodes :=
  AllEvery.imp h fun _ hname site word huse => hname site word (.inl huse)

/-- If the name has been placed at a member, its slot has this name in the layout. -/
def Layout.Carries (layout : Layout) (places : SiteMap Location) (site : Site) (word : Word) : Prop :=
  match places.get? site with
  | some (.field slot _) => layout.fields[slot]? = some word.text
  | some (.method slot _) => layout.methods[slot]? = some word.text
  | _ => True

theorem Layout.Extends.carries {layout base : Layout} (h : layout.Extends base) {places : SiteMap Location} {site : Site}
    {word : Word} (hbase : base.Carries places site word) : layout.Carries places site word := by
  unfold Layout.Carries at hbase ⊢
  cases hplace : places.get? site with
  | none => trivial
  | some location =>
    rw [hplace] at hbase
    cases location with
    | lexical nest index => trivial
    | field slot hops => exact getElem?_of_isPrefix h.fields hbase
    | method slot hops => exact getElem?_of_isPrefix h.methods hbase

namespace Addresses

variable {aim : Aim} {w : World} {m : Machine} {trail : Trail}

/-- A name that is found in a nest of a class has its own slot in every layout that has all members of the class. -/
theorem Inv.carries (h : Inv aim w m trail) {n : Nest} {members : Members} (hmembers : n.members = some members)
    {layout : Layout} (hhas : layout.Has members) {site : Site} {word : Word}
    (hfound : ∀ location, (w.noted site).place = some location → ∃ home, n.Found word.text home location) :
    layout.Carries m.notes.places site word := by
  unfold Layout.Carries
  rw [h.place]
  cases hplace : (w.noted site).place with
  | none => trivial
  | some location =>
    obtain ⟨home, hhome⟩ := hfound location hplace
    cases location with
    | lexical nest index => trivial
    | field slot hops =>
      obtain ⟨inside, hinside, -, -, hslot⟩ := hhome
      cases hmembers.symm.trans hinside
      exact getElem?_of_isPrefix hhas.fields hslot
    | method slot hops =>
      obtain ⟨inside, hinside, -, -, hslot⟩ := hhome
      cases hmembers.symm.trans hinside
      exact getElem?_of_isPrefix hhas.methods hslot

theorem Inv.allCarried (h : Inv aim w m trail) {n : Nest} {members : Members} (hmembers : n.members = some members)
    {layout : Layout} (hhas : layout.Has members) {nodes : List Node}
    (hnodes : AllEvery (w.Placed aim) (w.Sized aim) (.placed n) nodes) :
    AllNames (layout.Carries m.notes.places) nodes := by
  let R : Index → Unit → Prop := fun i _ => ∃ n : Nest, i = .placed n ∧ n.members = some members
  refine (allEvery_iff _ _).mpr fun node hnode => ?_
  refine Node.Every.mono (R := R) (S := fun _ => True) ?_ ?_ node _ () ⟨n, rfl, hmembers⟩ (fun _ _ => trivial)
    ((allEvery_iff _ _).mp hnodes node hnode)
  · rintro _ _ use ⟨n, rfl, hmembers⟩ - ⟨-, -, hnoted⟩ site word huse
    refine h.carries hmembers hhas fun location hplace => ?_
    rcases huse with rfl | rfl
    · obtain ⟨home, -, hfound⟩ := hnoted location hplace
      exact ⟨home, hfound⟩
    · obtain ⟨other, home, hother, -, hfound, -⟩ := hnoted
      cases hother.symm.trans hplace
      exact ⟨home, hfound⟩
  · rintro _ _ site params inner ⟨n, rfl, hmembers⟩ - hsized
    cases inner with
    | opened depth => exact absurd hsized id
    | placed inner =>
      obtain ⟨-, t, rfl, -⟩ := hsized
      exact ⟨(), trivial, n.push (.function site) t, rfl, hmembers⟩

variable {c : Class}

theorem Inv.class_good (h : Inv aim w m trail) (hc : c ∈ m.classes) : ∃ site, w.ClassGood aim site c := by
  have hclass : c ∈ w.classes.map Prod.snd := by
    rw [← h.classes]
    exact hc.val
  obtain ⟨entry, hentry, rfl⟩ := List.mem_map.mp hclass
  exact ⟨entry.1, h.classes_good entry hentry⟩

theorem Inv.method_carried (h : Inv aim w m trail) (hc : c ∈ m.classes)
    (hd : d ∈ c.layout.definitions) : AllNames (c.layout.Carries m.notes.places) d.body := by
  obtain ⟨site, hgood⟩ := h.class_good hc
  obtain ⟨members, globals, t, hhas, -, -, -, hbody⟩ := hgood.methods d hd
  exact h.allCarried rfl hhas hbody

theorem Inv.initializer_carried (h : Inv aim w m trail) (hc : c ∈ m.classes) {member : Node}
    (hmember : member ∈ c.members) (hnone : Definition.ofNode? member = none) :
    AllNames (c.layout.Carries m.notes.places) [member] := by
  obtain ⟨site, hgood⟩ := h.class_good hc
  obtain ⟨members, globals, -, hhas, -, hcode⟩ := hgood.initializers member hmember hnone
  exact h.allCarried rfl hhas ((allEvery_iff _ _).mpr (by simpa using hcode))

/-- A bare name in a method of a class is placed in the slot of a method of that name, if it is placed at a method. -/
theorem Inv.reads_placed (h : Inv aim w m trail) (hc : c ∈ m.classes) (hd : d ∈ c.layout.definitions) :
    AllReads (fun site word => ∀ slot hops, m.notes.places.get? site = some (.method slot hops) →
      c.layout.methods[slot]? = some word.text) d.body := by
  refine (h.method_carried hc hd).reads.mono fun site word hcarries slot hops hplace => ?_
  unfold Layout.Carries at hcarries
  rw [hplace] at hcarries
  exact hcarries

end Addresses

/-! ## Sessions -/

namespace Session

theorem inheriting_start (config : Config) (watched : Bool) (input : Input) (limit : Option Nat) (nextClass : Nat) :
    (start config watched input limit nextClass).machine.Inheriting := by
  refine start_induction ⟨?_, ?_⟩ (fun _ hm => hm.of_classes rfl) fun record hm => hm.of_classes ?_
  · simp [Machine.start]
  · simp [Machine.start]
  · rw [Machine.note_eq]

theorem inv_observed (config : Config) (watched : Bool) (input : Input) (limit : Option Nat) (nextClass : Nat)
    (htexts : ∀ entry ∈ entries, entry.Meets (fun _ => True) fun _ => False)
    (hm : (observed config watched input limit nextClass entries).Passes m) :
    ∃ w trail, Addresses.Inv .none w m trail := by
  have hentries : ∀ entry ∈ entries, entry.Meets (Native.Admitted .none) fun _ => False := fun entry hentry =>
    (htexts entry hentry).mono fun _ _ failure _ => Aim.admits_none failure
  obtain ⟨-, hsound⟩ := Addresses.sound_observed .none config watched input limit nextClass hentries
  obtain ⟨w, -, hinv, hlogged⟩ := hsound fun unit _ => ⟨Aim.asks_none unit, Aim.heeds_none unit⟩
  rcases hm with rfl | ⟨moment, hmoment, rfl⟩
  · exact ⟨w, _, hinv⟩
  · obtain ⟨w', hinv'⟩ := hlogged.known moment hmoment
    exact ⟨w', _, hinv'⟩

/-- In every state of a session, bare names in methods are placed in slots of their names, if they are placed at methods. -/
theorem placed_observed (config : Config) (watched : Bool) (input : Input) (limit : Option Nat) (nextClass : Nat)
    (htexts : ∀ entry ∈ entries, entry.Meets (fun _ => True) fun _ => False) :
    ∀ m, (observed config watched input limit nextClass entries).Passes m → ∀ c ∈ m.classes,
      ∀ method ∈ c.layout.definitions, AllReads (fun site word => ∀ slot hops,
        m.notes.places.get? site = some (.method slot hops) → c.layout.methods[slot]? = some word.text) method.body := by
  intro m hm c hc method hmethod
  obtain ⟨w, trail, hinv⟩ := inv_observed config watched input limit nextClass htexts hm
  exact hinv.reads_placed hc hmethod

/-- Layouts realise inheritance, along lineages of any length.  In every state of a session, classes are laid out so, and
those of earlier states are still there as they were; and for every object and every method of its class that is no field,
both `o.m` and a bare `m` in any method that the class has, wherever the object is the receiver, give the most derived
definition, bound to the object. -/
theorem methods_are_most_derived (config : Config) (watched : Bool) (input : Input) (limit : Option Nat) (nextClass : Nat)
    (entries : List Entry) (htexts : ∀ entry ∈ entries, entry.Meets (fun _ => True) fun _ => False) (s : Observed)
    (hs : s = observed config watched input limit nextClass entries) :
    (∀ members layout above, Lineage ((members, layout) :: above) → layout.Realises members above) ∧
    (start config watched input limit nextClass).after entries = ⟨config.layers, s.machine⟩ ∧
    ∀ m, s.Passes m →
      m.classes.toList <+: s.machine.classes.toList ∧
      (∀ c ∈ m.classes, c.layout.Realises c.members ((m.superclasses c).map Machine.anatomy)) ∧
      ∀ object c name, m.classOf? object = some c → name ∈ c.layout.methods → name ∉ c.layout.fields →
        ∃ d, m.inherited? c name = some d ∧
          (∀ site title, s.Mentions (site, title) → title.text = name →
            ∃ m', Run.readMember object site title m = .ok (.method object d) m') ∧
          ∀ method ∈ c.layout.definitions, AllReads (fun site word => word.text = name → ∀ slot hops env,
            m.notes.places.get? site = some (.method slot hops) → m.receiver? env hops = some object →
            Run.readName site word env m = .ok (.method object d) m) method.body := by
  subst hs
  let first : Observed := .ofMachine (start config watched input limit nextClass).machine
  obtain ⟨hafter, hdeveloped⟩ := Observed.developed_discipline.after
    (fun _ hs => ⟨hs.machine.of_classes rfl, hs.moments⟩) (fun hfalse _ => absurd hfalse id) htexts config.layers
    (s := first) ⟨inheriting_start config watched input limit nextClass, List.forall_mem_nil _⟩
  obtain ⟨-, hknown⟩ := known_observed config watched input limit nextClass htexts
  have hplaced := placed_observed config watched input limit nextClass htexts
  refine ⟨fun _ _ _ h => h.realises, hafter, fun m hm => ?_⟩
  obtain ⟨hinheriting, hclasses⟩ := hdeveloped.passes hm
  refine ⟨hclasses, fun c hc => hinheriting.realises hc, fun object c name hc hmethod hfield => ?_⟩
  have hmem := Machine.mem_of_classOf? hc
  have hdefined := ((hinheriting.realises hmem).defined name).mp hmethod
  have hsome : (m.inherited? c name).isSome := by
    unfold Machine.inherited?
    rwa [List.map_map] at hdefined
  obtain ⟨d, hd⟩ := Option.isSome_iff_exists.mp hsome
  refine ⟨d, hd, fun site title hmentions htitle => ?_, fun method hmethods => ?_⟩
  · subst htitle
    obtain ⟨t, hremembers, hhas⟩ := hknown.passes hm hmentions
    obtain ⟨d', m', hd', hread⟩ := hinheriting.readMember hc hremembers hhas hmethod hfield
    cases hd.symm.trans hd'
    exact ⟨m', hread⟩
  · refine (hplaced m hm c hmem method hmethods).mono fun site word hslot hword slot hops env hplace hreceiver => ?_
    subst hword
    obtain ⟨d', hd', hread⟩ := hinheriting.readName hc hplace (hslot slot hops hplace) hreceiver
    cases hd.symm.trans hd'
    exact hread

/-- A lineage of three classes; a method of the first one calls one that it defines twice and the last one defines again,
from inside a closure. -/
def derivingEntries : List Entry :=
  [.line (text "class A \x7b def k() \x7b f = fun() \x7b m() \x7d; f() \x7d; def m() \x7b 1 \x7d; def m() \x7b 2 \x7d \x7d\n"),
    .line (text "class B extends A \x7b n = 3 \x7d; class C extends B \x7b def m() \x7b n + 1 \x7d \x7d\n"),
    .line (text "o = C.new; o.k() + o.m()\n")]

/-- The object has the methods of all three, and `m` is that of the last one. -/
theorem deriving_gives_most_derived :
    let s := observed .default false (.ofText []) none 0 derivingEntries
    ∃ c, s.machine.classOf? 0 = some c ∧ c.layout.methods = [text "k", text "m"] ∧ c.layout.fields = [text "n"] ∧
      (s.machine.superclasses c).length = 2 ∧
      ∃ d, lastDefinition? c.members (text "m") = some d ∧ s.machine.inherited? c (text "m") = some d ∧
        ∀ site title, s.Mentions (site, title) → title.text = text "m" →
          ∃ m', Run.readMember 0 site title s.machine = .ok (.method 0 d) m' := by
  intro s
  have hshape : (s.machine.classOf? 0).map (fun c =>
      (c.layout.methods, c.layout.fields, (s.machine.superclasses c).length, (lastDefinition? c.members (text "m")).isSome))
      = some ([text "k", text "m"], [text "n"], 2, true) := by decide +kernel
  obtain ⟨c, hc, hparts⟩ := Option.map_eq_some_iff.mp hshape
  obtain ⟨hmethods, hfields, hsuper, hlast⟩ : c.layout.methods = [text "k", text "m"] ∧ c.layout.fields = [text "n"] ∧
      (s.machine.superclasses c).length = 2 ∧ (lastDefinition? c.members (text "m")).isSome = true := by
    simpa using hparts
  obtain ⟨-, -, hall⟩ := methods_are_most_derived .default false (.ofText []) none 0 derivingEntries
    (by simp [derivingEntries, Entry.Meets]) s rfl
  obtain ⟨-, -, hdispatch⟩ := hall s.machine (.inl rfl)
  obtain ⟨d, hd, hmember, -⟩ := hdispatch 0 c (text "m") hc (by rw [hmethods]; decide) (by rw [hfields]; decide)
  obtain ⟨d', hd'⟩ := Option.isSome_iff_exists.mp hlast
  have hsame : s.machine.inherited? c (text "m") = some d' := by
    unfold Machine.inherited? mostDerived?
    rw [List.findSome?_cons, hd']
  cases hd.symm.trans hsame
  exact ⟨c, hc, hmethods, hfields, hsuper, d, hd', hd, hmember⟩

end Session

end StoneLang
