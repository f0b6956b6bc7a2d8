/-
  Names at their addresses.

  In an environment that fits, a name that has been placed leads where it should (`Inv.leads`): its location
  counts the frames of the tables between, and the frames are those that were made for the tables.  So a name
  that is read is read from there, and one that is assigned is written there and nowhere else
  (`Inv.assigned`).  Code inside a call writes no global.
-/
import StoneLang.Proofs.Addresses.Invariant

namespace StoneLang

/-! ## Frames by name -/

namespace Frames

variable {frames : Frames}

theorem mem_of_holder? (hglobals : frames[Machine.globalFrame]? = some (.globals names values)) (fs : List Nat)
    (h : frames.holder? name (fs ++ Machine.globalEnv) = some g) : g ∈ fs := by
  induction fs with
  | nil => simp [holder?, Machine.globalEnv, hglobals] at h
  | cons f rest ih =>
    simp only [List.cons_append, holder?] at h
    split at h
    · split at h
      · cases h
        simp
      · exact List.mem_cons_of_mem _ (ih h)
    · cases h

theorem assignee?_inside (hglobals : frames[Machine.globalFrame]? = some (.globals names values)) (name : Text)
    (hne : fs ≠ []) (hnamed : ∀ f ∈ fs, ∃ bindings, frames[f]? = some (.byName bindings)) :
    ∃ g ∈ fs, frames.assignee? name (fs ++ Machine.globalEnv) = some g := by
  cases fs with
  | nil => exact absurd rfl hne
  | cons f rest =>
    obtain ⟨bindings, hf⟩ := hnamed f (by simp)
    simp only [List.cons_append, assignee?, hf]
    cases hheld : frames.holder? name (f :: (rest ++ Machine.globalEnv)) with
    | none => exact ⟨f, by simp, rfl⟩
    | some g => exact ⟨g, mem_of_holder? hglobals (f :: rest) hheld, rfl⟩

end Frames

theorem Machine.Leads.isAddress_read {m : Machine}
    (h : ∀ location, m.notes.places.get? site = some location → m.Leads trail site word env location)
    (hread : m.read site word env = .error cause) : cause.isAddress = false := by
  unfold Machine.read at hread
  cases hplace : m.notes.places.get? site with
  | none =>
    rw [hplace] at hread
    dsimp only at hread
    split at hread <;> cases hread
    rfl
  | some location =>
    rw [hplace] at hread
    cases location with
    | lexical nest index =>
      dsimp only at hread
      split at hread <;> cases hread
      rfl
    | field index hops | method index hops =>
      obtain ⟨object, c, hreceiver, -⟩ := h _ hplace
      dsimp only at hread
      rw [hreceiver] at hread
      dsimp only at hread
      split at hread <;> cases hread
      rfl

namespace Addresses

variable {aim : Aim} {extent : Extent} {w : World} {m m' : Machine} {trail : Trail} {env : Env}

/-! ## Tables and their frames -/

namespace World.Reaches

variable {members : Option Members} {fs : List Nat} {tables : List (Owner × Table)}

section
variable (h : w.Reaches members fs tables)

include h

theorem getElem? {i : Nat} (hi : tables[i]? = some (owner, t)) :
    ∃ f receiver, fs[i]? = some f ∧ w.roles[f]? = some (.table owner t.size receiver) ∧
      (receiver.isSome → members.isSome ∧ t.names[0]? = some thisName) := by
  induction h generalizing i with
  | top => simp at hi
  | @receiver f object owner t c hc role this has =>
    cases i with
    | zero =>
      cases hi
      exact ⟨f, some object, rfl, role, fun _ => ⟨by rw [hc]; rfl, this⟩⟩
    | succ i => simp at hi
  | @function f fs owner t rest role outer ih =>
    cases i with
    | zero =>
      cases hi
      exact ⟨f, none, rfl, role, nofun⟩
    | succ i =>
      obtain ⟨g, receiver, hg, hrole, hthis⟩ := ih (by simpa using hi)
      exact ⟨g, receiver, by simpa using hg, hrole, hthis⟩

theorem last (hc : members = some c) (hhops : hops + 1 = tables.length) :
    ∃ f owner size object, fs[hops]? = some f ∧ w.roles[f]? = some (.table owner size (some object)) ∧
      w.Has object c := by
  induction h generalizing hops with
  | top => simp at hhops
  | @receiver f object owner t c' hc' role this has =>
    rw [hc'] at hc
    cases hc
    obtain rfl : hops = 0 := by simpa using hhops
    exact ⟨f, owner, t.size, object, rfl, role, has⟩
  | @function f fs owner t rest role outer ih =>
    cases hops with
    | zero =>
      -- there is at least the table of the receiver
      obtain rfl : rest = [] := by simpa using hhops
      cases outer with
      | top hnone =>
        rw [hnone] at hc
        cases hc
    | succ hops =>
      obtain ⟨g, owner', size, object, hg, hrole, hhas⟩ := ih (by simpa using hhops)
      exact ⟨g, owner', size, object, by simpa using hg, hrole, hhas⟩

theorem allSlots (hframed : Framed aim w frames trail) : frames.AllSlots fs := by
  intro f hf
  induction h with
  | top => simp at hf
  | receiver _ role =>
    obtain rfl := List.mem_singleton.mp hf
    obtain ⟨values, hvalues, -⟩ := hframed.table role
    exact ⟨values, hvalues⟩
  | function role _ ih =>
    rcases List.mem_cons.mp hf with rfl | hf
    · obtain ⟨values, hvalues, -⟩ := hframed.table role
      exact ⟨values, hvalues⟩
    · exact ih hf

end

end World.Reaches

/-! ## Reading -/

namespace Inv

variable {n : Nest} {site : Site} {word : Word}

section
variable (h : Inv aim w m trail)

include h

theorem receiver? (haim : aim.receiver = true) (hfits : w.Fits env (.placed n))
    (hc : n.members = some c) (hhops : hops + 1 = n.inner.length) :
    ∃ object, m.receiver? env hops = some object ∧ w.Has object c := by
  obtain ⟨-, fs, rfl, hreaches⟩ := hfits
  obtain ⟨f, owner, size, object, hf, hrole, hhas⟩ := hreaches.last hc hhops
  obtain ⟨values, hvalues, -, -, hfirst⟩ := h.framed.table hrole
  refine ⟨object, ?_, hhas⟩
  unfold Machine.receiver?
  rw [Frames.getAt?_within (hreaches.allSlots h.framed) hf hvalues]
  have hslot : slotAt values 0 = some (.object object) := by
    simp [slotAt, hfirst haim object rfl]
  rw [hslot]

theorem leads (haim : aim.receiver = true) (hfits : w.Fits env (.placed n)) {home : Owner}
    (hhome : (w.noted site).home = some home) (hfound : n.Found word.text home location) :
    m.Leads trail site word env location := by
  cases location with
  | lexical nest index =>
    obtain ⟨-, fs, rfl, hreaches⟩ := hfits
    rcases hfound with ⟨t, ht, hname⟩ | ⟨rfl, rfl, hname⟩
    · obtain ⟨f, receiver, hf, hrole, -⟩ := hreaches.getElem? ht
      obtain ⟨values, hvalues, howner, hsize, -⟩ := h.framed.table hrole
      refine ⟨f, home, ?_, (h.home site).trans hhome, howner, fun others hothers => ?_⟩
      · rw [List.getElem?_append_left (List.getElem?_eq_some_iff.mp hf).1, hf]
      · rw [hvalues] at hothers
        cases hothers
        rw [hsize]
        exact (List.getElem?_eq_some_iff.mp hname).1
    · obtain ⟨hframe, howner⟩ := h.framed.top
      refine ⟨Machine.globalFrame, .globals, ?_, (h.home site).trans hhome, howner, fun values hvalues => ?_⟩
      · rw [← hreaches.length, List.getElem?_append_right (Nat.le_refl _), Nat.sub_self]
        rfl
      · rw [hframe] at hvalues
        cases hvalues
  | field index hops =>
    obtain ⟨c, hc, hhops, -, hname⟩ := hfound
    obtain ⟨object, hobject, ref, entry, href, hentry, hhas⟩ := h.receiver? haim hfits hc hhops
    have hfield := getElem?_of_isPrefix hhas.fields hname
    exact ⟨object, entry.2, hobject, h.classOf? href hentry, hfield,
      h.fieldAt? href hentry (List.getElem?_eq_some_iff.mp hfield).1⟩
  | method index hops =>
    obtain ⟨c, hc, hhops, -, hname⟩ := hfound
    obtain ⟨object, hobject, ref, entry, href, hentry, hhas⟩ := h.receiver? haim hfits hc hhops
    have hmethod := getElem?_of_isPrefix hhas.methods hname
    exact ⟨object, entry.2, hobject, h.classOf? href hentry, hmethod,
      h.methodAt? href hentry (List.getElem?_eq_some_iff.mp hmethod).1⟩

theorem leads_read (haim : aim.receiver = true) (hfits : w.Fits env c)
    (hplaced : w.Placed aim c (.read site word)) (location : Location)
    (hplace : m.notes.places.get? site = some location) : m.Leads trail site word env location := by
  rw [h.place] at hplace
  cases c with
  | placed n =>
    obtain ⟨home, hhome, hfound⟩ := hplaced.2.2 location hplace
    exact h.leads haim hfits hhome hfound
  | opened depth =>
    have hnone := hplaced.2.2
    simp only [Use.site] at hnone
    rw [hnone] at hplace
    cases hplace

theorem leads_assign (haim : aim.receiver = true) (hfits : w.Fits env c)
    (hplaced : w.Placed aim c (.assign site word)) (location : Location)
    (hplace : m.notes.places.get? site = some location) : m.Leads trail site word env location := by
  rw [h.place] at hplace
  cases c with
  | placed n =>
    obtain ⟨found, home, hplace', hhome, hfound, -⟩ := hplaced.2.2
    simp only [Use.site] at hplace' hhome
    rw [hplace'] at hplace
    cases hplace
    exact h.leads haim hfits hhome hfound
  | opened depth =>
    have hnone := hplaced.2.2
    simp only [Use.site] at hnone
    rw [hnone] at hplace
    cases hplace

end

end Inv

open Coupling

theorem sim_readName (hfits : w.Fits env c) (hplaced : w.Placed aim c (.read site word)) :
    (coupling aim extent).Sim w (Same (World.Good aim))
      (Observed.asking (.readName site word env) (Run.readName site word env))
      (Observed.asking (.readName site word env) (Run.readName site word env)) := by
  refine sim_asking _ _ fun m trail h => ⟨fun haim => h.leads_read haim hfits hplaced, ?_⟩
  rw [Run.readName_eq]
  cases hread : m.read site word env with
  | ok value => exact ⟨w, .refl w, h, h.held.read (fun _ _ _ hd => h.method_good hd) hread⟩
  | error cause =>
    refine ⟨⟨w, .refl w, h⟩, Aim.admits_atLine (fun haim => ?_) word.line⟩
    exact Machine.Leads.isAddress_read (h.leads_read haim hfits hplaced) hread

/-! ## Assigning -/

theorem Framed.write (h : Framed aim w frames trail) {size : Nat}
    (hf : w.roles[f]? = some (.table owner size receiver)) {index : Nat}
    (hindex : aim.receiver = true → receiver.isSome → index ≠ 0) (value : Value) :
    Framed aim w (frames.write f index value) trail := by
  refine h.modify hf fun frame hframe => ?_
  cases frame with
  | slots values =>
    obtain ⟨howner, hsize, hfirst⟩ := hframe
    refine ⟨howner, by simpa using hsize, fun haim object hobject => ?_⟩
    have hne := hindex haim (by rw [hobject]; rfl)
    rw [Array.getElem?_setIfInBounds, if_neg (by simpa using hne)]
    exact hfirst haim object hobject
  | _ => exact absurd hframe id

namespace Inv

variable {n : Nest} {site : Site} {word : Word} {value : Value}

section
variable (h : Inv aim w m trail)

include h

theorem slotOwner_top (index : Nat) : m.frames.slotOwner Machine.globalEnv 0 index = .ok Machine.globalFrame := by
  simp [Machine.globalEnv, Frames.slotOwner, Frames.checkSlot, h.globalFrame]

/-- The slot that a name is assigned to is one of a table, and not that of its receiver unless the name is
`this`; at the top it is one of a global. -/
theorem slotOwner (hfits : w.Fits env (.placed n)) {home : Owner}
    (hfound : n.Found name home (.lexical nest index)) (hinside : n.inner ≠ [] → nest < n.inner.length) :
    ∃ f, m.frames.slotOwner env nest index = .ok f ∧
      ((∃ owner size receiver, w.roles[f]? = some (.table owner size receiver) ∧
          (receiver.isSome → n.members.isSome ∧ (index = 0 → name = thisName))) ∨
        ((Index.placed n).depth = 0 ∧ f = Machine.globalFrame)) := by
  obtain ⟨-, fs, rfl, hreaches⟩ := hfits
  rcases hfound with ⟨t, ht, hname⟩ | ⟨rfl, -, -⟩
  · obtain ⟨f, receiver, hf, hrole, hthis⟩ := hreaches.getElem? ht
    obtain ⟨values, hvalues, -, hsize, -⟩ := h.framed.table hrole
    have hindex : index < values.size := by
      rw [hsize]
      exact (List.getElem?_eq_some_iff.mp hname).1
    refine ⟨f, ?_, .inl ⟨home, t.size, receiver, hrole, fun hsome => ⟨(hthis hsome).1, ?_⟩⟩⟩
    · rw [Frames.slotOwner_within (hreaches.allSlots h.framed) hf]
      unfold Frames.checkSlot
      rw [hvalues]
      dsimp only
      rw [if_pos ⟨by omega, by omega⟩]
    · rintro rfl
      rw [(hthis hsome).2] at hname
      exact (Option.some.inj hname).symm
  · -- the globals are assigned at the top only
    have hinner : n.inner = [] := Classical.byContradiction fun hne => Nat.lt_irrefl _ (hinside hne)
    have hlength := hreaches.length
    rw [hinner] at hlength ⊢
    obtain rfl := List.length_eq_zero_iff.mp hlength
    exact ⟨Machine.globalFrame, h.slotOwner_top index, .inr ⟨by rw [Index.depth, hinner]; rfl, rfl⟩⟩

theorem write_top (htop : extent ≠ .within) (hvalue : w.Good aim value) (index : Nat) :
    ∃ v, w.le extent v ∧ Inv aim v { m with frames := m.frames.write Machine.globalFrame index value } trail :=
  ⟨_, h.modified_top htop (rfl : Frame.setSlot (index : Int).toNat value (.globals w.names w.values) = _)
    List.prefix_rfl (h.held.frames.write Machine.globalFrame index hvalue)⟩

theorem bind_top (htop : extent ≠ .within) (hvalue : w.Good aim value) (name : Text) :
    ∃ v, w.le extent v ∧
      Inv aim v { m with frames := m.frames.bindIn (some Machine.globalFrame) name value } trail :=
  ⟨_, h.modified_top htop (rfl : Frame.bind name value (.globals w.names w.values) = _)
    (Table.add_spec (t := ⟨.globals, w.names⟩) rfl name).1.names
    (h.held.frames.bindIn (some Machine.globalFrame) name hvalue)⟩

theorem bound (hfits : w.Fits env (.opened depth)) (hdeep : extent = .within → depth ≠ 0)
    (hvalue : w.Good aim value) (name : Text) : ∃ v, w.le extent v ∧
      Inv aim v { m with frames := m.frames.bindIn (m.frames.assignee? name env) name value } trail := by
  obtain ⟨fs, rfl, rfl, hroles⟩ := hfits
  cases fs with
  | nil =>
    have hassignee : m.frames.assignee? name Machine.globalEnv = some Machine.globalFrame := by
      simp only [Machine.globalEnv, Frames.assignee?, h.globalFrame]
    rw [List.nil_append, hassignee]
    exact h.bind_top (fun hwithin => hdeep hwithin rfl) hvalue name
  | cons f rest =>
    obtain ⟨g, hg, hassignee⟩ := Frames.assignee?_inside h.globalFrame name (List.cons_ne_nil f rest)
      fun f hf => h.framed.named (hroles f hf)
    rw [hassignee]
    refine ⟨w, .refl w, h.rewritten (h.framed.modify (hroles g hg) fun frame hframe => ?_)
      (h.held.frames.bindIn (some g) name hvalue)⟩
    cases frame with
    | byName bindings => trivial
    | _ => exact absurd hframe id

/-- An assignment that succeeds writes where the name was placed; inside a call that is no global. -/
theorem assigned (hfits : w.Fits env c) (hdeep : extent = .within → c.depth ≠ 0)
    (hplaced : w.Placed aim c (.assign site word)) (hvalue : w.Good aim value)
    (hassigned : m.assigned site word value env = .ok m') :
    ∃ v, w.le extent v ∧ Inv aim v m' trail := by
  have hcases := Machine.assigned_cases hassigned
  rw [h.place site] at hcases
  cases c with
  | opened depth =>
    have hnone : (w.noted site).place = none := hplaced.2.2
    rw [hnone] at hcases
    rcases hcases with ⟨-, rfl⟩ | ⟨_, _, _, hplace, -⟩ | ⟨_, _, _, _, hplace, -⟩
    · exact h.bound hfits hdeep hvalue word.text
    · cases hplace
    · cases hplace
  | placed n =>
    obtain ⟨location, home, hplace, -, hfound, hinside, hthis⟩ := hplaced.2.2
    have hplace : (w.noted site).place = some location := hplace
    rw [hplace] at hcases
    rcases hcases with ⟨hnone, -⟩ | ⟨nest, index, f, hlexical, howner, rfl⟩ | ⟨index, hops, object, _, -, -, -, rfl⟩
    · cases hnone
    · cases hlexical
      obtain ⟨g, hslot, hrole⟩ := h.slotOwner hfits hfound fun hne => hinside hne nest index rfl
      rw [hslot] at howner
      cases howner
      rcases hrole with ⟨owner, size, receiver, hrole, hfirst⟩ | ⟨hdepth, rfl⟩
      · have hkept : aim.receiver = true → receiver.isSome → index ≠ 0 := fun haim hsome hzero =>
          hthis haim (hfirst hsome).1 ((hfirst hsome).2 hzero)
        exact ⟨w, .refl w, h.rewritten (h.framed.write hrole hkept value) (h.held.frames.write _ _ hvalue)⟩
      · exact h.write_top (fun hwithin => hdeep hwithin hdepth) hvalue index
    · exact ⟨w, .refl w, h.stepped (m.sameShape_withField object index value) (h.held.withField _ _ hvalue)⟩

theorem isChain (hfits : w.Fits env c) : m.frames.IsChain env := by
  have hglobal : m.frames.IsChain Machine.globalEnv := by
    obtain ⟨builtins, hbuiltins, -⟩ := h.framed.each _ _ h.framed.natives
    exact ⟨⟨_, h.globalFrame, fun _ _ => nofun⟩, ⟨builtins, hbuiltins, fun hne => absurd rfl hne⟩, trivial⟩
  cases c with
  | opened depth =>
    obtain ⟨fs, rfl, -, hroles⟩ := hfits
    induction fs with
    | nil => exact hglobal
    | cons f rest ih =>
      obtain ⟨bindings, hf⟩ := h.framed.named (hroles f List.mem_cons_self)
      exact ⟨⟨_, hf, fun _ _ => nofun⟩, ih fun g hg => hroles g (List.mem_cons_of_mem _ hg)⟩
  | placed n =>
    obtain ⟨-, fs, rfl, hreaches⟩ := hfits
    generalize n.inner = tables at hreaches
    induction hreaches with
    | top => exact hglobal
    | receiver _ role =>
      obtain ⟨values, hf, -⟩ := h.framed.table role
      exact ⟨⟨_, hf, fun _ _ => nofun⟩, hglobal⟩
    | function role _ ih =>
      obtain ⟨values, hf, -⟩ := h.framed.table role
      exact ⟨⟨_, hf, fun _ _ => nofun⟩, ih⟩

theorem read_assigned (hfits : w.Fits env c) (hassigned : m.assigned site word value env = .ok m')
    (hplace : m.notes.places.get? other = m.notes.places.get? site) (hword : again.text = word.text) :
    m'.read other again env = .ok value := by
  have hchain := h.isChain hfits
  rcases Machine.assigned_cases hassigned with ⟨hnone, rfl⟩ | ⟨nest, index, f, hlexical, howner, rfl⟩ |
    ⟨index, hops, object, old, hfield, hreceiver, hold, rfl⟩
  · have hglobal : Machine.globalFrame ∈ env := by
      have henv : ∃ fs, env = fs ++ Machine.globalEnv := by
        cases c with
        | opened depth =>
          obtain ⟨fs, rfl, -⟩ := hfits
          exact ⟨fs, rfl⟩
        | placed n =>
          obtain ⟨-, fs, rfl, -⟩ := hfits
          exact ⟨fs, rfl⟩
      obtain ⟨fs, rfl⟩ := henv
      simp [Machine.globalEnv]
    obtain ⟨f, hf⟩ := Frames.assignee?_isSome hchain hglobal (by simp [Frames.TakesNames, h.globalFrame]) word.text
    have hfound := (Frames.get?_assignee hchain hf value).2
    simp only [Machine.read, hplace, hnone, hf, hword, hfound]
  · have hwrote := Frames.wrote_write (Frames.slotOwner_ok howner).2 value
    have hkinds := Frames.sameKinds_modify m.frames f (Frame.sameKind_setSlot (index : Int).toNat value)
    have hfound : (m.frames.write f index value).getAt? env nest index = some value := by
      rw [Frames.write, Frames.getAt?_owner hchain hkinds howner]
      exact (hwrote.slots f index).trans (if_pos ⟨rfl, rfl⟩)
    simp only [Machine.read, hplace, hlexical, hfound]
  · have hsame : (m.withField object index value).receiver? env hops = some object := hreceiver
    have hnoted : (m.withField object index value).notes.places.get? other = some (.field index hops) := hplace.trans hfield
    simp only [Machine.read, hnoted, hsame, m.fieldAt?_withField, and_self, if_true, hold, Option.map_some]

theorem isAddress_assigned (haim : aim.receiver = true) (hfits : w.Fits env c)
    (hplaced : w.Placed aim c (.assign site word))
    (hassigned : m.assigned site word value env = .error cause) : cause.isAddress = false := by
  have hleads := h.leads_assign haim hfits hplaced
  unfold Machine.assigned at hassigned
  cases hplace : m.notes.places.get? site with
  | none =>
    rw [hplace] at hassigned
    cases hassigned
  | some location =>
    rw [hplace] at hassigned
    cases location with
    | lexical nest index =>
      rw [h.place site] at hplace
      cases c with
      | opened depth =>
        have hnone : (w.noted site).place = none := hplaced.2.2
        rw [hnone] at hplace
        cases hplace
      | placed n =>
        obtain ⟨location, home, hplace', -, hfound, hinside, -⟩ := hplaced.2.2
        have hplace' : (w.noted site).place = some location := hplace'
        rw [hplace'] at hplace
        cases hplace
        obtain ⟨f, hslot, -⟩ := h.slotOwner hfits hfound fun hne => hinside hne nest index rfl
        dsimp only at hassigned
        rw [hslot] at hassigned
        cases hassigned
    | field index hops =>
      obtain ⟨object, c', hreceiver, -⟩ := hleads _ hplace
      dsimp only at hassigned
      rw [hreceiver] at hassigned
      dsimp only at hassigned
      split at hassigned <;> cases hassigned
      rfl
    | method index hops =>
      cases hassigned
      rfl

end

end Inv

theorem sim_assignName (hfits : w.Fits env c) (hdeep : extent = .within → c.depth ≠ 0)
    (hplaced : w.Placed aim c (.assign site word)) (hvalue : w.Good aim value) :
    (coupling aim extent).Sim w (Same fun _ _ => True)
      (Observed.asking (.assignName site word value env) (Run.assignName site word value env))
      (Observed.asking (.assignName site word value env) (Run.assignName site word value env)) := by
  refine sim_asking _ _ fun m trail h =>
    ⟨⟨fun haim => h.leads_assign haim hfits hplaced, fun m' hassigned other again hother hagain => ?_⟩, ?_⟩
  · have hknows : w.Knows aim site := by cases c <;> exact hplaced.1
    refine h.read_assigned hfits hassigned ?_ hagain
    rw [h.place, h.place]
    exact (hknows.2 other hother).2
  rw [Run.assignName_eq]
  cases hassigned : m.assigned site word value env with
  | ok m' =>
    obtain ⟨v, hle, hinv⟩ := h.assigned hfits hdeep hplaced hvalue hassigned
    exact ⟨v, hle, hinv, trivial⟩
  | error cause =>
    exact ⟨⟨w, .refl w, h⟩,
      Aim.admits_atLine (fun haim => h.isAddress_assigned haim hfits hplaced hassigned) word.line⟩

end Addresses

end StoneLang
