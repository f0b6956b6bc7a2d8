/-
  What was assigned is read.

  PROGRAM: a session under observation, given any lines, sources and natives, in either mode.

  SPEC: where the statement after `n = e` is `n`, it gives the value that `e` had: in every scope in which code runs, and
  between two units; and a field or an element that was set is read, everything else being as before
  (`Session.assigned_is_read`).

  Inside a unit both sites have the same place (`place_reread`), and what has been assigned is found there
  (`Aim.Fair`).  Between two units the global names can have grown, but a name keeps its slot.
-/
import StoneLang.Proofs.Classes.Methods
import StoneLang.Proofs.Natives.Visibility

namespace StoneLang

/-! ## Sites of their own -/

namespace Observed

/-- The sites of the executed units are below `k`, and no two units share one. -/
structure Apart (k : Nat) (s : Observed) : Prop where
  below : ∀ unit ∈ s.executed, ∀ site ∈ unit.sites, (site : Nat) < k
  unique : ∀ unit ∈ s.executed, ∀ other ∈ s.executed, ∀ site ∈ unit.sites, site ∈ other.sites → other = unit

theorem apart_discipline : Discipline carrier execute Apart fun _ _ => True where
  read _ _ h := ⟨h.below, h.unique⟩
  widen hle h := ⟨fun unit hunit site hsite => Nat.lt_of_lt_of_le (h.below unit hunit site hsite) hle, h.unique⟩
  execute {k l s unit} h _ hle hsites := by
    obtain ⟨hsame, hunits⟩ := machine_execute unit s
    refine ⟨hsame, ?_⟩
    have hapart : ∀ s', s'.executed = unit :: s.executed → Apart l s' := by
      intro s' hs'
      -- a site of the new unit is above all others
      have hnew : ∀ other ∈ s.executed, ∀ site ∈ other.sites, site ∉ unit.sites := fun other hother site hsite hmem =>
        absurd (h.below other hother site hsite) (Nat.not_lt.mpr (hsites.within site hmem).1)
      refine ⟨?_, ?_⟩ <;> rw [hs']
      · exact List.forall_mem_cons.mpr ⟨fun site hsite => (hsites.within site hsite).2,
          fun other hother site hsite => Nat.lt_of_lt_of_le (h.below other hother site hsite) hle⟩
      · intro first hfirst second hsecond site hsite hsite'
        rcases List.mem_cons.mp hfirst with hfirst | hfirst <;> rcases List.mem_cons.mp hsecond with hsecond | hsecond
        · rw [hfirst, hsecond]
        · exact absurd (hfirst ▸ hsite) (hnew second hsecond site hsite')
        · exact absurd (hsecond ▸ hsite') (hnew first hfirst site hsite)
        · exact h.unique first hfirst second hsecond site hsite hsite'
    have hend := hapart _ hunits
    generalize execute unit s = res at hend ⊢
    cases res with
    | ok value s' => exact hend
    | error e s' => exact ⟨hend, trivial⟩

end Observed

/-! ## Between units -/

namespace Addresses

variable {aim : Aim} {s : Observed} {k l : Nat} {site other : Site} {word again : Word} {operator : Label} {right : Node}
  {value value' : Value} {m m' : Machine}

theorem read_assignment (hform : unit = .binary (.name site word) operator right) (hassigns : operator.text = text "=")
    (hready : Ready aim l w unit) (hinv : Inv aim w s.machine s.trail) (hlogged : Logged aim s)
    (h : Run.evaluate levels unit Machine.globalEnv s.machine = .ok value m) :
    ∃ v trail, w.le .top v ∧ Inv aim v m trail ∧ (site : Nat) < w.known ∧
      m.read site word Machine.globalEnv = .ok value := by
  subst hform
  cases hready with
  | @plain _ c fits code =>
    simp only [Node.Every, hassigns, if_true] at code
    cases levels with
    | zero => cases h
    | succ levels =>
      simp only [Run.evaluate, Run.evaluateNode, hassigns, if_true, Run.assign] at h
      obtain ⟨stored, m₁, hright, h⟩ := bind_eq_ok.mp h
      obtain ⟨_, m₂, hassign, h⟩ := bind_eq_ok.mp h
      cases h
      rw [← (Observed.machine_evaluate levels right Machine.globalEnv s).1] at hright
      obtain ⟨s₁, hevaluate, rfl⟩ := onState_eq_ok.mp hright
      have htop : Extent.top = .within → c.depth ≠ 0 := fun hwithin => by cases hwithin
      have houtcome := sim_evaluate aim levels w right Machine.globalEnv ⟨c, ⟨fits, htop⟩, code.1⟩ s s ⟨rfl, hinv, hlogged⟩
      rw [hevaluate] at houtcome
      cases houtcome with
      | ok v hle related holds =>
        rw [Run.assignName_eq] at hassign
        cases hassigned : s₁.machine.assigned site word value Machine.globalEnv with
        | error cause =>
          rw [hassigned] at hassign
          cases hassign
        | ok m' =>
          rw [hassigned] at hassign
          cases hassign
          have hfits := World.fits_later hle fits
          obtain ⟨v', hle', hinv'⟩ := related.2.1.assigned hfits htop (World.placed_later hle code.2) holds.2 hassigned
          refine ⟨v', _, hle.trans hle', hinv', ?_, related.2.1.read_assigned hfits hassigned rfl rfl⟩
          cases c <;> exact code.2.1.1

theorem Sound.next_reads (hs : Sound aim k s) (hform : unit = .binary (.name site word) operator right)
    (hassigns : operator.text = text "=") (hunit : unit.IsUnit) (hasks : aim.Asks unit) (hheeds : aim.Heeds unit) (hkl : k ≤ l)
    (hsites : Ascending k l unit.sites) (h : Run.execute unit s.machine = .ok value m) (hagain : again.text = word.text)
    (hother : l ≤ other) (hread : Run.execute (.name other again) m = .ok value' m') : value' = value := by
  obtain ⟨w, hwk, hinv, hlogged⟩ := hs
  have hknown : w.known ≤ l := Nat.le_trans hwk hkl
  have hwithin : ∀ a ∈ unit.sites, w.known ≤ (a : Nat) ∧ (a : Nat) < l := fun a ha =>
    ⟨Nat.le_trans hwk (hsites.within a ha).1, (hsites.within a ha).2⟩
  have hsettings : m.settings = s.machine.settings := by
    have haround := Run.surroundings_execute unit s.machine
    rw [h] at haround
    exact congrArg Surroundings.settings haround
  -- a unit that is a name reads it, where its names have been placed
  have hname : ∀ m₁ : Machine, Run.evaluate m.settings.maxDepth (.name other again) Machine.globalEnv m₁ = .ok value' m' →
      m₁.read other again Machine.globalEnv = .ok value' := by
    intro m₁ hread
    cases hdepth : m.settings.maxDepth with
    | zero =>
      rw [hdepth] at hread
      cases hread
    | succ depth =>
      rw [hdepth] at hread
      change Run.readName other again Machine.globalEnv m₁ = _ at hread
      rw [Run.readName_eq] at hread
      split at hread <;> cases hread
      assumption
  unfold Run.execute at h hread
  rw [get_bind_apply] at h hread
  rw [hsettings] at hread hname
  by_cases hplaces : s.machine.settings.placesNames = true
  · rw [if_pos hplaces] at h hread
    obtain ⟨_, m₀, hplaced, h⟩ := bind_eq_ok.mp h
    obtain ⟨_, m₁, hplaced₁, hread⟩ := bind_eq_ok.mp hread
    obtain ⟨v, hvl, hinv', hready⟩ := hinv.ready_of_placed hunit hasks hheeds hsites.nodup hwithin hknown
    rw [hplaced] at hinv'
    have hlogged' := @Logged.answered _ _ _ (.placeNames unit) hlogged hinv trivial m₀
    obtain ⟨u, trail, hle, hinv₁, hsite, hvalue⟩ := read_assignment hform hassigns (hready m₀ hplaced) hinv' hlogged' h
    -- the name has a slot among the globals, which it keeps
    obtain ⟨slot, hslot, hplace⟩ : ∃ slot, v.names.idxOf? word.text = some slot ∧
        m₀.notes.places.get? site = some (.lexical 0 slot) := by
      rw [Run.placeNames_eq] at hplaced
      obtain ⟨r, hresolve, rfl⟩ := onState_eq_ok.mp hplaced
      obtain ⟨location, hnoted, hfound⟩ := Resolve.place_assignment hassigns (Scope.assigns_globals _) (hform ▸ hresolve)
      obtain ⟨t, _, hscope, hkind, hrest⟩ := List.map_eq_cons_iff.mp (Scope.kinds_wider (Resolve.widens_visit _ _ _ _ _ hresolve))
      obtain ⟨kind, names⟩ := t
      obtain rfl : kind = .globals := hkind
      obtain rfl := List.map_eq_nil_iff.mp hrest
      have hnames : v.names = names := by
        rw [← hinv'.globalNames]
        show (s.machine.placed r).globalNames = names
        simp only [Machine.globalNames, Machine.placed, Machine.withGlobalNames, Frames.getElem?_modify_self, hinv.globalFrame,
          Option.map_some, hscope]
        rfl
      rw [hscope, Scope.get?_globals] at hfound
      obtain ⟨slot, hslot, rfl⟩ := Option.map_eq_some_iff.mp hfound
      exact ⟨slot, hnames ▸ hslot, hnoted⟩
    have hdepth : 0 < m.settings.maxDepth := by
      refine Nat.pos_of_ne_zero fun hzero => ?_
      rw [← hsettings, hzero] at h
      cases h
    obtain ⟨m₂, hplaced₂, hframes, -, -, hplace₂⟩ := Run.placeNames_name hinv₁.globalFrame hdepth other again
    cases hplaced₂.symm.trans hplaced₁
    have hplace₁ : m.notes.places.get? site = some (.lexical 0 slot) := by
      rw [hinv₁.place, hle.noted site hsite, ← hinv'.place]
      exact hplace
    rw [hagain, idxOf?_of_isPrefix hle.names hslot] at hplace₂
    have hread := hname _ hread
    simp only [Machine.read, hplace₁, hplace₂, Option.map_some, hframes, hagain] at hvalue hread
    rw [hvalue] at hread
    cases hread
    rfl
  · rw [if_neg hplaces] at h hread
    have hlooks := Bool.eq_false_iff.mpr hplaces
    obtain ⟨v, hvl, hinv', hready⟩ := hinv.ready_of_fresh hunit hasks hheeds hsites.nodup hwithin hknown hlooks
    obtain ⟨u, trail, hle, hinv₁, hsite, hvalue⟩ := read_assignment hform hassigns hready hinv' hlogged h
    have hnone : m.notes.places.get? site = none := by
      rw [hinv₁.place, hle.noted site hsite, ← hinv'.place, hinv.place]
      exact (hinv.fresh hlooks site (hwithin site (by simp [hform, Node.sites])).1).1
    have hnone' : m.notes.places.get? other = none := by
      rw [hinv₁.place]
      refine (hinv₁.fresh (by rw [hsettings]; exact hlooks) other ?_).1
      rw [hle.settled (fun hwithin => by cases hwithin)]
      exact Nat.le_trans hvl hother
    have hread := hname m hread
    simp only [Machine.read, hnone, hnone', hagain] at hvalue hread
    rw [hvalue] at hread
    cases hread
    rfl

theorem Sound.reread_top (hs : Sound .none k s) (hassigns : operator.text = text "=") (hagain : again.text = word.text)
    (hunits : Numbered k (before ++ [.binary (.name site word) operator right, .name other again]) l)
    (hbefore : Run.executeAll before last s.machine = .ok latest m₀)
    (h : Run.execute (.binary (.name site word) operator right) m₀ = .ok value m)
    (hread : Run.execute (.name other again) m = .ok value' m') : value' = value := by
  induction before generalizing k s last with
  | nil =>
    cases hbefore
    cases hunits with
    | cons isUnit le sites tail =>
      cases tail with
      | cons _ _ sites' =>
        exact hs.next_reads rfl hassigns isUnit (Aim.asks_none _) (Aim.heeds_none _) le sites h hagain
          (sites'.within other (by simp [Node.sites])).1 hread
  | cons unit units ih =>
    cases hunits with
    | cons isUnit le sites tail =>
      unfold Run.executeAll at hbefore
      split at hbefore
      · obtain ⟨w, hknown, rest⟩ := hs
        exact ih ⟨w, Nat.le_trans hknown le, rest⟩ tail hbefore
      · obtain ⟨first, m₁, hexecute, hbefore⟩ := bind_eq_ok.mp hbefore
        have hsound := sound_execute hs isUnit (Aim.asks_none unit) (Aim.heeds_none unit) le sites
        have hmachine := (Observed.machine_execute unit s).1
        rw [hexecute] at hmachine
        obtain ⟨s₁, hs₁, rfl⟩ := onState_eq_ok.mp hmachine
        rw [hs₁] at hsound
        exact ih hsound tail hbefore

end Addresses

/-! ## Members and elements -/

/-- Of all variables, elements and fields, only that field can have changed. -/
def Machine.SameButField (m m' : Machine) (object index : Nat) : Prop :=
  m'.frames = m.frames ∧ m'.arrays = m.arrays ∧
    ∀ other slot, ¬ (other = object ∧ slot = index) → Run.fieldAt? m' other slot = Run.fieldAt? m other slot

/-- Of all variables, elements and fields, only that element can have changed. -/
def Machine.SameButElement (m m' : Machine) (ref index : Nat) : Prop :=
  m'.frames = m.frames ∧ m'.objects = m.objects ∧ ∀ other i, ¬ (other = ref ∧ i = index) →
    (m'.arrays[other]?).bind (·[i]?) = (m.arrays[other]?).bind (·[i]?)

theorem Machine.Remembers.assignMember {t : Titles} {m : Machine} (h : m.Remembers t) (hsite : t.Has (site, title))
    (hc : m.classOf? object = some c) (hfield : c.layout.field? title.text = some index)
    (hthere : (Run.fieldAt? m object index).isSome) (value : Value) :
    ∃ m', Run.assignMember (.object object) site title value m = .ok () m' ∧
      (∃ m'', Run.readMember object site title m' = .ok value m'') ∧ m.SameButField m' object index := by
  have hentry : searchMember c title.text = some ⟨c.id, true, index⟩ := by simp only [searchMember, hfield]
  -- the access finds the field, and remembers it then
  have hfinds : ∀ m₀ : Machine, m₀.Remembers t → m₀.classOf? object = some c → ∃ caches, m₀.member object site title
      = .ok (⟨c.id, true, index⟩, { m₀ with notes := { m₀.notes with caches } }) ∧
        Machine.Remembers t { m₀ with notes := { m₀.notes with caches } } := by
    intro m₀ h₀ hc₀
    rcases h₀.member hsite hc₀ with ⟨entry, hfound, hmember⟩ | ⟨hnone, -⟩
    · cases hfound.symm.trans hentry
      rcases hmember with hmember | hmember
      · exact ⟨m₀.notes.caches, hmember, h₀⟩
      · exact ⟨_, hmember, h₀.remembering (mem_of_classOf? hc₀) hentry ⟨hsite.1, by rw [hsite.2]; exact hentry⟩⟩
    · cases hnone.symm.trans hentry
  obtain ⟨caches, hmember, h₁⟩ := hfinds m h hc
  generalize hm₁ : ({ m with notes := { m.notes with caches } } : Machine) = m₁ at hmember h₁
  have hstored : Run.fieldAt? (m₁.withField object index value) object index = some value := by
    obtain ⟨old, hold⟩ := Option.isSome_iff_exists.mp hthere
    have hold : Run.fieldAt? m₁ object index = some old := hm₁ ▸ hold
    rw [m₁.fieldAt?_withField, if_pos ⟨rfl, rfl⟩, hold]
    rfl
  have hclass : (m₁.withField object index value).classOf? object = some c := by
    have hclass : m₁.classOf? object = some c := hm₁ ▸ hc
    obtain ⟨o, ho, hclass⟩ := Option.bind_eq_some_iff.mp hclass
    simpa [Machine.classOf?, Machine.withField, Array.getElem?_modify, ho] using hclass
  obtain ⟨caches', hagain, -⟩ := hfinds (m₁.withField object index value) (h₁.same rfl rfl rfl) hclass
  refine ⟨m₁.withField object index value, ?_, ?_, hm₁ ▸ rfl, hm₁ ▸ rfl, fun other slot hother => ?_⟩
  · rw [Run.assignMember_eq, hmember]
    rfl
  · rw [Run.readMember_eq, hagain]
    exact ⟨_, congrArg (EStateM.Result.ok · _) (congrArg (Option.getD · Value.null) hstored)⟩
  · rw [m₁.fieldAt?_withField, if_neg hother]
    exact hm₁ ▸ rfl

theorem Run.setElement_reads {m : Machine} (ha : m.arrays[ref]? = some elements) (hindex : index < elements.size)
    (value : Value) :
    ∃ m', Run.setElement ref index value m = .ok () m' ∧ Run.readElement ref index m' = .ok value m' ∧
      m.SameButElement m' ref index := by
  refine ⟨_, rfl, ?_, rfl, rfl, fun other i hother => ?_⟩
  · show EStateM.Result.ok _ _ = _
    simp [Array.getElem?_modify, ha, hindex]
  · rw [Array.getElem?_modify]
    split
    · next heq =>
      subst heq
      have hne : index ≠ i := fun heq => hother ⟨rfl, heq.symm⟩
      simp [ha, hne]
    · rfl

theorem Addresses.Inv.field_there (h : Inv aim w m trail) (hc : m.classOf? object = some c)
    (hfield : c.layout.field? title = some index) : (Run.fieldAt? m object index).isSome := by
  obtain ⟨o, ho, hclass⟩ := Option.bind_eq_some_iff.mp hc
  obtain ⟨entry, hentry, hsize⟩ := h.fields o (Array.mem_of_getElem? ho)
  rw [h.class?, hentry] at hclass
  cases hclass
  have hlt : index < o.fields.size := by
    rw [hsize]
    exact (List.idxOf?_eq_some_iff.mp hfield).1
  simp [Run.fieldAt?, ho, hlt]

/-! ## Sessions -/

/-- Whenever code of an executed unit has assigned to a name and reads it right after that, it reads the value. -/
def Observed.Rereads (s : Observed) : Prop :=
  ∀ moment ∈ s.moments, ∀ site word value env m', moment.request = .assignName site word value env →
    Run.assignName site word value env moment.machine = .ok () m' → ∀ unit ∈ s.executed, ∀ other (again : Word),
    unit.Rereads site other → again.text = word.text → Run.readName other again env m' = .ok value m'

namespace Session

/-- What was assigned is read.  A row of statements in which `n` follows `n = e` evaluates `e`, assigns its value to the
name and reads the name.  At every moment of a session at which code of an executed unit assigns to a name, in whatever
scope, the read that follows in its row gives the value; so does a unit that follows another one, after any units that
come before.  And at every moment a field or an element that is set is read by the same access, and nothing else changes. -/
theorem assigned_is_read (config : Config) (watched : Bool) (input : Input) (limit : Option Nat) (nextClass : Nat)
    (entries : List Entry) (htexts : ∀ entry ∈ entries, entry.Meets (fun _ => True) fun _ => False) (s : Observed)
    (hs : s = observed config watched input limit nextClass entries) :
    (start config watched input limit nextClass).after entries = ⟨config.layers, s.machine⟩ ∧
      (∀ (levels : Nat) (env : Env) (site other : Site) (word again : Word) (operator : Label) (right : Node)
        (rest : List Node) (last : Value), operator.text = text "=" →
        Run.evaluateBlock (Run.evaluate (levels + 1)) env (.binary (.name site word) operator right :: .name other again :: rest)
            last = do
          let value ← Run.evaluate levels right env
          Run.assignName site word value env
          let value ← Run.readName other again env
          Run.evaluateBlock (Run.evaluate (levels + 1)) env rest value) ∧
      s.Rereads ∧
      (∀ (before : List Node) (site other : Site) (word again : Word) (operator : Label) (right : Node) (l : Nat),
        operator.text = text "=" → again.text = word.text →
        Numbered s.machine.nextSite (before ++ [.binary (.name site word) operator right, .name other again]) l →
        ∀ last latest value value' m₀ m m', Run.executeAll before last s.machine = .ok latest m₀ →
          Run.execute (.binary (.name site word) operator right) m₀ = .ok value m →
          Run.execute (.name other again) m = .ok value' m' → value' = value) ∧
      ∀ m, s.Passes m → ∀ value : Value,
        (∀ object c site title index, m.classOf? object = some c → c.layout.field? title.text = some index →
          s.Mentions (site, title) → ∃ m', Run.assignMember (.object object) site title value m = .ok () m' ∧
            (∃ m'', Run.readMember object site title m' = .ok value m'') ∧ m.SameButField m' object index) ∧
        ∀ (ref index : Nat) elements, m.arrays[ref]? = some elements → index < elements.size →
          ∃ m', Run.setElement ref index value m = .ok () m' ∧ Run.readElement ref index m' = .ok value m' ∧
            m.SameButElement m' ref index := by
  subst hs
  generalize hs : observed config watched input limit nextClass entries = s
  obtain ⟨hafter, hknown⟩ := known_observed config watched input limit nextClass htexts
  rw [hs] at hafter hknown
  refine ⟨hafter, ?_, ?_, ?_, fun m hm value => ⟨?_, fun ref index elements => (Run.setElement_reads · · value)⟩⟩
  · intro levels env site other word again operator right rest last hassigns
    simp only [Run.evaluateBlock, Node.isEmpty, Run.evaluate, Run.evaluateNode, hassigns, if_true, Run.assign, bind_assoc,
      pure_bind, Bool.false_eq_true, if_false]
  · -- what a site is to agree with is settled by the unit in which it stands
    let aim : Aim := { Aim.none with follows := fun a b => ∃ unit ∈ s.executed, unit.Rereads a b }
    have hentries : ∀ entry ∈ entries, entry.Meets (Native.Admitted aim) fun _ => False := fun entry hentry =>
      (htexts entry hentry).mono fun _ _ failure _ => ⟨(Aim.admits_none failure).1, (Aim.admits_none failure).2⟩
    obtain ⟨-, hlogged⟩ := Addresses.logged_observed aim config watched input limit nextClass hentries
    obtain ⟨-, hapart⟩ := Observed.apart_discipline.after (fun _ h => ⟨h.below, h.unique⟩) (fun hfalse _ => absurd hfalse id)
      htexts config.layers (s := .ofMachine (start config watched input limit nextClass).machine)
      ⟨List.forall_mem_nil _, List.forall_mem_nil _⟩
    have hapart : s.Apart s.machine.nextSite := hs ▸ hapart
    rw [hs] at hlogged
    have hlogged := hlogged fun unit hunit => ⟨Aim.asks_none unit, fun a ha b hab => by
      obtain ⟨other, hother, hpair⟩ := hab
      exact hapart.unique unit hunit other hother a ha hpair.mem_sites.1 ▸ hpair⟩
    intro moment hmoment site word value env m' hrequest hassign unit hunit other again hpair hagain
    have hfair := hlogged.moments moment hmoment
    simp only [Aim.Fair, hrequest] at hfair
    rw [Run.assignName_eq] at hassign
    cases hassigned : moment.machine.assigned site word value env with
    | error cause =>
      rw [hassigned] at hassign
      cases hassign
    | ok m =>
      rw [hassigned] at hassign
      cases hassign
      rw [Run.readName_eq, hfair.2 _ hassigned other again ⟨unit, hunit, hpair⟩ hagain]
  · have hentries : ∀ entry ∈ entries, entry.Meets (Native.Admitted .none) fun _ => False := fun entry hentry =>
      (htexts entry hentry).mono fun _ _ failure _ => Aim.admits_none failure
    obtain ⟨-, hsound⟩ := Addresses.sound_observed .none config watched input limit nextClass hentries
    rw [hs] at hsound
    have hsound := hsound fun unit _ => ⟨Aim.asks_none unit, Aim.heeds_none unit⟩
    intro before site other word again operator right l hassigns hagain hunits last latest value value' m₀ m m' hbefore h hread
    exact hsound.reread_top hassigns hagain hunits hbefore h hread
  · intro object c site title index hc hfield hmentions
    obtain ⟨t, hremembers, hhas⟩ := hknown.passes hm hmentions
    obtain ⟨w, trail, hinv⟩ := inv_observed config watched input limit nextClass htexts (hs ▸ hm)
    exact hremembers.assignMember hhas hc hfield (hinv.field_there hc hfield) value

/-- Names of every kind that are read right after they were assigned: a field in its initializer and in a method, a
parameter, a local, one of the function around, and a global. -/
def rereadingEntries : List Entry :=
  [.line (text "class A \x7b a = 1; a; def m(k) \x7b a = k; a; k = a + 1; k \x7d \x7d\n"),
    .line (text "def f(n) \x7b x = n; x; g = fun(k) \x7b x = k; x \x7d; g(n) \x7d; y = f(2); y; A.new.m(3)\n")]

/-- They are read as they were assigned. -/
theorem rereading_entries_reread :
    let s := observed .default false (.ofText []) none 0 rereadingEntries
    [Location.lexical 0 0, .lexical 0 1, .lexical 1 1, .field 0 0].all (s.moments.filterMap Moment.location?).contains = true ∧
      s.executed.length = 5 ∧ s.failures = [] ∧ s.Rereads := by
  refine ⟨by decide +kernel, by decide +kernel, ?_, (assigned_is_read .default false (.ofText []) none 0 rereadingEntries ?_ _
    rfl).2.2.1⟩
  · exact List.isEmpty_iff.mp (by decide +kernel)
  · simp [rereadingEntries, Entry.Meets]

end Session

end StoneLang
