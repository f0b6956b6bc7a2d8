/-
  What the standard natives touch.

  They read the input, write the output and keep the stopwatch, and they look at what values show; they
  change nothing else and depend on nothing else (`Run.callNative_standard`).  What they give is null, an
  integer or a string.
-/
import StoneLang.Proofs.Evaluation.Accesses

namespace StoneLang

def Native.IsStandard (n : Native) : Prop := ∀ action, n.action ≠ .host action

theorem Native.isStandard_of_mem (h : n ∈ Native.standard) : n.IsStandard := by
  simp only [Native.standard, List.mem_cons, List.not_mem_nil, or_false] at h
  rcases h with rfl | rfl | rfl | rfl | rfl | rfl <;> exact fun _ h => by cases h

/-- The value has no identity: it is null, an integer or a string. -/
def Value.isFlat : Value → Bool
  | .null | .integer _ | .string _ => true
  | _ => false

theorem isFlat_binaryOperation (h : binaryOperation m operator a b = .ok value) : value.isFlat := by
  unfold binaryOperation at h
  split at h
  · cases h
    rfl
  · split at h
    · unfold integerOperation at h
      repeat' split at h
      all_goals cases h
      all_goals rfl
    · split at h
      · cases h
        rfl
      · cases h

def Machine.withStreamsOf (m s : Machine) : Machine :=
  { m with input := s.input, output := s.output, stopwatch := s.stopwatch }

/-- Two machines on which the standard natives do the same. -/
structure Machine.SameStreams (m m' : Machine) : Prop where
  input : m'.input = m.input
  output : m'.output = m.output
  stopwatch : m'.stopwatch = m.stopwatch
  arrays : m'.arrays = m.arrays
  render : ∀ v, m'.render v = m.render v

namespace Machine.SameStreams

variable {m m' : Machine}

theorem refl (m : Machine) : m.SameStreams m := ⟨rfl, rfl, rfl, rfl, fun _ => rfl⟩

theorem withStreamsOf_eq (h : m.SameStreams m') : m'.withStreamsOf m = m' := by
  simp only [Machine.withStreamsOf, ← h.input, ← h.output, ← h.stopwatch]

end Machine.SameStreams

namespace Run

variable {m m' : Machine}

theorem onState_bind {α β : Type} {x : Run α} {f : α → Run β}
    (hx : x m' = onState m'.withStreamsOf (x m))
    (hf : ∀ a s, x m = .ok a s →
      f a (m'.withStreamsOf s) = onState (m'.withStreamsOf s).withStreamsOf (f a s)) :
    (x >>= f) m' = onState m'.withStreamsOf ((x >>= f) m) := by
  rw [bind_apply, bind_apply, hx]
  cases hm : x m with
  | error e s => rfl
  | ok a s =>
    dsimp only [onState]
    rw [hf a s hm]
    cases f a s <;> rfl

section
variable (h : m.SameStreams m')

include h

theorem ok_streams {α : Type} (a : α) : .ok a m' = onState m'.withStreamsOf (.ok a m : EStateM.Result Failure _ α) :=
  congrArg (EStateM.Result.ok a) h.withStreamsOf_eq.symm

theorem error_streams (e : Failure) : .error e m' = onState m'.withStreamsOf (.error e m : EStateM.Result _ _ α) :=
  congrArg (EStateM.Result.error e) h.withStreamsOf_eq.symm

theorem write_streams (writer : String) (t : Text) :
    write writer t m' = onState m'.withStreamsOf (write writer t m) := by
  unfold write
  rw [get_bind_apply, get_bind_apply, h.output]
  split
  · show EStateM.Result.ok _ _ = EStateM.Result.ok _ _
    simp [Machine.withStreamsOf, ← h.input, ← h.output, ← h.stopwatch]
  · exact error_streams h _

theorem readLine_streams : readLine m' = onState m'.withStreamsOf (readLine m) := by
  unfold readLine
  rw [get_bind_apply, get_bind_apply, h.input]
  cases m.input.source.all.cutLine with
  | mk line rest =>
    cases rest with
    | some rest =>
      dsimp only
      rw [modify_bind_apply, modify_bind_apply, h.input]
      simp [pure, EStateM.pure, onState, Machine.withStreamsOf, ← h.output, ← h.stopwatch]
    | none =>
      dsimp only
      rw [modify_bind_apply, modify_bind_apply, h.input]
      cases m.input.broken with
      | some reason =>
        show EStateM.Result.error _ _ = EStateM.Result.error _ _
        simp [Machine.withStreamsOf, ← h.output, ← h.stopwatch]
      | none =>
        dsimp only
        split <;>
          simp [pure, EStateM.pure, onState, Machine.withStreamsOf, ← h.output, ← h.stopwatch]

theorem lengthOf_streams (value : Value) (line : Int) :
    lengthOf value line m' = onState m'.withStreamsOf (lengthOf value line m) := by
  cases value with
  | array ref =>
    simp only [lengthOf]
    rw [get_bind_apply, get_bind_apply, h.arrays]
    exact ok_streams h _
  | string t => exact ok_streams h _
  | _ => exact error_streams h _

theorem integerOf_streams (value : Value) (line : Int) :
    integerOf value line m' = onState m'.withStreamsOf (integerOf value line m) := by
  cases value with
  | integer n => exact ok_streams h _
  | string t =>
    simp only [integerOf]
    cases Decimal.int64? t.trim with
    | some n => exact ok_streams h _
    | none => exact error_streams h _
  | _ => exact error_streams h _

theorem nativeAction_streams (hstandard : ∀ a, action ≠ .host a) (env env' : Env) (line : Int)
    (arguments : List Value) : nativeAction action env' line arguments m'
      = onState m'.withStreamsOf (nativeAction action env line arguments m) := by
  cases action with
  | print =>
    simp only [nativeAction]
    rw [get_bind_apply, get_bind_apply, h.render]
    exact onState_bind (write_streams h _ _) fun _ _ _ => rfl
  | read => exact readLine_streams h
  | length => exact lengthOf_streams h _ _
  | toInt => exact integerOf_streams h _ _
  | timeStart =>
    simp only [nativeAction]
    rw [modify_bind_apply, modify_bind_apply]
    simp [pure, EStateM.pure, onState, Machine.withStreamsOf, ← h.output, ← h.input]
  | timeEnd =>
    simp only [nativeAction]
    rw [get_bind_apply, get_bind_apply, h.stopwatch]
    exact onState_bind (write_streams h _ _) fun _ _ _ => rfl
  | host a => exact absurd rfl (hstandard a)

/-- A standard native does the same on machines whose streams, arrays and shown values are the same, and
changes their streams only. -/
theorem callNative_standard (hstandard : n.IsStandard) (env env' : Env) (line : Int) (arguments : List Value) :
    callNative n env' line arguments m' = onState m'.withStreamsOf (callNative n env line arguments m) := by
  unfold callNative
  rw [nativeAction_streams h hstandard env env' line arguments]
  cases nativeAction n.action env line arguments m <;> rfl

end

theorem finalState_callNative (hstandard : n.IsStandard) (env : Env) (line : Int) (arguments : List Value)
    (m : Machine) : finalState (callNative n env line arguments m)
      = m.withStreamsOf (finalState (callNative n env line arguments m)) :=
  (congrArg finalState (callNative_standard (.refl m) hstandard env env line arguments)).trans (finalState_onState _ _)

/-! ## How they end -/

theorem write_cases (writer : String) (t : Text) (m : Machine) :
    write writer t m = .ok ⟨⟩ { m with output := m.output.write t } ∨
    m.output.limit.isSome ∧ write writer t m = .error (.label (text writer) (.plain (text "output closed"))) m := by
  unfold write
  rw [get_bind_apply]
  by_cases hroom : m.output.hasRoom t = true
  · rw [if_pos hroom]
    exact .inl rfl
  · rw [if_neg hroom]
    refine .inr ⟨?_, rfl⟩
    -- without a limit there is always room
    unfold Output.hasRoom at hroom
    cases hlimit : m.output.limit with
    | none => simp [hlimit] at hroom
    | some limit => rfl

theorem readLine_cases (m : Machine) :
    ∃ source, (∃ value : Value, value.isFlat ∧
        readLine m = .ok value { m with input := { m.input with source } }) ∨
      ∃ reason, m.input.broken = some reason ∧ readLine m
        = .error (.label (text "read") (.plain reason)) { m with input := { m.input with source } } := by
  unfold readLine
  rw [get_bind_apply]
  cases m.input.source.all.cutLine with
  | mk line rest =>
    cases rest with
    | some rest => exact ⟨_, .inl ⟨_, rfl, rfl⟩⟩
    | none =>
      refine ⟨m.input.source.use line.length, ?_⟩
      dsimp only
      rw [modify_bind_apply]
      cases hbroken : m.input.broken with
      | some reason => exact .inr ⟨reason, rfl, rfl⟩
      | none =>
        dsimp only
        split <;> exact .inl ⟨_, rfl, rfl⟩

end Run

/-- How a native can end.  It gives a flat value, what a name stands for, or an array of its arguments; or it fails by
itself, because of a stream, or as the host made it fail.  The streams change, or an array is added. -/
inductive Native.Ends (n : Native) (env : Env) (line : Int) (arguments : List Value) (m : Machine) :
    EStateM.Result Failure Machine Value → Prop where
  | flat {value : Value} (s : Machine) (h : value.isFlat) (hinput : s.input.broken = m.input.broken)
      (houtput : s.output = m.output ∨ ∃ t, s.output = m.output.write t) :
      Ends n env line arguments m (.ok value (m.withStreamsOf s))
  | found {name : Text} (h : n.action = .host (.lookUp name)) :
      Ends n env line arguments m (.ok ((m.frames.get? name env).getD .null) m)
  | collected (h : n.action = .host .collect) : Ends n env line arguments m (Run.newArray arguments.toArray m)
  | fault {cause : Cause} (h : cause.isOfStore = true) : Ends n env line arguments m (.error (.atLine cause line) m)
  | closed (writer : Text) (h : m.output.limit.isSome) :
      Ends n env line arguments m (.error (.label writer (.plain (text "output closed"))) m)
  | broken {reason : Text} (source : Buffered) (h : m.input.broken = some reason) :
      Ends n env line arguments m
        (.error (.label (text "read") (.plain reason)) { m with input := { m.input with source } })
  | host {failure : Failure} (h : n.action = .host (.fail failure)) :
      Ends n env line arguments m (.error (failure.withLine line) m)

namespace Run

theorem ends_callNative (n : Native) (env : Env) (line : Int) (arguments : List Value) (m : Machine) :
    n.Ends env line arguments m (callNative n env line arguments m) := by
  have hflat : ∀ {value : Value}, value.isFlat → n.Ends env line arguments m (.ok value m) :=
    fun h => .flat m h rfl (.inl rfl)
  have hfault : ∀ {cause : Cause}, cause.isOfStore = true →
      n.Ends env line arguments m (.error ((Failure.atLine cause line).withLine line) m) := by
    intro cause h
    have hline : (Failure.atLine cause line).withLine line = .atLine cause line :=
      congrArg Failure.diagnostic (by unfold Diagnostic.withLine; split <;> rfl)
    rw [hline]
    exact .fault h
  have hwrite : ∀ (writer : String) (t : Text),
      nativeAction n.action env line arguments m = (do write writer t; return Value.null : Run Value) m →
      n.Ends env line arguments m (callNative n env line arguments m) := by
    intro writer t hwrites
    unfold callNative
    rw [hwrites]
    rcases write_cases writer t m with hok | ⟨hlimit, herror⟩
    · rw [bind_of_ok hok]
      exact .flat { m with output := m.output.write t } rfl rfl (.inr ⟨t, rfl⟩)
    · rw [bind_eq_error.mpr (.inl herror)]
      exact .closed _ hlimit
  cases haction : n.action with
  | print => exact hwrite _ _ (by rw [haction]; rfl)
  | read =>
    unfold callNative
    rw [haction]
    obtain ⟨source, ⟨value, hvalue, hread⟩ | ⟨reason, hbroken, hread⟩⟩ := readLine_cases m
    · simp only [nativeAction, hread]
      exact .flat { m with input := { m.input with source } } hvalue rfl (.inl rfl)
    · simp only [nativeAction, hread]
      exact .broken source hbroken
  | length =>
    unfold callNative
    rw [haction]
    unfold nativeAction lengthOf
    cases arguments.head?.getD .null with
    | string t | array ref => exact hflat rfl
    | _ => exact hfault rfl
  | toInt =>
    unfold callNative
    rw [haction]
    unfold nativeAction integerOf
    cases arguments.head?.getD .null with
    | integer n => exact hflat rfl
    | string t =>
      dsimp only
      cases Decimal.int64? t.trim with
      | some n => exact hflat rfl
      | none => exact hfault rfl
    | _ => exact hfault rfl
  | timeStart =>
    unfold callNative
    rw [haction]
    exact .flat { m with stopwatch := text "0" } rfl rfl (.inl rfl)
  | timeEnd => exact hwrite _ _ (by rw [haction]; rfl)
  | host action =>
    unfold callNative
    rw [haction]
    cases action with
    | count | nothing | callLine => exact hflat rfl
    | lookUp name => exact .found haction
    | collect => exact .collected haction
    | fail failure => exact .host haction

end Run

end StoneLang
