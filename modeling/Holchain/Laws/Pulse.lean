import Holchain.Holper.Pulse

/-!
# Laws.Pulse — when the sound server's sink is known

`init` returns early where a call fails, and nothing looks at the sink before it is read. What the
connection comes to is decided by the callbacks that the library makes while it is waited for
(`Pulse.heard`): a sink is known just where one of them is for the sink whose name was given last
(`sink_iff`), and where `init` comes to its end they are what it heard (`init_eq`).
-/

namespace Holchain.Holper

namespace Callback

/-- It points to nothing where something is read. -/
def isNull : Callback → Bool
  | serverInfo (some (some _)) => false
  | serverInfo _ => true
  | sinkInfo info eol => eol = 0 && info.isNone
  | state _ | success => false

end Callback

/-- The state behind a callback. -/
def PulseState.after : PulseState → Callback → PulseState
  | _, .state .ready => .connected
  | _, .state .failed => .error
  | s, _ => s

/-- The name behind a callback. -/
def nameAfter : Bytes → Callback → Bytes
  | _, .serverInfo (some (some name)) => name
  | name, _ => name

namespace PulseAudio

/-- What a callback assigns. -/
def hear (pa : PulseAudio) (c : Callback) : PulseAudio where
  state := pa.state.after c
  pulseContext := pa.pulseContext
  defaultSinkName := nameAfter pa.defaultSinkName c
  defaultSink :=
    match c with
    | .sinkInfo (some info) 0 =>
      if pa.defaultSinkName = info.name then some info else pa.defaultSink
    | _ => pa.defaultSink

variable {pa : PulseAudio} {cs : List Callback}

theorem logError_eq (h : pa.pulseContext.isSome = true) : logError pa = .ok () := by
  obtain ⟨context, hcontext⟩ := Option.isSome_iff_exists.mp h
  rw [logError, hcontext]
  rfl

/-- A callback, once there is a context. -/
theorem callback_eq (h : pa.pulseContext.isSome = true) (c : Callback) :
    callback pa c = if c.isNull then .error (.undefined .nullPointer) else .ok (hear pa c) := by
  cases c with
  | state state =>
    cases state with
    | failed =>
      rw [callback, pulseContextStateCallback, logError_eq h]
      rfl
    | _ => rfl
  | serverInfo info =>
    cases info with
    | none => rfl
    | some name => cases name <;> rfl
  | sinkInfo info eol =>
    by_cases heol : eol = 0
    · subst heol
      cases info with
      | none => rfl
      | some info =>
        by_cases hname : pa.defaultSinkName = info.name
        · simp [callback, pulseSinkInfoCallback, Callback.isNull, hear, hname, PulseState.after,
            nameAfter]
        · simp [callback, pulseSinkInfoCallback, Callback.isNull, hear, hname, PulseState.after, nameAfter,
            logError_eq h]
    · simp [callback, pulseSinkInfoCallback, Callback.isNull, hear, heol, PulseState.after, nameAfter]
  | success => rfl

theorem hear_context (cs : List Callback) : (cs.foldl hear pa).pulseContext = pa.pulseContext := by
  induction cs generalizing pa with
  | nil => rfl
  | cons c cs ih => exact ih

theorem hear_state (cs : List Callback) :
    (cs.foldl hear pa).state = cs.foldl PulseState.after pa.state := by
  induction cs generalizing pa with
  | nil => rfl
  | cons c cs ih => exact ih

theorem callbacks_eq (h : pa.pulseContext.isSome = true) (cs : List Callback) :
    cs.foldlM callback pa =
      if cs.any Callback.isNull then .error (.undefined .nullPointer) else .ok (cs.foldl hear pa) := by
  induction cs generalizing pa with
  | nil => rfl
  | cons c cs ih =>
    rw [List.foldlM_cons, callback_eq h, List.any_cons]
    cases c.isNull with
    | true => rfl
    | false => exact ih h

/-! ## Waiting -/

/-- The callbacks of a wait, and whether it ends. -/
structure Heard where
  callbacks : List Callback
  ends : Bool

namespace Heard

/-- One wait behind another. -/
def append (h rest : Heard) : Heard :=
  if h.ends then ⟨h.callbacks ++ rest.callbacks, rest.ends⟩ else h

/-- What it comes to. -/
def result (h : Heard) (pa : PulseAudio) : Except Stop PulseAudio :=
  if h.callbacks.any Callback.isNull then .error (.undefined .nullPointer)
  else if h.ends then .ok (h.callbacks.foldl hear pa)
  else .error .waits

theorem result_ok (cs : List Callback) (pa : PulseAudio) :
    (⟨cs, true⟩ : Heard).result pa =
      if cs.any Callback.isNull then .error (.undefined .nullPointer) else .ok (cs.foldl hear pa) := rfl

/-- **One wait behind another** comes to what both do. -/
theorem result_append (h rest : Heard) (pa : PulseAudio) :
    (h.append rest).result pa = h.result pa >>= rest.result := by
  unfold result append
  cases hnull : h.callbacks.any Callback.isNull with
  | true =>
    cases h.ends with
    | true =>
      simp only [if_true, List.any_append, hnull, Bool.true_or]
      rfl
    | false =>
      simp only [if_false, Bool.false_eq_true, hnull, if_true]
      rfl
  | false =>
    cases hends : h.ends with
    | true =>
      simp only [if_true, List.any_append, hnull, Bool.false_or, List.foldl_append]
      rfl
    | false =>
      simp only [if_false, Bool.false_eq_true, hnull, hends]
      rfl

end Heard

/-- What `iterateConnect` hears, from a state. -/
def heardConnect : PulseState → List Iteration → Heard
  | s, [] => ⟨[], s ≠ .connecting⟩
  | s, i :: rest =>
    if s = .connecting then
      if i.result < 0 then ⟨i.callbacks, true⟩
      else Heard.append ⟨i.callbacks, true⟩ (heardConnect (i.callbacks.foldl PulseState.after s) rest)
    else ⟨[], true⟩

/-- What `iterateOp` hears. -/
def heardOp : Bool → List Iteration → Heard
  | false, _ => ⟨[], true⟩
  | true, [] => ⟨[], false⟩
  | true, i :: rest =>
    if i.result < 0 then ⟨i.callbacks, true⟩
    else Heard.append ⟨i.callbacks, true⟩ (heardOp i.running rest)

/-- What a wait hears, from a state. -/
def heardWait (wait : Wait) (s : PulseState) : Heard :=
  match wait.op with
  | none => heardConnect s wait.iterations
  | some running => heardOp running wait.iterations

theorem context_foldl (h : pa.pulseContext.isSome = true) (cs : List Callback) :
    (cs.foldl hear pa).pulseContext.isSome = true := by
  rwa [hear_context]

/-- An iteration, and what is done behind it if it has not failed. -/
theorem iteration_eq (h : pa.pulseContext.isSome = true) (i : Iteration)
    {next : PulseAudio → Except Stop PulseAudio} {rest : Heard}
    (hnext : next (i.callbacks.foldl hear pa) = rest.result (i.callbacks.foldl hear pa)) :
    (do
      let pa ← i.callbacks.foldlM callback pa
      if i.result < 0 then
        logError pa
        return pa
      else next pa) =
      (if i.result < 0 then ⟨i.callbacks, true⟩
        else Heard.append ⟨i.callbacks, true⟩ rest).result pa := by
  rw [callbacks_eq h]
  by_cases hfails : i.result < 0
  · simp only [if_pos hfails, Heard.result_ok]
    cases i.callbacks.any Callback.isNull with
    | true => rfl
    | false => exact congrArg (· >>= fun _ => _) (logError_eq (context_foldl h _))
  · simp only [if_neg hfails, Heard.result_append, Heard.result_ok]
    cases i.callbacks.any Callback.isNull with
    | true => rfl
    | false => exact hnext

theorem iterateConnect_eq (h : pa.pulseContext.isSome = true) (is : List Iteration) :
    iterateConnect is pa = (heardConnect pa.state is).result pa := by
  induction is generalizing pa with
  | nil =>
    by_cases hstate : pa.state = .connecting
    · simp [iterateConnect, heardConnect, Heard.result, hstate]
    · simp [iterateConnect, heardConnect, Heard.result, hstate]
  | cons i rest ih =>
    unfold iterateConnect heardConnect
    by_cases hstate : pa.state = .connecting
    · rw [if_pos hstate, if_pos hstate]
      refine iteration_eq h i ?_
      rw [ih (context_foldl h _), hear_state]
    · rw [if_neg hstate, if_neg hstate]
      rfl

theorem iterateOp_eq (h : pa.pulseContext.isSome = true) (running : Bool) (is : List Iteration) :
    iterateOp running is pa = (heardOp running is).result pa := by
  induction is generalizing pa running with
  | nil =>
    cases running with
    | true => rfl
    | false => rfl
  | cons i rest ih =>
    cases running with
    | true => exact iteration_eq h i (ih (context_foldl h _) i.running)
    | false => rfl

/-- **What a wait comes to** is decided by what it hears. -/
theorem iterate_eq (h : pa.pulseContext.isSome = true) (wait : Wait) :
    iterate wait pa = (heardWait wait pa.state).result pa := by
  unfold iterate heardWait
  cases wait.op with
  | none => exact iterateConnect_eq h wait.iterations
  | some running => exact iterateOp_eq h running wait.iterations

/-! ## The connection -/

/-- One wait behind another, which goes on from the state behind it. -/
def Heard.thenFrom (h : Heard) (s : PulseState) (rest : PulseState → Heard) : Heard :=
  h.append (rest (h.callbacks.foldl PulseState.after s))

theorem Heard.result_thenFrom (h : Heard) {rest : PulseState → Heard}
    {next : PulseAudio → Except Stop PulseAudio} (hcontext : pa.pulseContext.isSome = true)
    (hnext : ∀ pa' : PulseAudio, pa'.pulseContext.isSome = true →
      next pa' = (rest pa'.state).result pa') :
    h.result pa >>= next = (h.thenFrom pa.state rest).result pa := by
  rw [thenFrom, result_append, ← hear_state]
  unfold Heard.result
  cases h.callbacks.any Callback.isNull with
  | true => rfl
  | false =>
    cases h.ends with
    | true => exact hnext _ (context_foldl hcontext _)
    | false => rfl

end PulseAudio

open PulseAudio

namespace Pulse

/-- What `init` hears of the server and its sink. -/
def heardInfo (pulse : Pulse) (s : PulseState) : Heard :=
  (heardWait pulse.serverInfo s).thenFrom s (heardWait pulse.sinkInfo)

/-- What it hears behind `pa_context_connect`. -/
def heardConnecting (pulse : Pulse) (s : PulseState) : Heard :=
  (heardConnect s pulse.connecting).thenFrom s fun s =>
    if s = .error then ⟨[], true⟩ else pulse.heardInfo s

/-- What `init` hears, where it has a main loop. -/
def heard (pulse : Pulse) : Heard :=
  if !pulse.context then ⟨[], true⟩
  else if pulse.connect.2 < 0 then ⟨pulse.connect.1, true⟩
  else Heard.thenFrom ⟨pulse.connect.1, true⟩ .connecting pulse.heardConnecting

/-- The sink whose name was given last is among what is heard. -/
def Reported (name : Bytes) (cs : List Callback) : Prop :=
  ∃ before info behind, cs = before ++ .sinkInfo (some info) 0 :: behind
    ∧ before.foldl nameAfter name = info.name

/-- What `init` needs: a main loop and its interface; and where it comes to its end, that the sink was
reported whose name was given last. -/
structure SinkKnown (pulse : Pulse) : Prop where
  mainloop : pulse.mainloop = true
  api : pulse.api = true
  reported : pulse.heard.callbacks.any Callback.isNull = false → pulse.heard.ends = true →
    Reported [] pulse.heard.callbacks

end Pulse

namespace PulseAudio

variable {pulse : Pulse}

theorem info_eq (h : pa.pulseContext.isSome = true) :
    iterate pulse.serverInfo pa >>= iterate pulse.sinkInfo = (pulse.heardInfo pa.state).result pa := by
  rw [iterate_eq h]
  exact Heard.result_thenFrom _ h fun pa' h' => iterate_eq h' _

theorem connecting_eq (h : pa.pulseContext.isSome = true) :
    (do
      let pa ← iterate ⟨none, pulse.connecting⟩ pa
      if pa.state = .error then
        logError pa
        return pa
      let pa ← iterate pulse.serverInfo pa
      iterate pulse.sinkInfo pa) = (pulse.heardConnecting pa.state).result pa := by
  rw [iterate_eq h]
  refine Heard.result_thenFrom _ h fun pa' h' => ?_
  by_cases herror : pa'.state = .error
  · rw [if_pos herror, if_pos herror, logError_eq h']
    rfl
  · rw [if_neg herror, if_neg herror]
    exact info_eq h'

/-- **What `init` comes to**, where it has a main loop. -/
theorem init_eq (hmainloop : pulse.mainloop = true) (hapi : pulse.api = true) :
    init pulse = pulse.heard.result { pulseContext := some pulse.context } := by
  unfold init Pulse.heard
  rw [hmainloop, hapi]
  cases pulse.context with
  | false => rfl
  | true =>
    -- the call of `pa_context_connect` is as an iteration is
    have hsome : ({ pulseContext := some true } : PulseAudio).pulseContext.isSome = true := rfl
    exact iteration_eq hsome ⟨pulse.connect.1, pulse.connect.2, false⟩
      ((connecting_eq (context_foldl rfl _)).trans (by rw [hear_state]))

/-- Without one, it reads its context. -/
theorem init_unassigned (h : ¬ (pulse.mainloop = true ∧ pulse.api = true)) :
    init pulse = .error (.undefined .unassigned) := by
  unfold init
  cases hmainloop : pulse.mainloop with
  | false => rfl
  | true =>
    cases hapi : pulse.api with
    | false => rfl
    | true => exact absurd ⟨hmainloop, hapi⟩ h

theorem reported_cons {name : Bytes} {c : Callback} {cs : List Callback} :
    Pulse.Reported name (c :: cs) ↔ (∃ info, c = .sinkInfo (some info) 0 ∧ name = info.name)
      ∨ Pulse.Reported (nameAfter name c) cs := by
  constructor
  · rintro ⟨before, info, behind, hcs, hname⟩
    cases before with
    | nil =>
      cases hcs
      exact .inl ⟨info, rfl, hname⟩
    | cons c' before =>
      cases hcs
      exact .inr ⟨before, info, behind, rfl, hname⟩
  · rintro (⟨info, rfl, hname⟩ | ⟨before, info, behind, rfl, hname⟩)
    · exact ⟨[], info, cs, rfl, hname⟩
    · exact ⟨c :: before, info, behind, rfl, hname⟩

theorem hear_sink (c : Callback) : (hear pa c).defaultSink.isSome = true ↔
    pa.defaultSink.isSome = true
      ∨ ∃ info, c = .sinkInfo (some info) 0 ∧ pa.defaultSinkName = info.name := by
  unfold hear
  dsimp only
  split
  · next info =>
    by_cases hname : pa.defaultSinkName = info.name
    · simp [hname]
    · rw [if_neg hname]
      refine ⟨.inl, fun h => h.resolve_right ?_⟩
      rintro ⟨info', heq, hname'⟩
      cases heq
      exact hname hname'
  · next hother =>
    refine ⟨.inl, fun h => h.resolve_right ?_⟩
    rintro ⟨info, rfl, -⟩
    exact hother info rfl

/-- **When the sink is known**: it was before, or it is reported. -/
theorem sink_iff (cs : List Callback) : (cs.foldl hear pa).defaultSink.isSome = true ↔
    pa.defaultSink.isSome = true ∨ Pulse.Reported pa.defaultSinkName cs := by
  induction cs generalizing pa with
  | nil =>
    refine ⟨.inl, fun h => h.resolve_right ?_⟩
    rintro ⟨before, _, _, hcs, -⟩
    exact absurd hcs.symm (List.append_ne_nil_of_right_ne_nil before (List.cons_ne_nil _ _))
  | cons c cs ih =>
    rw [List.foldl_cons, ih, hear_sink, reported_cons, or_assoc]
    rfl

end PulseAudio

end Holchain.Holper
