import Mathlib.Tactic.SplitIfs
import Holchain.Laws.ParamSpec
import Holchain.Laws.Pulse
import Holchain.Holper.Clipboard
import Holchain.Holper.Display

/-!
# Laws.Action — what a spec accepts is what its `actOn` can handle

Where a spec declares all its parameters under one key that allows exactly one of them, a map it
accepts has one of them, with a text of its type, and nothing else (`Spec.Passes.choice`). So the
bodies that read the parameters again take the branch of that one: each action's law is that its
`actOn` is the body of the operation asked for (`Operation`), and when it is `Careful`, that is, takes
no value of an empty optional and reads no variable that is not assigned.
-/

namespace Holchain.Holper

open Std (TreeMap TreeSet)
open ParamSpec (ParamDeclaration suppliedWithKey)

variable {P : Platform} {supplied : Parameters}

/-- The spec accepts the parameters: `failReason` returns nothing. -/
def Spec.Passes (P : Platform) (spec : Spec) (supplied : Parameters) : Prop :=
  ∃ ps, spec.apply P { parameters := supplied, validate := true } = .ok ps ∧ ps.failReason = none

/-! ## One of several parameters -/

theorem Parameters.get_of_notMem {name : Bytes} (h : name ∉ supplied.parameters) (t : ParamType) :
    supplied.get P t name = (none, false) := by
  unfold Parameters.get
  rw [TreeMap.getElem?_eq_none h]

theorem Parameters.get_of_fine {d : ParamDeclaration} (hfine : d.Fine P supplied)
    (h : d.name ∈ supplied.parameters) :
    ∃ v, supplied.get P d.type d.name = (some v, true) := by
  obtain ⟨text, htext⟩ := Option.isSome_iff_exists.mp (TreeMap.mem_iff_isSome_getElem?.mp h)
  obtain ⟨v, hv⟩ := Option.isSome_iff_exists.mp (hfine text htext)
  refine ⟨v, ?_⟩
  unfold Parameters.get
  rw [htext]
  exact congrArg (·, true) hv

/-- What passes a spec of parameters and one key: every text is of its type, and the key has one
supplied parameter. -/
theorem Spec.Passes.one {decls : List ParamDeclaration} {k : Bytes}
    (hnames : (decls.map (·.name)).Nodup)
    (h : Spec.Passes P { declarations := decls.map .param ++ [.key ⟨k, 1, 1⟩] } supplied) :
    (∀ d ∈ decls, d.Fine P supplied) ∧ ∃ name, suppliedWithKey supplied decls k = [name] := by
  obtain ⟨ps, hps, hreason⟩ := h
  obtain ⟨ps', hps', hiff⟩ := ParamSpec.failReason_exact P supplied decls [⟨k, 1, 1⟩] hnames
    (by simp)
  have hsame : ps' = ps := by
    unfold Spec.apply at hps
    rw [List.map_singleton] at hps'
    rw [hps'] at hps
    exact Except.ok.inj hps
  obtain ⟨-, hfine, hkeys⟩ := hiff.mp (hsame ▸ hreason)
  obtain ⟨hmin, hmax⟩ := hkeys _ List.mem_cons_self
  have hlen : (suppliedWithKey supplied decls k).length = 1 := by
    dsimp only at hmin hmax
    omega
  exact ⟨hfine, List.length_eq_one_iff.mp hlen⟩

/-- **The one parameter of the key**: it is supplied with a text of its type, and no other one of
the key is supplied. -/
theorem Spec.Passes.choice {decls : List ParamDeclaration} {k : Bytes}
    (hnames : (decls.map (·.name)).Nodup)
    (h : Spec.Passes P { declarations := decls.map .param ++ [.key ⟨k, 1, 1⟩] } supplied) :
    ∃ d ∈ decls, d.keys.contains k = true
      ∧ suppliedWithKey supplied decls k = [d.name]
      ∧ (∃ v, supplied.get P d.type d.name = (some v, true))
      ∧ ∀ d' ∈ decls, d'.keys.contains k = true → d'.name ≠ d.name →
        ∀ t, supplied.get P t d'.name = (none, false) := by
  obtain ⟨hfine, name, hone⟩ := h.one hnames
  have hmem : name ∈ suppliedWithKey supplied decls k := hone ▸ List.mem_cons_self
  unfold suppliedWithKey at hmem
  simp only [List.mem_filter, TreeMap.mem_keys, List.any_eq_true, Bool.and_eq_true,
    beq_iff_eq] at hmem
  obtain ⟨hin, d, hd, rfl, hk⟩ := hmem
  refine ⟨d, hd, hk, hone, Parameters.get_of_fine (hfine d hd) hin, ?_⟩
  intro d' hd' hk' hne t
  refine Parameters.get_of_notMem (fun hin' => hne ?_) t
  have hmem' : d'.name ∈ suppliedWithKey supplied decls k := by
    unfold suppliedWithKey
    simp only [List.mem_filter, TreeMap.mem_keys, List.any_eq_true, Bool.and_eq_true, beq_iff_eq]
    exact ⟨hin', d', hd', rfl, hk'⟩
  exact List.mem_singleton.mp (hone ▸ hmem')

/-! ## Careful bodies -/

/-- The body takes no value of an empty optional and reads no unassigned variable. -/
def Careful {α : Type} (b : Body P α) : Prop :=
  ∀ trace, (b.run.run trace).1 ≠ .error (.undefined .emptyOptional)
    ∧ (b.run.run trace).1 ≠ .error (.undefined .unassigned)

variable {α β : Type}

theorem careful_pure (a : α) : Careful (pure a : Body P α) :=
  fun _ => ⟨nofun, nofun⟩

theorem careful_emit (e : Effect P) : Careful (Body.emit e) :=
  fun _ => ⟨nofun, nofun⟩

theorem careful_threw (what : Bytes) : Careful (Body.threw what : Body P α) :=
  fun _ => ⟨nofun, nofun⟩

theorem careful_index (vec : List α) (i : Nat) : Careful (Body.index vec i : Body P α) := by
  unfold Body.index
  cases vec[i]? with
  | none => exact fun _ => ⟨nofun, nofun⟩
  | some a => exact careful_pure a

theorem careful_modulo (a b : Nat) : Careful (Body.modulo a b : Body P Nat) := by
  unfold Body.modulo
  split
  · exact fun _ => ⟨nofun, nofun⟩
  · exact careful_pure _

theorem careful_urandom (M : Machine P) : Careful (Filesystem.urandom M) := by
  intro trace
  show (M.urandom trace.draws).mapError Stop.threw ≠ _ ∧ (M.urandom trace.draws).mapError _ ≠ _
  cases M.urandom trace.draws with
  | error e => exact ⟨nofun, nofun⟩
  | ok n => exact ⟨nofun, nofun⟩

section Bind

variable {b : Body P α} {f : α → Body P β} {trace trace' : Trace P}

theorem run_bind_ok {a : α} (h : b.run.run trace = (.ok a, trace')) :
    (b >>= f).run.run trace = (f a).run.run trace' := by
  simp only [ExceptT.run_bind, StateT.run_bind, h]
  rfl

theorem run_bind_error {e : Stop} (h : b.run.run trace = (.error e, trace')) :
    (b >>= f).run.run trace = (.error e, trace') := by
  simp only [ExceptT.run_bind, StateT.run_bind, h]
  rfl

end Bind

/-- A careful body is followed by careful ones. -/
theorem careful_bind {b : Body P α} {f : α → Body P β} (hb : Careful b) (hf : ∀ a, Careful (f a)) :
    Careful (b >>= f) := by
  intro trace
  have hb := hb trace
  rcases hrun : b.run.run trace with ⟨r, trace'⟩
  rw [hrun] at hb
  cases r with
  | ok a =>
    rw [run_bind_ok hrun]
    exact hf a trace'
  | error e =>
    rw [run_bind_error hrun]
    exact ⟨fun h => hb.1 (congrArg _ (Except.error.inj h)),
      fun h => hb.2 (congrArg _ (Except.error.inj h))⟩

/-- What does not come to a value is not followed. -/
theorem careful_lift_error {e : Stop} {f : α → Body P β} :
    Careful ((liftM (.error e : Except Stop α) : Body P α) >>= f) ↔
      e ≠ .undefined .emptyOptional ∧ e ≠ .undefined .unassigned := by
  constructor
  · intro h
    exact ⟨fun heq => (h {}).1 (congrArg Except.error heq),
      fun heq => (h {}).2 (congrArg Except.error heq)⟩
  · intro h _
    exact ⟨fun heq => h.1 (Except.error.inj heq), fun heq => h.2 (Except.error.inj heq)⟩

/-- A local is read, and what follows is careful with its value. -/
theorem careful_read_iff {o : Option α} {f : α → Body P β} :
    Careful (Body.read o >>= f) ↔ ∃ a, o = some a ∧ Careful (f a) := by
  cases o with
  | none =>
    refine iff_of_false (fun h => (h {}).2 rfl) ?_
    rintro ⟨a, ha, -⟩
    cases ha
  | some a => exact ⟨fun h => ⟨a, rfl, h⟩, fun ⟨_, ha, h⟩ => Option.some.inj ha ▸ h⟩

/-! ## Volume -/

namespace VolumeAction

/-- What is asked for. -/
inductive Operation where
  | set (n : Int)
  | incr (n : Int)
  | mute

/-- Its parameter. -/
def Operation.name : Operation → Bytes
  | .set _ => lit "set"
  | .incr _ => lit "incr"
  | .mute => lit "mute"

/-- The parameter is supplied, with a text that is read as the value. -/
def Operation.Given (P : Platform) (supplied : Parameters) : Operation → Prop
  | .set n => supplied.get P .int (lit "set") = (some n, true)
  | .incr n => supplied.get P .int (lit "incr") = (some n, true)
  | .mute => supplied.get P .none (lit "mute") = (some (), true)

/-- Changing the volume to a value. -/
def change (M : Machine P) (pa : PulseAudio) (vol : P.Float) (mute : Bool) (value : P.Float) :
    Body P Json := do
  let ops := M.float
  let clamped := ops.clamp value (ops.literal 0 1) (ops.literal 2 1)
  let pa ← PulseAudio.setVolume M clamped pa
  PulseAudio.destroy pa
  return .object [(lit "old_volume", .int (ops.toInt (ops.mul (ops.ofInt 100) vol))),
    (lit "new_volume", .int (ops.toInt (ops.mul (ops.ofInt 100) clamped))),
    (lit "mute", .bool mute)]

/-- What is done behind `init`. -/
def react (M : Machine P) (op : Operation) (pa : PulseAudio) : Body P Json := do
  let vol ← PulseAudio.getVolume M.float pa
  let mute ← PulseAudio.isMuted pa
  match op with
  | .set n => change M pa vol mute (M.float.mul (M.float.ofInt n) (M.float.literal 1 100))
  | .incr n =>
    change M pa vol mute (M.float.add vol (M.float.mul (M.float.ofInt n) (M.float.literal 1 100)))
  | .mute => do
    let pa ← PulseAudio.toggleMute M pa
    PulseAudio.destroy pa
    return .object [(lit "volume", .double (M.float.toDouble vol)), (lit "old_mute", .bool mute),
      (lit "new_mute", .bool (!mute))]

/-- The body of each operation. -/
def perform (M : Machine P) (op : Operation) : Body P Json := do
  let pa ← PulseAudio.init M.pulse
  react M op pa

/-- **The volume command does what is asked for.** -/
theorem actOn_eq_perform (M : Machine P) (h : spec.Passes P supplied) :
    ∃ op : Operation, suppliedWithKey supplied params (lit "operations") = [op.name]
      ∧ op.Given P supplied ∧ actOn M supplied = perform M op := by
  obtain ⟨d, hd, -, hone, ⟨v, hv⟩, hothers⟩ := h.choice (by decide)
  have hset := hothers ⟨.int, lit "set", _, _⟩ (.head _) (by decide)
  have hincr := hothers ⟨.int, lit "incr", _, _⟩ (.tail _ (.head _)) (by decide)
  have hmute := hothers ⟨.none, lit "mute", _, _⟩ (.tail _ (.tail _ (.head _))) (by decide)
  simp only [params, List.mem_cons, List.not_mem_nil, or_false] at hd
  rcases hd with rfl | rfl | rfl
  · have hincr := hincr (by decide) .int
    have hmute := hmute (by decide) .none
    refine ⟨.set v, hone, hv, ?_⟩
    simp only [actOn, hmute, hincr, hv]
    rfl
  · have hmute := hmute (by decide) .none
    refine ⟨.incr v, hone, hv, ?_⟩
    simp only [actOn, hmute, hv]
    rfl
  · refine ⟨.mute, hone, hv, ?_⟩
    simp only [actOn, hv]
    rfl

/-- A request to the server, and the end of the connection. -/
theorem careful_request {pa : PulseAudio} (h : pa.pulseContext.isSome = true) (e : Effect P)
    (wait : Wait) (value : Json) : Careful (do
      Body.emit e
      let pa ← PulseAudio.iterate wait pa
      PulseAudio.destroy pa
      return value : Body P Json) := by
  refine careful_bind (careful_emit e) fun _ => ?_
  rw [PulseAudio.iterate_eq h]
  unfold PulseAudio.Heard.result
  split
  · exact careful_lift_error.mpr ⟨nofun, nofun⟩
  · split
    · obtain ⟨context, hcontext⟩ :=
        Option.isSome_iff_exists.mp
          (PulseAudio.context_foldl h (PulseAudio.heardWait wait pa.state).callbacks)
      have hdestroy : PulseAudio.destroy
          ((PulseAudio.heardWait wait pa.state).callbacks.foldl PulseAudio.hear pa) = .ok () := by
        rw [PulseAudio.destroy, hcontext]
        rfl
      show Careful (do
        PulseAudio.destroy ((PulseAudio.heardWait wait pa.state).callbacks.foldl PulseAudio.hear pa)
        return value : Body P Json)
      rw [hdestroy]
      exact careful_pure value
    · exact careful_lift_error.mpr ⟨nofun, nofun⟩

/-- With a sink, nothing is read that is not assigned. -/
theorem careful_react (M : Machine P) (op : Operation) {pa : PulseAudio}
    (h : pa.pulseContext.isSome = true) (hsink : pa.defaultSink.isSome = true) :
    Careful (react M op pa) := by
  obtain ⟨sink, hsink⟩ := Option.isSome_iff_exists.mp hsink
  have hread : PulseAudio.read pa.defaultSink = .ok sink := by rw [hsink]; rfl
  cases op with
  | set n =>
    simp only [react, PulseAudio.getVolume, PulseAudio.isMuted, change, PulseAudio.setVolume, hread]
    exact careful_request h _ _ _
  | incr n =>
    simp only [react, PulseAudio.getVolume, PulseAudio.isMuted, change, PulseAudio.setVolume, hread]
    exact careful_request h _ _ _
  | mute =>
    simp only [react, PulseAudio.getVolume, PulseAudio.isMuted, PulseAudio.toggleMute,
      PulseAudio.setMute, hread]
    exact careful_request h _ _ _

/-- **When nothing is read that is not assigned**: where the sink is known. -/
theorem careful_perform_iff (M : Machine P) (op : Operation) :
    Careful (perform M op) ↔ M.pulse.SinkKnown := by
  by_cases hlibrary : M.pulse.mainloop = true ∧ M.pulse.api = true
  · obtain ⟨hmainloop, hapi⟩ := hlibrary
    have hknown : M.pulse.SinkKnown ↔ (M.pulse.heard.callbacks.any Callback.isNull = false →
        M.pulse.heard.ends = true → Pulse.Reported [] M.pulse.heard.callbacks) :=
      ⟨fun h => h.reported, fun h => ⟨hmainloop, hapi, h⟩⟩
    rw [hknown, perform, PulseAudio.init_eq hmainloop hapi]
    unfold PulseAudio.Heard.result
    cases M.pulse.heard.callbacks.any Callback.isNull with
    | true => exact iff_of_true (careful_lift_error.mpr ⟨nofun, nofun⟩) nofun
    | false =>
      cases M.pulse.heard.ends with
      | false => exact iff_of_true (careful_lift_error.mpr ⟨nofun, nofun⟩) nofun
      | true =>
        have hsink := @PulseAudio.sink_iff { pulseContext := some M.pulse.context }
          M.pulse.heard.callbacks
        have hcontext := @PulseAudio.context_foldl { pulseContext := some M.pulse.context } rfl
          M.pulse.heard.callbacks
        generalize M.pulse.heard.callbacks.foldl PulseAudio.hear _ = pa at hsink hcontext
        show Careful (react M op pa) ↔ _
        by_cases hreported : Pulse.Reported [] M.pulse.heard.callbacks
        · exact iff_of_true (careful_react M op hcontext (hsink.mpr (.inr hreported)))
            fun _ _ => hreported
        · have hnone : pa.defaultSink = none :=
            Option.not_isSome_iff_eq_none.mp fun h => (hsink.mp h).elim Bool.noConfusion hreported
          have hread : PulseAudio.read pa.defaultSink = .error (.undefined .unassigned) := by
            rw [hnone]
            rfl
          refine iff_of_false (fun h => ?_) fun h => hreported (h rfl rfl)
          rw [react, PulseAudio.getVolume, hread] at h
          exact (careful_lift_error.mp h).2 rfl
  · rw [perform, PulseAudio.init_unassigned hlibrary]
    exact iff_of_false (fun h => (careful_lift_error.mp h).2 rfl) fun h => hlibrary ⟨h.mainloop, h.api⟩

end VolumeAction

/-! ## Brightness -/

namespace BrightnessChangeAction

/-- What is asked for. -/
inductive Operation where
  | set (n : Int)
  | incr (n : Int)

/-- Its parameter. -/
def Operation.name : Operation → Bytes
  | .set _ => lit "set"
  | .incr _ => lit "incr"

/-- The parameter is supplied, with a text that is read as the value. -/
def Operation.Given (P : Platform) (supplied : Parameters) : Operation → Prop
  | .set n => supplied.get P .int (lit "set") = (some n, true)
  | .incr n => supplied.get P .int (lit "incr") = (some n, true)

/-- The brightness that is asked for, before it is clamped. -/
def Operation.target (ops : FloatOps P.Float) (brightness : P.Float) : Operation → P.Float
  | .set n => ops.mul (ops.ofInt n) (ops.literal 1 100)
  | .incr n => ops.add brightness (ops.mul (ops.ofInt n) (ops.literal 1 100))

/-- Writing the new brightness to the device and reporting it. -/
def finish (M : Machine P) (max : Int) (brightness newBrightness : P.Float) : Body P Json := do
  Filesystem.dump (kBrightnessPath ++ lit "/brightness")
    (M.float.toInt (M.float.mul newBrightness (M.float.ofInt max)))
  return .object [(lit "old_brightness", .double (M.float.toDouble brightness)),
    (lit "new_brightness", .double (M.float.toDouble newBrightness))]

/-- The body of each operation, on a device with this brightness. -/
def perform (M : Machine P) (raw max : Int) (op : Operation) : Body P Json :=
  let ops := M.float
  let brightness := ops.div (ops.mul (ops.ofInt raw) (ops.literal 1 1)) (ops.ofInt max)
  let target := ops.clamp (op.target ops brightness) (ops.literal 0 1) (ops.literal 1 1)
  let dark := ops.literal 1 1000
  if ops.lt brightness dark && ops.lt brightness target then do
    setScreenPower M true
    finish M max brightness target
  else if ops.lt target dark && ops.lt target (ops.add brightness dark) then do
    setScreenPower M false
    finish M max brightness (ops.literal 0 1)
  else finish M max brightness target

theorem careful_setScreenPower (M : Machine P) (val : Bool) : Careful (setScreenPower M val) := by
  unfold setScreenPower
  split
  · exact careful_emit _
  · exact careful_threw _

theorem careful_finish (M : Machine P) (max : Int) (brightness newBrightness : P.Float) :
    Careful (finish M max brightness newBrightness) :=
  careful_bind (careful_emit _) fun _ => careful_pure _

theorem careful_perform (M : Machine P) (raw max : Int) (op : Operation) :
    Careful (perform M raw max op) := by
  unfold perform
  dsimp only
  split
  · exact careful_bind (careful_setScreenPower M true) fun _ => careful_finish M _ _ _
  · split
    · exact careful_bind (careful_setScreenPower M false) fun _ => careful_finish M _ _ _
    · exact careful_finish M _ _ _

/-- The body of each operation, on the two numbers of the device. -/
def attempt (M : Machine P) (op : Operation) : Body P Json := do
  let raw ← .read (Filesystem.parse M (kBrightnessPath ++ lit "/brightness"))
  let max ← .read (Filesystem.parse M (kBrightnessPath ++ lit "/max_brightness"))
  perform M raw max op

/-- **The brightness command does what is asked for.** -/
theorem actOn_eq_attempt (M : Machine P) (h : spec.Passes P supplied) :
    ∃ op : Operation, suppliedWithKey supplied params (lit "operations") = [op.name]
      ∧ op.Given P supplied ∧ actOn M supplied = attempt M op := by
  obtain ⟨d, hd, -, hone, ⟨v, hv⟩, hothers⟩ := h.choice (by decide)
  have hincr := hothers ⟨.int, lit "incr", _, _⟩ (.tail _ (.head _)) (by decide)
  simp only [params, List.mem_cons, List.not_mem_nil, or_false] at hd
  rcases hd with rfl | rfl
  · have hincr := hincr (by decide) .int
    refine ⟨.set v, hone, hv, ?_⟩
    simp only [actOn, hincr, hv]
    rfl
  · refine ⟨.incr v, hone, hv, ?_⟩
    simp only [actOn, hv]
    rfl

/-- **When it reads nothing that is not assigned**: where both files hold a number. -/
theorem careful_attempt_iff (M : Machine P) (op : Operation) : Careful (attempt M op) ↔
    (∃ raw, Filesystem.parse M (kBrightnessPath ++ lit "/brightness") = some raw)
      ∧ ∃ max, Filesystem.parse M (kBrightnessPath ++ lit "/max_brightness") = some max := by
  unfold attempt
  simp only [careful_read_iff, careful_perform, and_true, exists_and_right]

end BrightnessChangeAction

/-! ## The backlight of the keyboard -/

namespace KeyboardBacklightAction

/-- What is asked for. -/
inductive Operation where
  | on
  | off
  | toggle
  | set (n : Int)
  | incr (n : Int)

/-- Its parameter. -/
def Operation.name : Operation → Bytes
  | .on => lit "on"
  | .off => lit "off"
  | .toggle => lit "toggle"
  | .set _ => lit "set"
  | .incr _ => lit "incr"

/-- The parameter is supplied, with a text that is read as the value. -/
def Operation.Given (P : Platform) (supplied : Parameters) : Operation → Prop
  | .on => supplied.get P .none (lit "on") = (some (), true)
  | .off => supplied.get P .none (lit "off") = (some (), true)
  | .toggle => supplied.get P .none (lit "toggle") = (some (), true)
  | .set n => supplied.get P .int (lit "set") = (some n, true)
  | .incr n => supplied.get P .int (lit "incr") = (some n, true)

/-- The brightness that is asked for. -/
def Operation.target (old max : Int) : Operation → Int
  | .on => max
  | .off => 0
  | .toggle => if old ≠ 0 then 0 else max
  | .set n => clampInt n 0 max
  | .incr n => clampInt (toInt32 (old + n)) 0 max

/-- Whether the maximum is read for it. -/
def Operation.ReadsMax (old : Int) : Operation → Prop
  | .off => False
  | .toggle => old = 0
  | .on | .set _ | .incr _ => True

/-- The brightness that is asked for, with the maximum read where it is used. -/
def Operation.choose (old : Int) (max : Option Int) : Operation → Body P Int
  | .on => .read max
  | .off => pure 0
  | .toggle => if old ≠ 0 then pure 0 else .read max
  | .set n => do return clampInt n 0 (← .read max)
  | .incr n => do return clampInt (toInt32 (old + n)) 0 (← .read max)

/-- Writing the new brightness to the device and reporting it. -/
def finish (old new : Int) : Body P Json := do
  Filesystem.dump (kPath ++ lit "/brightness") new
  return .object [(lit "old_brightness", .int old), (lit "new_brightness", .int new)]

/-- The body of each operation, on the numbers of the device. -/
def attempt (M : Machine P) (op : Operation) : Body P Json := do
  let old ← .read (Filesystem.parse M (kPath ++ lit "/brightness"))
  let new ← op.choose old (Filesystem.parse M (kPath ++ lit "/max_brightness"))
  finish old new

/-- The body of each operation, on a device with this brightness. -/
def perform (old max : Int) (op : Operation) : Body P Json := finish old (op.target old max)

theorem choose_some (old max : Int) (op : Operation) :
    (op.choose old (some max) : Body P Int) = pure (op.target old max) := by
  cases op with
  | toggle =>
    unfold Operation.choose Operation.target
    by_cases hzero : old = 0
    · rw [if_neg (not_not_intro hzero), if_neg (not_not_intro hzero)]
      rfl
    · rw [if_pos hzero, if_pos hzero]
  | _ => rfl

/-- **The backlight command does what is asked for.** -/
theorem actOn_eq_attempt (M : Machine P) (h : spec.Passes P supplied) :
    ∃ op : Operation, suppliedWithKey supplied params (lit "operations") = [op.name]
      ∧ op.Given P supplied ∧ actOn M supplied = attempt M op := by
  obtain ⟨d, hd, -, hone, ⟨v, hv⟩, hothers⟩ := h.choice (by decide)
  have hon := hothers ⟨.none, lit "on", _, _⟩ (.head _) (by decide)
  have hoff := hothers ⟨.none, lit "off", _, _⟩ (.tail _ (.head _)) (by decide)
  have htoggle := hothers ⟨.none, lit "toggle", _, _⟩ (.tail _ (.tail _ (.head _))) (by decide)
  have hset := hothers ⟨.int, lit "set", _, _⟩ (.tail _ (.tail _ (.tail _ (.head _)))) (by decide)
  simp only [params, List.mem_cons, List.not_mem_nil, or_false] at hd
  rcases hd with rfl | rfl | rfl | rfl | rfl
  · refine ⟨.on, hone, hv, ?_⟩
    simp only [actOn, hv]
    rfl
  · have hon := hon (by decide) .none
    refine ⟨.off, hone, hv, ?_⟩
    simp only [actOn, hon, hv]
    rfl
  · have hon := hon (by decide) .none
    have hoff := hoff (by decide) .none
    refine ⟨.toggle, hone, hv, ?_⟩
    simp only [actOn, hon, hoff, hv, attempt]
    cases Filesystem.parse M (kPath ++ lit "/brightness") with
    | none => rfl
    | some old =>
      by_cases hzero : old = 0
      · subst hzero
        rfl
      · simp only [Operation.choose, Body.read, pure_bind, ne_eq, hzero, not_false_eq_true, if_true]
        rfl
  · have hon := hon (by decide) .none
    have hoff := hoff (by decide) .none
    have htoggle := htoggle (by decide) .none
    refine ⟨.set v, hone, hv, ?_⟩
    simp only [actOn, hon, hoff, htoggle, hv, attempt, Operation.choose, bind_assoc]
    rfl
  · have hon := hon (by decide) .none
    have hoff := hoff (by decide) .none
    have htoggle := htoggle (by decide) .none
    have hset := hset (by decide) .int
    refine ⟨.incr v, hone, hv, ?_⟩
    simp only [actOn, hon, hoff, htoggle, hset, hv, attempt, Operation.choose, bind_assoc]
    cases Filesystem.parse M (kPath ++ lit "/brightness") with
    | none => rfl
    | some old => rfl

/-- On a device whose files hold numbers. -/
theorem actOn_eq_perform (M : Machine P) {old max : Int}
    (hmax : Filesystem.parse M (kPath ++ lit "/max_brightness") = some max)
    (hold : Filesystem.parse M (kPath ++ lit "/brightness") = some old)
    (h : spec.Passes P supplied) :
    ∃ op : Operation, suppliedWithKey supplied params (lit "operations") = [op.name]
      ∧ op.Given P supplied ∧ actOn M supplied = perform old max op := by
  obtain ⟨op, hone, hgiven, heq⟩ := actOn_eq_attempt M h
  refine ⟨op, hone, hgiven, heq.trans ?_⟩
  rw [attempt, hold, hmax]
  simp only [Body.read, pure_bind, choose_some]
  rfl

theorem careful_finish (old new : Int) : Careful (finish old new : Body P Json) :=
  careful_bind (careful_emit _) fun _ => careful_pure _

theorem careful_choose_iff (old : Int) (max : Option Int) (op : Operation) {f : Int → Body P Json}
    (hf : ∀ n, Careful (f n)) :
    Careful (op.choose old max >>= f) ↔ (op.ReadsMax old → ∃ m, max = some m) := by
  have hread : ∀ g : Int → Body P Json, (∀ n, Careful (g n)) →
      (Careful (Body.read max >>= g) ↔ ∃ m, max = some m) := fun g hg => by
    simp only [careful_read_iff, hg, and_true]
  cases op with
  | off => exact iff_of_true (hf 0) False.elim
  | toggle =>
    unfold Operation.choose
    by_cases hzero : old = 0
    · rw [if_neg (not_not_intro hzero), hread f hf]
      exact ⟨fun h _ => h, fun h => h hzero⟩
    · rw [if_pos hzero]
      exact iff_of_true (hf 0) fun h => absurd h hzero
  | on => exact (hread f hf).trans ⟨fun h _ => h, fun h => h trivial⟩
  | set n =>
    unfold Operation.choose
    simp only [bind_assoc, pure_bind]
    rw [hread _ fun m => hf _]
    exact ⟨fun h _ => h, fun h => h trivial⟩
  | incr n =>
    unfold Operation.choose
    simp only [bind_assoc, pure_bind]
    rw [hread _ fun m => hf _]
    exact ⟨fun h _ => h, fun h => h trivial⟩

/-- **When it reads nothing that is not assigned**: where the brightness is a number, and the maximum
too if it is read. -/
theorem careful_attempt_iff (M : Machine P) (op : Operation) : Careful (attempt M op) ↔
    ∃ old, Filesystem.parse M (kPath ++ lit "/brightness") = some old
      ∧ (op.ReadsMax old →
        ∃ max, Filesystem.parse M (kPath ++ lit "/max_brightness") = some max) := by
  unfold attempt
  simp only [careful_read_iff, careful_choose_iff _ _ op fun n => careful_finish _ n]

end KeyboardBacklightAction

/-! ## Passwords -/

namespace GeneratePasswordAction

/-- A minimum and a maximum, the minimum lowered to the maximum and the maximum without it. -/
def effective (min max : Int) : Int × Int :=
  let first := if max < min then max else min
  (first, toInt32 (max - first))

/-- The value of a parameter, or what it is by default. -/
def given (P : Platform) (supplied : Parameters) (name : Bytes) (default : Int) : Int :=
  match (supplied.get P .int name).1 with
  | some n => n
  | none => default

theorem pure_effective (min max : Int) :
    (if max < min then pure (max, toInt32 (max - max)) else pure (min, toInt32 (max - min))
      : Body P (Int × Int)) = pure (effective min max) := by
  unfold effective
  split_ifs <;> rfl

/-- `getordefault` takes the value of an optional only where it holds one. -/
theorem getordefault_eq (supplied : Parameters) (name : Bytes) (mindef maxdef : Int) :
    (getordefault supplied name mindef maxdef : Body P (Int × Int))
      = pure (effective (given P supplied (lit "min_" ++ name) mindef)
          (given P supplied (lit "max_" ++ name) maxdef)) := by
  unfold getordefault given
  cases (supplied.get P .int (lit "min_" ++ name)).1 with
  | none =>
    cases (supplied.get P .int (lit "max_" ++ name)).1 with
    | none => exact pure_effective mindef maxdef
    | some max => exact pure_effective mindef max
  | some min =>
    cases (supplied.get P .int (lit "max_" ++ name)).1 with
    | none => exact pure_effective min maxdef
    | some max => exact pure_effective min max

theorem careful_processIfMatch (getter : Getter) (pick : Int) (limits : List Limit) :
    Careful (processIfMatch getter pick limits : Body P (List Limit × Bytes)) := by
  induction limits generalizing pick with
  | nil => exact careful_pure _
  | cons limit rest ih =>
    unfold processIfMatch
    split
    · split
      · exact careful_bind (careful_index _ _) fun _ => careful_bind (ih _) fun _ => careful_pure _
      · exact careful_bind (ih _) fun _ => careful_pure _
    · exact careful_bind (ih pick) fun _ => careful_pure _

theorem careful_iterate (M : Machine P) (getter : Getter) (limits : List Limit) :
    Careful (iterate M getter limits) :=
  careful_bind (careful_urandom M) fun _ =>
    careful_bind (careful_modulo _ _) fun _ => careful_processIfMatch getter _ limits

theorem careful_fill (M : Machine P) (minlens : Int) (i n : Nat) (limits : List Limit)
    (result : Bytes) : Careful (fill M minlens i n limits result) := by
  induction n generalizing i limits result with
  | zero => exact careful_pure _
  | succ n ih => exact careful_bind (careful_iterate M _ limits) fun r => ih _ r.1 _

theorem careful_shuffle (M : Machine P) (n : Nat) (result password : Bytes) :
    Careful (shuffle M n result password) := by
  induction n generalizing result password with
  | zero => exact careful_pure _
  | succ n ih =>
    exact careful_bind (careful_urandom M) fun _ =>
      careful_bind (careful_modulo _ _) fun _ =>
        careful_bind (careful_index _ _) fun _ => ih _ _

/-- The password made and handed on. -/
theorem careful_password (M : Machine P) (minlens : Int) (n : Nat) (limits : List Limit)
    (argv : List Bytes) : Careful (do
      let result ← fill M minlens 0 n limits []
      let password ← shuffle M n result []
      .emit (.subprocess argv password)
      return .string (lit "success") : Body P Json) :=
  careful_bind (careful_fill M _ _ _ _ _) fun _ => careful_bind (careful_shuffle M _ _ _) fun _ =>
    careful_bind (careful_emit _) fun _ => careful_pure _

/-- **The password command has its length**, and takes no other optional unchecked. -/
theorem careful_actOn (M : Machine P) (h : spec.Passes P supplied) :
    ∃ len : Int, suppliedWithKey supplied params (lit "length") = [lit "length"]
      ∧ supplied.get P .int (lit "length") = (some len, true) ∧ Careful (actOn M supplied) := by
  obtain ⟨d, hd, hk, hone, ⟨v, hv⟩, -⟩ := h.choice (by decide)
  have hlimits : ∀ d ∈ minmaxspec (lit "lower") ++ minmaxspec (lit "upper")
      ++ minmaxspec (lit "numeric") ++ minmaxspec (lit "special"),
      d.keys.contains (lit "length") = false := by decide
  obtain rfl := List.mem_singleton.mp ((List.mem_append.mp hd).resolve_left fun hlimit => by
    rw [hlimits d hlimit] at hk
    cases hk)
  refine ⟨v, hone, hv, ?_⟩
  unfold actOn
  rw [hv]
  refine careful_bind (careful_pure v) fun len => ?_
  simp only [getordefault_eq, pure_bind]
  split
  · exact careful_bind (careful_threw _) fun _ => careful_password M _ _ _ _
  · exact careful_password M _ _ _ _

end GeneratePasswordAction

/-! ## The four actions -/

/-- **Spec and action agree**, on any machine. Whatever parameters each spec accepts, exactly one
parameter of its key is supplied, `actOn` is the body of that one with the value its text is read as,
and no empty optional and no unassigned variable is read just where the sink is known, the files of
the display hold numbers, or those that are read of the keyboard. A password reads neither. -/
theorem specs_match_actions (P : Platform) (M : Machine P) (supplied : Parameters) :
    (VolumeAction.spec.Passes P supplied → ∃ op : VolumeAction.Operation,
        suppliedWithKey supplied VolumeAction.params (lit "operations") = [op.name]
        ∧ op.Given P supplied ∧ VolumeAction.actOn M supplied = VolumeAction.perform M op
        ∧ (Careful (VolumeAction.actOn M supplied) ↔ M.pulse.SinkKnown))
    ∧ (BrightnessChangeAction.spec.Passes P supplied →
        ∃ op : BrightnessChangeAction.Operation,
        suppliedWithKey supplied BrightnessChangeAction.params (lit "operations") = [op.name]
        ∧ op.Given P supplied
        ∧ BrightnessChangeAction.actOn M supplied = BrightnessChangeAction.attempt M op
        ∧ (Careful (BrightnessChangeAction.actOn M supplied) ↔
          (∃ raw, Filesystem.parse M (BrightnessChangeAction.kBrightnessPath ++ lit "/brightness")
            = some raw)
          ∧ ∃ max, Filesystem.parse M
            (BrightnessChangeAction.kBrightnessPath ++ lit "/max_brightness") = some max))
    ∧ (KeyboardBacklightAction.spec.Passes P supplied →
        ∃ op : KeyboardBacklightAction.Operation,
        suppliedWithKey supplied KeyboardBacklightAction.params (lit "operations") = [op.name]
        ∧ op.Given P supplied
        ∧ KeyboardBacklightAction.actOn M supplied = KeyboardBacklightAction.attempt M op
        ∧ (Careful (KeyboardBacklightAction.actOn M supplied) ↔
          ∃ old, Filesystem.parse M (KeyboardBacklightAction.kPath ++ lit "/brightness") = some old
            ∧ (op.ReadsMax old → ∃ max, Filesystem.parse M
              (KeyboardBacklightAction.kPath ++ lit "/max_brightness") = some max)))
    ∧ (GeneratePasswordAction.spec.Passes P supplied → ∃ len : Int,
        suppliedWithKey supplied GeneratePasswordAction.params (lit "length") = [lit "length"]
        ∧ supplied.get P .int (lit "length") = (some len, true)
        ∧ Careful (GeneratePasswordAction.actOn M supplied)) := by
  refine ⟨fun h => ?_, fun h => ?_, fun h => ?_, GeneratePasswordAction.careful_actOn M⟩
  · obtain ⟨op, hone, hgiven, heq⟩ := VolumeAction.actOn_eq_perform M h
    exact ⟨op, hone, hgiven, heq, heq ▸ VolumeAction.careful_perform_iff M op⟩
  · obtain ⟨op, hone, hgiven, heq⟩ := BrightnessChangeAction.actOn_eq_attempt M h
    exact ⟨op, hone, hgiven, heq, heq ▸ BrightnessChangeAction.careful_attempt_iff M op⟩
  · obtain ⟨op, hone, hgiven, heq⟩ := KeyboardBacklightAction.actOn_eq_attempt M h
    exact ⟨op, hone, hgiven, heq, heq ▸ KeyboardBacklightAction.careful_attempt_iff M op⟩

/-- A server with one sink, which is found by its name. -/
def oneSink : Pulse :=
  let sink : SinkInfo := ⟨lit "alsa_output.analog-stereo", 65536, 2, false⟩
  { mainloop := true
    api := true
    context := true
    connect := ([], 0)
    connecting := [⟨[.state .authorizing], 0, false⟩, ⟨[.state .ready], 0, false⟩]
    serverInfo := ⟨some true, [⟨[.serverInfo (some (some sink.name))], 0, false⟩]⟩
    sinkInfo := ⟨some true, [⟨[.sinkInfo (some sink) 0, .sinkInfo none 1], 0, false⟩]⟩
    setSink := ⟨some true, [⟨[.success], 0, false⟩]⟩ }

/-- A machine whose devices are at 7, on a platform without floats. -/
def dimMachine : Machine Platform.bare where
  float := ⟨fun _ => (), fun _ _ => (), fun _ _ => (), fun _ _ => (), fun _ _ => (),
    fun _ _ => false, fun _ => 0, fun _ => 0⟩
  pulse := oneSink
  sysfs := fun _ => lit "7\n"
  dpms := true
  urandom := fun _ => .ok 0

theorem oneSink_sinkKnown : oneSink.SinkKnown where
  mainloop := rfl
  api := rfl
  reported := fun _ _ =>
    ⟨[.state .authorizing, .state .ready, .serverInfo (some (some _))], _, _, rfl, rfl⟩

/-- `volume -- set:40` and `keyboard_backlight -- on` there. -/
theorem specs_match_actions_on :
    Careful (VolumeAction.actOn dimMachine { parameters := TreeMap.ofList [(lit "set", lit "40")] })
    ∧ Careful (KeyboardBacklightAction.actOn dimMachine
      { parameters := TreeMap.ofList [(lit "on", [])] }) := by
  obtain ⟨hvolume, -, -, -⟩ := specs_match_actions Platform.bare dimMachine
    { parameters := TreeMap.ofList [(lit "set", lit "40")] }
  obtain ⟨-, -, hkeyboard, -⟩ := specs_match_actions Platform.bare dimMachine
    { parameters := TreeMap.ofList [(lit "on", [])] }
  obtain ⟨_, -, -, -, hsink⟩ := hvolume ⟨_, rfl, rfl⟩
  obtain ⟨_, -, -, -, hfiles⟩ := hkeyboard ⟨_, rfl, rfl⟩
  exact ⟨hsink.mpr oneSink_sinkKnown, hfiles.mpr ⟨_, rfl, fun _ => ⟨_, rfl⟩⟩⟩

/-- `volume -- set:40` where no sound server is running, and `brightness -- set:40` where the file of
the display is empty. -/
theorem actions_read_unassigned :
    ¬ (VolumeAction.spec.Passes Platform.bare { parameters := TreeMap.ofList [(lit "set", lit "40")] } →
      Careful (VolumeAction.actOn
        { dimMachine with pulse := { oneSink with connect := ([.state .failed], -1) } }
        { parameters := TreeMap.ofList [(lit "set", lit "40")] }))
    ∧ ¬ (BrightnessChangeAction.spec.Passes Platform.bare
        { parameters := TreeMap.ofList [(lit "set", lit "40")] } →
      Careful (BrightnessChangeAction.actOn { dimMachine with sysfs := fun _ => [] }
        { parameters := TreeMap.ofList [(lit "set", lit "40")] })) :=
  ⟨fun h => (h ⟨_, rfl, rfl⟩ {}).2 rfl, fun h => (h ⟨_, rfl, rfl⟩ {}).2 rfl⟩

end Holchain.Holper
