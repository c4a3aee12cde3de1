import Holchain.Holper.Machine

/-!
# Holper.Pulse — the volume command

A connection to the sound server is made for each request. Its callbacks assign the members of
`PulseAudio`, and what they do not assign is empty. Logging is left out, but for what it reads.
-/

namespace Holchain.Holper

variable {P : Platform}

/-- `PulseState`. -/
inductive PulseState where
  | connecting
  | connected
  | error
  deriving DecidableEq

/-- `PulseAudio`. -/
structure PulseAudio where
  /-- what `init` assigns first -/
  state : PulseState := .connecting
  /-- whether it is a context, or a null pointer -/
  pulseContext : Option Bool := none
  defaultSinkName : Bytes := []
  /-- what it points to -/
  defaultSink : Option SinkInfo := none

namespace PulseAudio

/-- Reading a member. -/
def read {α : Type} : Option α → Except Stop α
  | some a => .ok a
  | none => .error (.undefined .unassigned)

/-- `logError`. -/
def logError (pa : PulseAudio) : Except Stop Unit := do
  let _ ← read pa.pulseContext

/-- `pulseServerInfoCallback`. -/
def pulseServerInfoCallback (pa : PulseAudio) : Option (Option Bytes) → Except Stop PulseAudio
  | some (some defaultSinkName) => .ok { pa with defaultSinkName }
  | _ => .error (.undefined .nullPointer)

/-- `pulseContextStateCallback`. -/
def pulseContextStateCallback (pa : PulseAudio) : ContextState → Except Stop PulseAudio
  | .ready => .ok { pa with state := .connected }
  | .failed => do
    logError pa
    return { pa with state := .error }
  | _ => .ok pa

/-- `pulseSinkInfoCallback`. -/
def pulseSinkInfoCallback (pa : PulseAudio) (info : Option SinkInfo) (eol : Int) :
    Except Stop PulseAudio :=
  if eol ≠ 0 then .ok pa
  else
    match info with
    | none => .error (.undefined .nullPointer)
    | some info =>
      if pa.defaultSinkName ≠ info.name then do
        logError pa
        return pa
      else .ok { pa with defaultSink := some info }

/-- A callback. -/
def callback (pa : PulseAudio) : Callback → Except Stop PulseAudio
  | .state state => pulseContextStateCallback pa state
  | .serverInfo info => pulseServerInfoCallback pa info
  | .sinkInfo info eol => pulseSinkInfoCallback pa info eol
  | .success => .ok pa

/-- The loop of `iterate` without an operation. -/
def iterateConnect : List Iteration → PulseAudio → Except Stop PulseAudio
  | [], pa => if pa.state = .connecting then .error .waits else .ok pa
  | i :: rest, pa =>
    if pa.state = .connecting then do
      let pa ← i.callbacks.foldlM callback pa
      if i.result < 0 then
        logError pa
        return pa
      else iterateConnect rest pa
    else .ok pa

/-- The loop of `iterate` with an operation that is running, or not. -/
def iterateOp : Bool → List Iteration → PulseAudio → Except Stop PulseAudio
  | false, _, pa => .ok pa
  | true, [], _ => .error .waits
  | true, i :: rest, pa => do
    let pa ← i.callbacks.foldlM callback pa
    if i.result < 0 then
      logError pa
      return pa
    else iterateOp i.running rest pa

/-- `iterate`. -/
def iterate (wait : Wait) (pa : PulseAudio) : Except Stop PulseAudio :=
  match wait.op with
  | none => iterateConnect wait.iterations pa
  | some running => iterateOp running wait.iterations pa

/-- `init`. -/
def init (pulse : Pulse) : Except Stop PulseAudio := do
  let pa : PulseAudio := {}
  if !pulse.mainloop then
    logError pa
    return pa
  if !pulse.api then
    logError pa
    return pa
  let pa := { pa with pulseContext := some pulse.context }
  if !pulse.context then
    logError pa
    return pa
  let pa ← pulse.connect.1.foldlM callback pa
  if pulse.connect.2 < 0 then
    logError pa
    return pa
  let pa ← iterate ⟨none, pulse.connecting⟩ pa
  if pa.state = .error then
    logError pa
    return pa
  let pa ← iterate pulse.serverInfo pa
  iterate pulse.sinkInfo pa

/-- `getVolume`. -/
def getVolume (ops : FloatOps P.Float) (pa : PulseAudio) : Except Stop P.Float := do
  let sink ← read pa.defaultSink
  return ops.div (ops.mul (ops.ofInt sink.volume) (ops.literal 1 1)) (ops.ofInt 65536)

/-- `setVolume`. -/
def setVolume (M : Machine P) (volPerc : P.Float) (pa : PulseAudio) : Body P PulseAudio := do
  let ops := M.float
  let volPerc := ops.clamp volPerc (ops.literal 0 1) (ops.literal 2 1)
  let sink ← read pa.defaultSink
  .emit (.volume pa.defaultSinkName sink.channels (ops.toInt (ops.mul volPerc (ops.ofInt 65536))))
  iterate M.pulse.setSink pa

/-- `setMute`. -/
def setMute (M : Machine P) (mute : Bool) (pa : PulseAudio) : Body P PulseAudio := do
  .emit (.mute pa.defaultSinkName mute)
  iterate M.pulse.setSink pa

/-- `isMuted`. -/
def isMuted (pa : PulseAudio) : Except Stop Bool := do
  let sink ← read pa.defaultSink
  return sink.mute

/-- `toggleMute`. -/
def toggleMute (M : Machine P) (pa : PulseAudio) : Body P PulseAudio := do
  let sink ← read pa.defaultSink
  setMute M (!sink.mute) pa

/-- `~PulseAudio`. -/
def destroy (pa : PulseAudio) : Except Stop Unit := do
  let _ ← read pa.pulseContext

end PulseAudio

namespace VolumeAction

open ParamSpec (ParamDeclaration)

/-- The `param` calls of `spec`. -/
def params : List ParamDeclaration :=
  [⟨.int, lit "set", .ofList [lit "operations"], lit "sets volume to value"⟩,
    ⟨.int, lit "incr", .ofList [lit "operations"], lit "increments volume by value"⟩,
    ⟨.none, lit "mute", .ofList [lit "operations"], lit "Toggles mute/unmute"⟩]

/-- `spec`. -/
def spec : Spec := { declarations := params.map .param ++ [.key ⟨lit "operations", 1, 1⟩] }

/-- `actOn`. -/
def actOn (M : Machine P) (params : Parameters) : Body P Json := do
  let ops := M.float
  let pa ← PulseAudio.init M.pulse
  let vol ← PulseAudio.getVolume ops pa
  let mute ← PulseAudio.isMuted pa
  if (params.get P .none (lit "mute")).1.isSome then
    let pa ← PulseAudio.toggleMute M pa
    PulseAudio.destroy pa
    return .object [(lit "volume", .double (ops.toDouble vol)), (lit "old_mute", .bool mute),
      (lit "new_mute", .bool (!mute))]
  let mut newVol : Option P.Float := none
  let incr := (params.get P .int (lit "incr")).1
  if incr.isSome then
    newVol := some (ops.add vol (ops.mul (ops.ofInt (← .deref incr)) (ops.literal 1 100)))
  else
    let set := (params.get P .int (lit "set")).1
    if set.isSome then
      newVol := some (ops.mul (ops.ofInt (← .deref set)) (ops.literal 1 100))
  let clamped := ops.clamp (← .read newVol) (ops.literal 0 1) (ops.literal 2 1)
  let pa ← PulseAudio.setVolume M clamped pa
  PulseAudio.destroy pa
  return .object [(lit "old_volume", .int (ops.toInt (ops.mul (ops.ofInt 100) vol))),
    (lit "new_volume", .int (ops.toInt (ops.mul (ops.ofInt 100) clamped))),
    (lit "mute", .bool mute)]

end VolumeAction

end Holchain.Holper
