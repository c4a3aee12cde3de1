import Holchain.Holper.Command

/-!
# Holper.Machine — the machine that actions run on

What the body of an `actOn` sees of the computer (`Machine`) and does to it (`Effect`). A body
ends with a value, with an exception, or in undefined behaviour: where the value of an empty
`std::optional` is taken, a local or a member is read that nothing has assigned, a number is divided
by zero, a vector is indexed behind its end or a null pointer is followed; or it waits without end.
Arithmetic on `int` wraps, as g++ compiles it.

`float` is the platform's. Of the sound server's library, its answers are kept.
-/

namespace Holchain.Holper

/-- Arithmetic on `float`. -/
structure FloatOps (F : Type) where
  /-- conversion from `int` -/
  ofInt : Int → F
  /-- the literal nearest to a fraction -/
  literal : Nat → Nat → F
  add : F → F → F
  mul : F → F → F
  div : F → F → F
  lt : F → F → Bool
  /-- conversion to `int` -/
  toInt : F → Int
  /-- conversion to the `double` of a `rapidjson::Value` -/
  toDouble : F → UInt64

/-! ## The sound server -/

/-- `pa_context_state_t`. -/
inductive ContextState where
  | unconnected
  | connecting
  | authorizing
  | settingName
  | ready
  | failed
  | terminated
  | other (state : Int)

/-- `pa_sink_info`, with `pa_cvolume_avg` of its volumes and their number. -/
structure SinkInfo where
  name : Bytes
  volume : Nat
  channels : Nat
  mute : Bool

/-- A callback with its arguments; a null pointer is `none`. -/
inductive Callback where
  | state (state : ContextState)
  /-- the server's `default_sink_name` -/
  | serverInfo (info : Option (Option Bytes))
  | sinkInfo (info : Option SinkInfo) (eol : Int)
  | success

/-- A call of `pa_mainloop_iterate` that returns: the callbacks that it makes, its result, and whether
the operation that is waited for, if there is one, is running behind it. -/
structure Iteration where
  callbacks : List Callback
  result : Int
  running : Bool

/-- What is waited for: no operation, or one that is running or not; and the iterations of the wait.
One more does not return. -/
structure Wait where
  op : Option Bool
  iterations : List Iteration

/-- The answers of the library in one run. -/
structure Pulse where
  /-- whether `pa_mainloop_new`, `pa_mainloop_get_api` and `pa_context_new` return a pointer -/
  mainloop : Bool
  api : Bool
  context : Bool
  /-- the callbacks that `pa_context_connect` makes, and its result -/
  connect : List Callback × Int
  connecting : List Iteration
  /-- `pa_context_get_server_info` -/
  serverInfo : Wait
  /-- `pa_context_get_sink_info_by_name` -/
  sinkInfo : Wait
  /-- `pa_context_set_sink_volume_by_name` or `pa_context_set_sink_mute_by_name` -/
  setSink : Wait

/-! ## The machine -/

/-- What a body can read of the computer. -/
structure Machine (P : Platform) where
  float : FloatOps P.Float
  pulse : Pulse
  /-- the text of a device's file in `/sys` -/
  sysfs : Bytes → Bytes
  /-- `DPMSQueryExtension` -/
  dpms : Bool
  /-- the reads of four bytes of `/dev/urandom` in their order: an `unsigned`, or the text of the
  exception -/
  urandom : Nat → Except Bytes UInt32

/-- What a body does to it. -/
inductive Effect (P : Platform) where
  /-- `pa_context_set_sink_mute_by_name` -/
  | mute (sink : Bytes) (on : Bool)
  /-- `pa_context_set_sink_volume_by_name`, with all channels at a volume -/
  | volume (sink : Bytes) (channels : Nat) (volume : Int)
  /-- `DPMSForceLevel` -/
  | screen (on : Bool)
  /-- `Filesystem::dump` of an `int` -/
  | dump (path : Bytes) (value : Int)
  /-- a `Subprocess` that is given an input -/
  | subprocess (argv : List Bytes) (input : Bytes)

/-- Undefined behaviour. -/
inductive Undefined where
  /-- `*opt` where `opt` is empty -/
  | emptyOptional
  /-- reading a local or a member that is not assigned -/
  | unassigned
  /-- `%` by zero -/
  | moduloZero
  /-- `vec[i]` behind the end -/
  | outOfRange
  /-- what a null pointer points to -/
  | nullPointer
  deriving DecidableEq, Repr

/-- How a body does not come to a value. -/
inductive Stop where
  | threw (what : Bytes)
  | undefined (u : Undefined)
  /-- a call does not return -/
  | waits

/-- What a body has done so far. -/
structure Trace (P : Platform) where
  effects : List (Effect P) := []
  draws : Nat := 0

/-- The body of an `actOn`. -/
abbrev Body (P : Platform) := ExceptT Stop (StateM (Trace P))

namespace Body

variable {P : Platform} {α : Type}

/-- `throw` of a `std::exception`. -/
def threw (what : Bytes) : Body P α := ExceptT.mk (pure (.error (.threw what)))

/-- Undefined behaviour. -/
def undefined (u : Undefined) : Body P α := ExceptT.mk (pure (.error (.undefined u)))

/-- `*opt`. -/
def deref : Option α → Body P α
  | some a => pure a
  | none => undefined .emptyOptional

/-- Reading a local, which is empty until it is assigned. -/
def read : Option α → Body P α
  | some a => pure a
  | none => undefined .unassigned

/-- `vec[i]`. -/
def index (vec : List α) (i : Nat) : Body P α :=
  match vec[i]? with
  | some a => pure a
  | none => undefined .outOfRange

/-- `a % b` on unsigned numbers. -/
def modulo (a b : Nat) : Body P Nat := if b = 0 then undefined .moduloZero else pure (a % b)

/-- Doing something to the machine. -/
def emit (e : Effect P) : Body P Unit :=
  ExceptT.mk fun trace => (.ok (), { trace with effects := trace.effects ++ [e] })

end Body

/-- `std::clamp`. -/
def clampInt (v lo hi : Int) : Int := if v < lo then lo else if hi < v then hi else v

/-- `std::clamp` of a `float`. -/
def FloatOps.clamp {F : Type} (ops : FloatOps F) (v lo hi : F) : F :=
  if ops.lt v lo then lo else if ops.lt hi v then hi else v

namespace Filesystem

variable {P : Platform}

/-- `parse(path, "%d", &local)`: what is assigned to the local, if anything is. The bodies ignore
what `parse` returns. -/
def parse (M : Machine P) (path : Bytes) : Option Int := (scanInt (M.sysfs path)).map (·.1)

/-- `dump(path, "%d", value)`. -/
def dump (path : Bytes) (value : Int) : Body P Unit := Body.emit (.dump path value)

/-- `urandom(4, &local)`: the number that is assigned. -/
def urandom (M : Machine P) : Body P UInt32 :=
  ExceptT.mk fun trace =>
    ((M.urandom trace.draws).mapError .threw, { trace with draws := trace.draws + 1 })

end Filesystem

end Holchain.Holper
