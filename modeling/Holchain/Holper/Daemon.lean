import Holchain.Holper.Pipeline
import Holchain.Holper.Socket

/-!
# Holper.Daemon — the pipeline on sockets that may misbehave

The threads of `Holper.Pipeline` with what its sockets leave out: the Resolver reads a payload call
by call, clients send and close when they like, the clock runs, `accept` may fail. An exception in
`UnixSocket::read` or `UnixSocket::write` leaves the message loop of its thread, and with it the
process ends.
-/

namespace Holchain.Holper.Daemon

open UnixSocket (Reading Answer Part ReadRaw)

/-- What the daemon runs on: a message that was sent with one call fits into its memory. -/
structure Machine where
  order : ByteOrder
  memory : Nat
  memory_suffices : maxTransfer ≤ memory

/-- A connection: whether `accept` has given a descriptor for it, what the client has sent, how
much of it was received, and whether the client has closed its end. -/
structure Connection where
  valid : Bool := true
  sent : Bytes := []
  taken : Nat := 0
  closed : Bool := false

namespace Connection

/-- What is there to be received. -/
def incoming (c : Connection) : Bytes := c.sent.drop c.taken

/-- `recv` with `MSG_WAITALL` on a blocking socket: it returns when all the bytes are there, when
the client has closed, or with an error. -/
def recv (len : Nat) (c : Connection) : Option (Answer × Connection) :=
  let want := min len maxTransfer
  if !c.valid then some (.failed (lit "Bad file descriptor"), c)
  else if want ≤ c.incoming.length then
    some (.received (c.incoming.take want), { c with taken := c.taken + want })
  else if c.closed then some (.received c.incoming, { c with taken := c.sent.length })
  else none

/-- `send`: it fails where nobody is left to receive. -/
def send (len : Nat) (c : Connection) : Sent len :=
  if c.valid && !c.closed then ⟨min len maxTransfer, by omega, by omega⟩
  else ⟨-1, by omega, by omega⟩

end Connection

/-- The threads that use a socket. -/
inductive Thread where
  | resolver
  | responder
  deriving DecidableEq, Repr

/-- The pipeline, the clock, the connections, and where the Resolver stands in `read` while it
handles a request. `left` is a thread that an exception has taken out of its message loop. -/
structure State (workers : Nat) where
  pipe : Pipeline.State workers := {}
  now : Nat := 0
  connections : Nat → Connection := fun _ => {}
  reading : Reading := .start
  left : Option Thread := none

/-- What happens next. -/
inductive Label (workers : Nat) where
  /-- the clock goes on -/
  | tick (now : Nat)
  | clientSend (socket : Nat) (bytes : Bytes)
  | clientClose (socket : Nat)
  | accept (socket : Nat)
  /-- `accept` returns -1, and a request is made for it all the same -/
  | acceptFails (socket : Nat)
  /-- a step of the pipeline that uses no socket -/
  | pipe (l : Pipeline.Label workers)
  /-- the Resolver's next call in `read` -/
  | read
  /-- the rest of its handler -/
  | resolverHandle
  | responderHandle (profile : Json)

/-- What the daemon does not do by itself. -/
def Label.isOutside {workers : Nat} : Label workers → Prop
  | .tick _ | .clientSend _ _ | .clientClose _ | .accept _ | .acceptFails _ => True
  | _ => False

namespace State

variable {workers : Nat}

/-- An exception leaves the thread's message loop. -/
def leave (thread : Thread) (s : State workers) : State workers :=
  { s with left := some thread, pipe := s.pipe.terminate }

/-- The connection of a socket becomes another one. -/
def setConnection (socket : Nat) (c : Connection) (s : State workers) : State workers :=
  { s with connections := Function.update s.connections socket c }

/-- The answer to the next call of `read` on a connection, where the call returns. -/
def answer (m : Machine) (s : State workers) (c : Connection) : Option (Answer × Connection) :=
  match s.reading with
  | .enter _ _ | .test _ _ => some (.clock s.now, c)
  | .recv _ raw => c.recv (raw.len - raw.bytes.length)
  | .alloc length => some (.memory (length ≤ m.memory), c)
  | .returned _ | .thrown _ => none

/-- The Resolver's next call in `read`, where it returns. -/
def read (m : Machine) (s : State workers) : Option (State workers) :=
  match s.pipe.resolver with
  | .handling request =>
    (s.answer m (s.connections request.socket)).bind fun (answer, c) =>
      (s.reading.step m.order answer).map fun reading =>
        let s := { s.setConnection request.socket c with reading }
        match reading with
        | .thrown _ => s.leave .resolver
        | _ => s
  | _ => none

/-- A step of the pipeline that uses no socket. The Resolver goes into `read` with the request it
takes. -/
def stepPipe (P : Platform) (root : Command) (s : State workers) :
    Pipeline.Label workers → Option (State workers)
  | .accept _ | .resolverHandle | .responderHandle _ => none
  | .resolverReceive =>
    (s.pipe.step P root (fun _ => []) .resolverReceive).map fun pipe =>
      { s with pipe, reading := .start }
  | l => (s.pipe.step P root (fun _ => []) l).map fun pipe => { s with pipe }

/-- The Resolver's handler, behind `read`. -/
def resolverHandle (P : Platform) (root : Command) (s : State workers) : Option (State workers) :=
  match s.reading with
  | .returned payload =>
    (s.pipe.resolverHandle P root payload).map fun pipe => { s with pipe, reading := .start }
  | _ => none

/-- The Responder's handler: the response is written before anything else happens. -/
def responderHandle (m : Machine) (P : Platform) (profile : Json) (s : State workers) :
    Option (State workers) :=
  match s.pipe.responder with
  | some args =>
    let c := s.connections args.request.socket
    let response := Responder.handleMessage P profile args
    match (UnixSocket.write m.order response (c.send 8) (c.send response.val.length)).2 with
    | .ok () => (s.pipe.responderHandle P profile).map fun pipe => { s with pipe }
    | .error _ => some (s.leave .responder)
  | none => none

/-- One step. -/
def step (m : Machine) (P : Platform) (root : Command) (s : State workers) (l : Label workers) :
    Option (State workers) :=
  if s.pipe.terminated then none
  else
    match l with
    | .tick now => if s.now ≤ now then some { s with now } else none
    | .clientSend socket bytes =>
      let c := s.connections socket
      if c.closed then none else some (s.setConnection socket { c with sent := c.sent ++ bytes })
    | .clientClose socket =>
      some (s.setConnection socket { s.connections socket with closed := true })
    | .accept socket => (s.pipe.accept socket).map fun pipe => { s with pipe }
    | .acceptFails socket =>
      (s.pipe.accept socket).map fun pipe =>
        { s.setConnection socket { valid := false } with pipe }
    | .pipe l => s.stepPipe P root l
    | .read => s.read m
    | .resolverHandle => s.resolverHandle P root
    | .responderHandle profile => s.responderHandle m P profile

/-- The Resolver is blocked in `recv` although the deadline of its `readRaw` has passed. -/
def Blocked (s : State workers) : Prop :=
  ∃ request part raw, s.pipe.resolver = .handling request ∧ s.reading = .recv part raw
    ∧ (s.connections request.socket).recv (raw.len - raw.bytes.length) = none
    ∧ raw.until_ ≤ s.now

end State

/-- All runs of a daemon with so many workers. -/
def system (m : Machine) (P : Platform) (root : Command) (workers : Nat) :
    Lib.System (State workers) (Label workers) where
  init := (· = {})
  step := State.step m P root

end Holchain.Holper.Daemon
