import Mathlib.Logic.Function.Basic
import Holchain.Lib.Transition
import Holchain.Holper.Resolver
import Holchain.Holper.Worker
import Holchain.Holper.WorkPool

/-!
# Holper.Pipeline — a request's way through the threads

The server thread, the Resolver, the WorkPool, its workers and the Responder, with the mailboxes
and the queue between them. A step is one push, one pop or the body of one handler, of any thread
that can take it; the sockets deliver what the clients sent. `terminated` is a process that an
assertion or an exception has ended.
-/

namespace Holchain.Holper.Pipeline

/-- `messages_` or `works_`, with its semaphore. -/
structure Mailbox (α : Type) where
  messages : List α := []
  semaphore : Nat := 0

namespace Mailbox

variable {α : Type}

/-- `sendMessage`: `sem_post` fails at the largest value, and `sendMessage` throws. -/
def sendMessage (msg : α) (box : Mailbox α) : Option (Mailbox α) :=
  if box.semaphore < WorkPool.semValueMax then
    some { messages := box.messages ++ [msg], semaphore := box.semaphore + 1 }
  else none

/-- `WorkPool::handleMessage`, which ignores a `sem_post` that fails. -/
def push (msg : α) (box : Mailbox α) : Mailbox α :=
  { messages := box.messages ++ [msg]
    semaphore := min (box.semaphore + 1) (max box.semaphore WorkPool.semValueMax) }

/-- What a thread that waits for a message gets. -/
inductive Received (α : Type) where
  | blocked
  /-- the front of an empty queue -/
  | undefined
  | message (msg : α) (box : Mailbox α)

/-- The wait for the semaphore, and the front of the queue. -/
def receive (box : Mailbox α) : Received α :=
  if box.semaphore = 0 then .blocked
  else
    match box.messages with
    | [] => .undefined
    | msg :: messages => .message msg { messages, semaphore := box.semaphore - 1 }

end Mailbox

/-- Where a thread stands that handles messages of one type and sends messages of another. -/
inductive Handler (α β : Type) where
  | waiting
  | handling (msg : α)
  | sending (msg : β)

/-- The threads, what they hold, and what has happened: the ids given to accepted sockets, and the
texts written to sockets. A `ResolverArgs` is its request. -/
structure State (workers : Nat) where
  idCounter : Int := 0
  server : Option Request := none
  resolverBox : Mailbox Request := {}
  resolver : Handler Request Work := .waiting
  workPoolBox : Mailbox Work := {}
  workPool : Option Work := none
  works : Mailbox Work := {}
  worker : Fin workers → Handler Work ResponderArgs := fun _ => .waiting
  responderBox : Mailbox ResponderArgs := {}
  responder : Option ResponderArgs := none
  accepted : List (Int × Nat) := []
  written : List (Nat × Message) := []
  terminated : Bool := false

/-- Who takes the next step. -/
inductive Label (workers : Nat) where
  | accept (socket : Nat)
  | serverSend
  | resolverReceive
  | resolverHandle
  | resolverSend
  | workPoolReceive
  | workPoolHandle
  | workerReceive (i : Fin workers)
  | workerHandle (i : Fin workers)
  | workerSend (i : Fin workers)
  | responderReceive
  /-- `profile` is what the request's profiler has to say -/
  | responderHandle (profile : Json)

/-- A step that comes from outside. -/
def Label.isAccept {workers : Nat} : Label workers → Prop
  | .accept _ => True
  | _ => False

namespace State

variable {workers : Nat}

/-- The process ends. -/
def terminate (s : State workers) : State workers := { s with terminated := true }

/-- `sendMessage`, and what it leaves. -/
def send {α : Type} (s : State workers) (msg : α) (box : Mailbox α)
    (sent : Mailbox α → State workers) : State workers :=
  match box.sendMessage msg with
  | some box => sent box
  | none => s.terminate

/-- A thread takes a message, where it does not block. -/
def receive {α : Type} (s : State workers) (box : Mailbox α)
    (received : α → Mailbox α → State workers) : Option (State workers) :=
  match box.receive with
  | .blocked => none
  | .undefined => some s.terminate
  | .message msg box => some (received msg box)

/-- `Server::accept`, up to the message it sends: a request for a socket not seen before. There
are fewer than 2^31 of them. -/
def accept (socket : Nat) (s : State workers) : Option (State workers) :=
  if s.server.isNone ∧ socket ∉ s.accepted.map (·.2) ∧ s.accepted.length + 1 < 2 ^ 31 then
    let id := s.idCounter + 1
    some { s with
      idCounter := id
      server := some { id, socket }
      accepted := s.accepted ++ [(id, socket)] }
  else none

/-- The server thread sends the request to the Resolver. -/
def serverSend (s : State workers) : Option (State workers) :=
  s.server.map fun request =>
    s.send request s.resolverBox fun resolverBox => { s with server := none, resolverBox }

/-- The Resolver takes a request. -/
def resolverReceive (s : State workers) : Option (State workers) :=
  match s.resolver with
  | .waiting =>
    s.receive s.resolverBox fun request resolverBox =>
      { s with resolverBox, resolver := .handling request }
  | _ => none

/-- The body of its handler, up to the work it sends, for the payload it reads. -/
def resolverHandle (P : Platform) (root : Command) (payload : Bytes) (s : State workers) :
    Option (State workers) :=
  match s.resolver with
  | .handling request =>
    match Resolver.handleMessage P root request payload with
    | .ok [.work work] => some { s with resolver := .sending work }
    | _ => some s.terminate
  | _ => none

/-- The Resolver sends the work to the WorkPool. -/
def resolverSend (s : State workers) : Option (State workers) :=
  match s.resolver with
  | .sending work =>
    some (s.send work s.workPoolBox fun workPoolBox =>
      { s with resolver := .waiting, workPoolBox })
  | _ => none

/-- The WorkPool thread takes a work. -/
def workPoolReceive (s : State workers) : Option (State workers) :=
  match s.workPool with
  | none =>
    s.receive s.workPoolBox fun work workPoolBox => { s with workPoolBox, workPool := some work }
  | some _ => none

/-- Its handler puts the work into the queue. -/
def workPoolHandle (s : State workers) : Option (State workers) :=
  s.workPool.map fun work => { s with workPool := none, works := s.works.push work }

/-- A worker takes a work from the queue. -/
def workerReceive (i : Fin workers) (s : State workers) : Option (State workers) :=
  match s.worker i with
  | .waiting =>
    s.receive s.works fun work works =>
      { s with works, worker := Function.update s.worker i (.handling work) }
  | _ => none

/-- `runSingle`, and the call of `finish_` up to the message it sends. -/
def workerHandle (P : Platform) (i : Fin workers) (s : State workers) : Option (State workers) :=
  match s.worker i with
  | .handling work =>
    match (WorkPoolWorker.result P work).1 with
    | .ok (result, code) =>
      let args := Resolver.sendToResponder work.finish { work, result, code }
      some { s with worker := Function.update s.worker i (.sending args) }
    | .error _ => some s.terminate
  | _ => none

/-- The worker sends the result to the Responder. -/
def workerSend (i : Fin workers) (s : State workers) : Option (State workers) :=
  match s.worker i with
  | .sending args =>
    some (s.send args s.responderBox fun responderBox =>
      { s with worker := Function.update s.worker i .waiting, responderBox })
  | _ => none

/-- The Responder takes a result. -/
def responderReceive (s : State workers) : Option (State workers) :=
  match s.responder with
  | none =>
    s.receive s.responderBox fun args responderBox =>
      { s with responderBox, responder := some args }
  | some _ => none

/-- Its handler writes the response, and the request is destroyed. -/
def responderHandle (P : Platform) (profile : Json) (s : State workers) :
    Option (State workers) :=
  s.responder.map fun args => { s with
    responder := none
    written := s.written ++ [(args.request.socket, Responder.handleMessage P profile args)] }

/-- One step, where `payload` is what the client of a socket has sent. -/
def step (P : Platform) (root : Command) (payload : Nat → Bytes) (s : State workers)
    (l : Label workers) : Option (State workers) :=
  if s.terminated then none
  else
    match l with
    | .accept socket => s.accept socket
    | .serverSend => s.serverSend
    | .resolverReceive => s.resolverReceive
    | .resolverHandle =>
      match s.resolver with
      | .handling request => s.resolverHandle P root (payload request.socket)
      | _ => none
    | .resolverSend => s.resolverSend
    | .workPoolReceive => s.workPoolReceive
    | .workPoolHandle => s.workPoolHandle
    | .workerReceive i => s.workerReceive i
    | .workerHandle i => s.workerHandle P i
    | .workerSend i => s.workerSend i
    | .responderReceive => s.responderReceive
    | .responderHandle profile => s.responderHandle P profile

end State

/-- All runs of a daemon with so many workers. -/
def system (P : Platform) (root : Command) (payload : Nat → Bytes) (workers : Nat) :
    Lib.System (State workers) (Label workers) where
  init := (· = {})
  step := State.step P root payload

end Holchain.Holper.Pipeline
